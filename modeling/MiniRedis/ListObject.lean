import MiniRedis.HashObject

/-!
`ListObject`: a vector that stands for a ziplist, and a deque once there are many
elements or one is large.  An iterator is the number of elements in front of it,
a reverse iterator that of its base.
-/

namespace MiniRedis

/-- `ListObject.hpp`'s `ObjectEncoding`. -/
inductive ListEncoding where
  | ZIPLIST
  | LINKEDLIST
  deriving DecidableEq, Repr

/-- The variant `storage_` of a list. -/
inductive ListStorage where
  | ziplist (zl : List Bytes)
  | linkedlist (ll : List Bytes)
  deriving DecidableEq, Repr

structure ListObject where
  encoding : ListEncoding
  storage : ListStorage
  deriving DecidableEq, Repr

inductive InsertPosition where
  | BEFORE
  | AFTER
  deriving DecidableEq, Repr

namespace ListObject

open HashObject (badVariantAccess)

def ZIPLIST_MAX_ENTRIES : Nat := 512
def ZIPLIST_MAX_ENTRY_SIZE : Nat := 64

/-- `ListObject::ListObject`. -/
def new : ListObject := ⟨.ZIPLIST, .ziplist []⟩

def getZiplist (o : ListObject) : Exec (List Bytes) :=
  match o.storage with
  | .ziplist zl => pure zl
  | .linkedlist _ => throw badVariantAccess

def getLinkedlist (o : ListObject) : Exec (List Bytes) :=
  match o.storage with
  | .ziplist _ => throw badVariantAccess
  | .linkedlist ll => pure ll

def size (o : ListObject) : Exec Nat :=
  if o.encoding = .ZIPLIST then do
    let zl ← o.getZiplist
    pure zl.length
  else do
    let ll ← o.getLinkedlist
    pure ll.length

def promoteToLinkedlist (o : ListObject) : Exec ListObject :=
  if o.encoding ≠ .ZIPLIST then pure o
  else do
    let zl ← o.getZiplist
    pure ⟨.LINKEDLIST, .linkedlist zl⟩

/-! ## Both ends -/

/-- The size is checked before the element is there. -/
def pushBack (value : Bytes) (o : ListObject) : Exec ListObject := do
  let o ← if o.encoding = .ZIPLIST then do
      let zl ← o.getZiplist
      if zl.length + 1 > ZIPLIST_MAX_ENTRIES ∨ value.length > ZIPLIST_MAX_ENTRY_SIZE then
        o.promoteToLinkedlist
      else pure o
    else pure o
  if o.encoding = .ZIPLIST then do
    let zl ← o.getZiplist
    pure { o with storage := .ziplist (zl ++ [value]) }
  else do
    let ll ← o.getLinkedlist
    pure { o with storage := .linkedlist (ll ++ [value]) }

/-- `pop_front`: the element, if there is one. -/
def popFront (o : ListObject) : Exec (Option Bytes × ListObject) := do
  if (← o.size) = 0 then pure (none, o)
  else if o.encoding = .ZIPLIST then do
    let zl ← o.getZiplist
    let out ← at? zl 0
    pure (some out, { o with storage := .ziplist (zl.eraseIdx 0) })
  else do
    let ll ← o.getLinkedlist
    let out ← at? ll 0
    pure (some out, { o with storage := .linkedlist (ll.eraseIdx 0) })

def popBack (o : ListObject) : Exec (Option Bytes × ListObject) := do
  if (← o.size) = 0 then pure (none, o)
  else if o.encoding = .ZIPLIST then do
    let zl ← o.getZiplist
    let out ← at? zl (zl.length - 1)
    pure (some out, { o with storage := .ziplist zl.dropLast })
  else do
    let ll ← o.getLinkedlist
    let out ← at? ll (ll.length - 1)
    pure (some out, { o with storage := .linkedlist ll.dropLast })

/-! ## `get` -/

/-- `normalize_index`; `idx += sz` adds a `size_t` to a `long long`. -/
def normalizeIndex (index : Int) (sz : Nat) : Option Nat :=
  if sz = 0 then none
  else
    let idx := if index < 0 then Int.bmod (index + sz) (2 ^ 64) else index
    if idx < 0 ∨ idx ≥ sz then none else some (toSizeT idx)

def get (index : Int) (o : ListObject) : Exec (Option Bytes) := do
  let elems ← if o.encoding = .ZIPLIST then o.getZiplist else o.getLinkedlist
  match normalizeIndex index elems.length with
  | none => pure none
  | some idx => do
      let out ← at? elems idx
      pure (some out)

/-! ## `insert` -/

/-- `insert` at the iterator or behind it. -/
def insertBeside (pos : InsertPosition) (it : Nat) (value : Bytes) (zl : List Bytes) : List Bytes :=
  match pos with
  | .BEFORE => zl.insertIdx it value
  | .AFTER => zl.insertIdx (it + 1) value

/-- The branch for a deque is left out in the source: it answers `true`. -/
def insert (pivot value : Bytes) (pos : InsertPosition) (o : ListObject) :
    Exec (Bool × ListObject) := do
  let o ← if o.encoding = .ZIPLIST ∧ value.length > ZIPLIST_MAX_ENTRY_SIZE then
      o.promoteToLinkedlist
    else pure o
  if o.encoding = .ZIPLIST then do
    let zl ← o.getZiplist
    let it := zl.idxOf pivot
    if it = zl.length then pure (false, o)
    else do
      let zl := insertBeside pos it value zl
      let o := { o with storage := .ziplist zl }
      let o ← if zl.length > ZIPLIST_MAX_ENTRIES then o.promoteToLinkedlist else pure o
      pure (true, o)
  else pure (true, o)

/-! ## `remove` -/

def LLONG_MIN : Int := -2 ^ 63
def LLONG_MAX : Int := 2 ^ 63 - 1

/-- `-count` on `long long`. -/
def negate (count : Int) : Exec Int :=
  if -count > LLONG_MAX then throw .undefined else pure (-count)

/-- A loop from `begin()` on, with `ahead` elements between the iterator and
`end()`: erasing and advancing both leave one less. -/
def eraseForward (value : Bytes) (more : Int → Bool) :
    Nat → List Bytes → Int → Exec (Int × List Bytes)
  | 0, l, removed => pure (removed, l)
  | ahead + 1, l, removed =>
      if more removed then do
        let it := l.length - (ahead + 1)
        let x ← at? l it
        if x = value then eraseForward value more ahead (l.eraseIdx it) (removed + 1)
        else eraseForward value more ahead l removed
      else pure (removed, l)

/-- A loop from `rbegin()` on: a reverse iterator refers to the element in front
of its base, and `erase` returns the iterator behind the one that is gone. -/
def eraseBackward (value : Bytes) (more : Int → Bool) :
    Nat → List Bytes → Int → Exec (Int × List Bytes)
  | 0, l, removed => pure (removed, l)
  | base + 1, l, removed =>
      if more removed then do
        let x ← at? l base
        if x = value then eraseBackward value more base (l.eraseIdx base) (removed + 1)
        else eraseBackward value more base l removed
      else pure (removed, l)

/-- The three loops over one of the containers. -/
def removeLoops (count : Int) (value : Bytes) (l : List Bytes) : Exec (Int × List Bytes) :=
  if count > 0 then eraseForward value (fun removed => decide (removed < count)) l.length l 0
  else if count < 0 then do
    let count ← negate count
    eraseBackward value (fun removed => decide (removed < count)) l.length l 0
  else eraseForward value (fun _ => true) l.length l 0

def remove (count : Int) (value : Bytes) (o : ListObject) : Exec (Int × ListObject) := do
  if (← o.size) = 0 then pure (0, o)
  else if o.encoding = .ZIPLIST then do
    let zl ← o.getZiplist
    let (removed, zl) ← removeLoops count value zl
    pure (removed, { o with storage := .ziplist zl })
  else do
    let ll ← o.getLinkedlist
    let (removed, ll) ← removeLoops count value ll
    pure (removed, { o with storage := .linkedlist ll })

/-! ## `trim` -/

def INT_MIN : Int := -2 ^ 31
def INT_MAX : Int := 2 ^ 31 - 1

/-- `idx += sz`, an `int` and a `size_t`: the sum is taken in `size_t` and cut
to an `int`. -/
def addSize (idx : Int) (sz : Nat) : Int :=
  Int.bmod ((idx + sz) % 2 ^ 64) (2 ^ 32)

/-- The function `norm` in `normalize_range`. -/
def norm (sz : Nat) (idx : Int) : Int :=
  let idx := if idx < 0 then addSize idx sz else idx
  if idx < 0 then -1
  else if idx ≥ sz then sz
  else idx

def normalizeRange (start stop : Int) (sz : Nat) : Option (Nat × Nat) :=
  if sz = 0 then none
  else
    let l := norm sz start
    let r := norm sz stop
    let l := if l = -1 then 0 else l
    let r := if r ≥ sz then (sz : Int) - 1 else r
    if l > r ∨ l ≥ sz then none
    else some (toSizeT l, toSizeT r)

/-- `it + n`: an iterator behind `end()` is undefined. -/
def advance (l : List Bytes) (it n : Nat) : Exec Nat :=
  if it + n ≤ l.length then pure (it + n) else throw .undefined

/-- `assign(first, last)` from a container: the elements between two iterators
into it, which have to come in this order. -/
def assignRange (l : List Bytes) (first last : Nat) : Exec (List Bytes) :=
  if first ≤ last then pure ((l.drop first).take (last - first)) else throw .undefined

/-- The elements from `begin() + l` up to `begin() + r + 1`. -/
def copyRange (elems : List Bytes) (l r : Nat) : Exec (List Bytes) := do
  let first ← advance elems 0 l
  let last ← advance elems 0 r
  let last ← advance elems last 1
  assignRange elems first last

def trim (start stop : Int) (o : ListObject) : Exec ListObject := do
  let sz ← o.size
  if sz = 0 then pure o
  else
    match normalizeRange start stop sz with
    | none =>
        if o.encoding = .ZIPLIST then do
          let _ ← o.getZiplist
          pure { o with storage := .ziplist [] }
        else do
          let _ ← o.getLinkedlist
          pure { o with storage := .linkedlist [] }
    | some (l, r) =>
        if o.encoding = .ZIPLIST then do
          let zl ← o.getZiplist
          let zl ← copyRange zl l r
          pure { o with storage := .ziplist zl }
        else do
          let ll ← o.getLinkedlist
          let ll ← copyRange ll l r
          pure { o with storage := .linkedlist ll }

end ListObject

end MiniRedis
