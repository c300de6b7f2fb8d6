import MiniRedis.Basic
import MiniRedis.Lib.BucketTable

/-!
`Dict`: the incrementally rehashed hash table.  A table is a vector of chains,
head first; `ht0` is the main table and `ht1` the one a rehash fills.  The hash
function is a parameter.  Loops over a vector are recursions over what is left
of it, and an index outside a table or a remainder by zero is a fault.
-/

namespace MiniRedis

open AssocList BucketTable

/-- One `HashEntry` without its link: key and value. -/
abbrev HashEntry := Bytes × Bytes

/-- The entries linked from one bucket head. -/
abbrev Chain := List HashEntry

abbrev Table := List Chain

structure Dict where
  ht0 : Table
  ht1 : Table
  used : Int
  /-- `-1` when not rehashing, else the next bucket to migrate. -/
  rehashidx : Int
  deriving DecidableEq, Repr

namespace Dict

def INIT_HT_SIZE : Nat := 4
def HASHTABLE_MIN_FILL : Nat := 10

/-- `Dict::Dict`. -/
def new : Dict := ⟨List.replicate INIT_HT_SIZE [], [], 0, -1⟩

def isRehashing (d : Dict) : Bool := d.rehashidx != -1

/-- `vector::resize`. -/
def resize (t : Table) (n : Nat) : Table := t.take n ++ List.replicate (n - t.length) []

def size (d : Dict) : Nat := toSizeT d.used

/-! ## Rehashing -/

/-- How the inner loop of `rehash_step` ends: its budget of empty buckets is
spent, or it stands at a non-empty bucket or past the table. -/
inductive Skip where
  | spent (idx : Int)
  | stopped (idx : Int) (emptyVisits : Nat)

/-- The buckets of `t` from `idx` on; none when `idx` is past the end. -/
def bucketsFrom (t : Table) (idx : Int) : Exec Table :=
  if t.length ≤ idx then pure []
  else if idx < 0 then throw .undefined
  else pure (t.drop idx.toNat)

/-- Skip empty buckets, counting the visits. -/
def skipEmpty (limit : Nat) : Table → Int → Nat → Skip
  | [], idx, emptyVisits => .stopped idx emptyVisits
  | bucket :: rest, idx, emptyVisits =>
      if bucket = [] then
        if emptyVisits + 1 > limit then .spent (idx + 1)
        else skipEmpty limit rest (idx + 1) (emptyVisits + 1)
      else .stopped idx emptyVisits

/-- Relink every entry of the old bucket into `ht1`. -/
def migrate (hash : Bytes → Nat) : Chain → Table → Exec Table
  | [], ht1 => pure ht1
  | entry :: oldBucket, ht1 => do
      let newIdx ← modSize (hash entry.1) ht1.length
      let head ← at? ht1 newIdx
      migrate hash oldBucket (ht1.set newIdx (entry :: head))

/-- The outer loop of `rehash_step`, on the value of `n` before `n--`. -/
def rehashLoop (hash : Bytes → Nat) : Nat → Nat → Dict → Exec (Int × Dict)
  | 0, _, d => pure (1, d)
  | n + 1, emptyVisits, d =>
      if d.used > 0 then do
        let rest ← bucketsFrom d.ht0 d.rehashidx
        match skipEmpty (10 * n) rest d.rehashidx emptyVisits with
        | .spent idx => pure (1, { d with rehashidx := idx })
        | .stopped idx emptyVisits =>
            if idx ≥ d.ht0.length then
              pure (0, { d with ht0 := d.ht1, ht1 := [], rehashidx := -1 })
            else do
              let oldBucket ← at? d.ht0 idx.toNat
              let ht1 ← migrate hash oldBucket d.ht1
              rehashLoop hash n emptyVisits
                { d with ht0 := d.ht0.set idx.toNat [], ht1 := ht1, rehashidx := idx + 1 }
      else pure (1, d)

/-- `Dict::rehash_step`, for `n ≥ 0` with `10 * n` within `int`. -/
def rehashStep (hash : Bytes → Nat) (n : Nat) (d : Dict) : Exec (Int × Dict) :=
  if !d.isRehashing then pure (0, d)
  else if d.ht0 = [] then pure (0, { d with rehashidx := -1 })
  else rehashLoop hash n 0 d

/-- `Dict::try_rehash_for_ms`, in batches of 100 buckets.  The clock reaches the
deadline behind batch number `deadline`, counted from 0. -/
def tryRehashForMs (hash : Bytes → Nat) : Nat → Dict → Exec Dict
  | deadline, d =>
      if d.isRehashing then do
        let (_, d) ← rehashStep hash 100 d
        match deadline with
        | 0 => pure d
        | deadline + 1 => tryRehashForMs hash deadline d
      else pure d

/-- The bucket that `set_field` and `del_field` migrate first. -/
def advance (hash : Bytes → Nat) (d : Dict) : Exec Dict :=
  if d.isRehashing then do
    let (_, d) ← rehashStep hash 1 d
    pure d
  else pure d

/-! ## Fields -/

def hashKey (hash : Bytes → Nat) (key : Bytes) (d : Dict) : Exec Nat :=
  modSize (hash key) d.ht0.length

def expandIfNeeded (d : Dict) : Dict :=
  if d.isRehashing then d
  else if d.ht0 = [] then d
  else if d.used ≥ d.ht0.length then
    { d with ht1 := resize d.ht1 (d.ht0.length * 2), rehashidx := 0 }
  else d

def shrinkIfNeeded (d : Dict) : Dict :=
  if d.isRehashing then d
  else if d.ht0.length ≤ INIT_HT_SIZE then d
  else if toSizeT (d.used * 100) / d.ht0.length < HASHTABLE_MIN_FILL then
    { d with ht1 := resize d.ht1 (max INIT_HT_SIZE (d.ht0.length / 2)), rehashidx := 0 }
  else d

/-- `Dict::set_field`.  Only `ht0` is searched and only `ht0` is written, also
while a rehash is in progress. -/
def setField (hash : Bytes → Nat) (key value : Bytes) (d : Dict) : Exec Dict := do
  let d ← advance hash d
  let idx ← hashKey hash key d
  let head ← at? d.ht0 idx
  match assign key value head with
  | some head => pure { d with ht0 := d.ht0.set idx head }
  | none =>
      pure (expandIfNeeded
        { d with ht0 := d.ht0.set idx ((key, value) :: head), used := d.used + 1 })

/-- One table's turn in the loop of `get_field`. -/
def lookupIn (hash : Bytes → Nat) (key : Bytes) (ht : Table) : Exec (Option Bytes) :=
  if ht = [] then pure none
  else do
    let idx ← modSize (hash key) ht.length
    let head ← at? ht idx
    pure (head.lookup key)

/-- `Dict::get_field`: `ht1` has its turn when a rehash is in progress, or when
`continue` skipped an empty `ht0`. -/
def getField (hash : Bytes → Nat) (key : Bytes) (d : Dict) : Exec (Option Bytes) := do
  match ← lookupIn hash key d.ht0 with
  | some value => pure (some value)
  | none => if d.ht0 = [] ∨ d.isRehashing then lookupIn hash key d.ht1 else pure none

/-- One table's turn in the loop of `del_field`: the table without the entry. -/
def unlinkIn (hash : Bytes → Nat) (key : Bytes) (ht : Table) : Exec (Option Table) :=
  if ht = [] then pure none
  else do
    let idx ← modSize (hash key) ht.length
    let head ← at? ht idx
    pure ((unlink key head).map (ht.set idx ·))

/-- `Dict::del_field`. -/
def delField (hash : Bytes → Nat) (key : Bytes) (d : Dict) : Exec (Bool × Dict) := do
  let d ← advance hash d
  match ← unlinkIn hash key d.ht0 with
  | some ht0 => pure (true, shrinkIfNeeded { d with ht0 := ht0, used := d.used - 1 })
  | none =>
      if d.ht0 = [] ∨ d.isRehashing then
        match ← unlinkIn hash key d.ht1 with
        | some ht1 => pure (true, shrinkIfNeeded { d with ht1 := ht1, used := d.used - 1 })
        | none => pure (false, d)
      else pure (false, d)

/-- `Dict::get_all`; `reserve` refuses a length above the vector's limit, which
a negative `used_` becomes. -/
def getAll (d : Dict) : Exec (List HashEntry) :=
  if d.used < 0 then throw (.exception (bytes "vector::reserve"))
  else pure (d.ht0.flatten ++ d.ht1.flatten)

end Dict

end MiniRedis
