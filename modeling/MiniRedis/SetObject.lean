import MiniRedis.HashObject
import MiniRedis.Intset
import MiniRedis.Protocol

/-!
`SetObject`: an intset as long as every member is an integer and they are few, a
set of strings from then on.  In an intset a member is known by its value, in a
string set by its spelling.
-/

namespace MiniRedis

/-- `std::unordered_set<std::string>`. -/
structure StrSet where
  elems : List Bytes
  nodup : elems.Nodup
  deriving DecidableEq, Repr

namespace StrSet

def empty : StrSet := ⟨[], List.nodup_nil⟩

/-- `insert(member)`: whether it was new. -/
def insert (member : Bytes) (s : StrSet) : Bool × StrSet :=
  if h : s.elems.contains member then (false, s)
  else (true, ⟨member :: s.elems, List.nodup_cons.mpr ⟨by simpa using h, s.nodup⟩⟩)

/-- `erase(member)`: whether it was there. -/
def erase (member : Bytes) (s : StrSet) : Bool × StrSet :=
  (s.elems.contains member, ⟨s.elems.erase member, s.nodup.erase member⟩)

/-- One order in which a range-for over an unordered set visits it. -/
structure Iteration where
  visit : StrSet → List Bytes
  perm : ∀ s, (visit s).Perm s.elems

/-- The order in which the model keeps the elements. -/
def Iteration.stored : Iteration := ⟨elems, fun _ => .refl _⟩

end StrSet

/-- The variant `storage_` of a set. -/
inductive SetStorage where
  | intset (is : Intset)
  | strset (ss : StrSet)
  deriving DecidableEq, Repr

/-- `SetObject.hpp`'s `ObjectEncoding`. -/
inductive SetEncoding where
  | INTSET
  | STRSET
  deriving DecidableEq, Repr

structure SetObject where
  encoding : SetEncoding
  storage : SetStorage
  deriving DecidableEq, Repr

namespace SetObject

open HashObject (badVariantAccess)
open RespParser (IsSpace)

def INTSET_MAX_ENTRIES : Nat := 512

/-- `SetObject::SetObject`. -/
def new : SetObject := ⟨.INTSET, .intset []⟩

def getIntset (o : SetObject) : Exec Intset :=
  match o.storage with
  | .intset is => pure is
  | .strset _ => throw badVariantAccess

def getStrset (o : SetObject) : Exec StrSet :=
  match o.storage with
  | .intset _ => throw badVariantAccess
  | .strset ss => pure ss

/-! ## Integers -/

def INT64_MIN : Int := -2 ^ 63
def INT64_MAX : Int := 2 ^ 63 - 1

/-- An optional sign: its factor, its length and what is behind it. -/
def takeSign : Bytes → Int × Nat × Bytes
  | 45 :: s => (-1, 1, s)
  | 43 :: s => (1, 1, s)
  | s => (1, 0, s)

/-- `std::strtoll(s, &end, 10)`: the value, `end - s`, and whether `errno` is
`ERANGE`.  The terminating NUL of the string ends the digits as any other byte. -/
def strtoll (s : Bytes) : Int × Nat × Bool :=
  let spaces := s.takeWhile fun b => decide (IsSpace b)
  let (sign, signLen, rest) := takeSign (s.dropWhile fun b => decide (IsSpace b))
  let digits := rest.takeWhile fun b => decide (Decimal.IsDigit b)
  if digits = [] then (0, 0, false)
  else
    let stop := spaces.length + signLen + digits.length
    let v := sign * (Decimal.scan digits 0 : Nat)
    if v < INT64_MIN then (INT64_MIN, stop, true)
    else if v > INT64_MAX then (INT64_MAX, stop, true)
    else (v, stop, false)

/-- `SetObject::tryParseInt`. -/
def tryParseInt (s : Bytes) : Option Int :=
  match s with
  | [] => none
  | c :: rest =>
      if (c = 43 ∨ c = 45) ∧ rest = [] then none
      else
        let digits := if c = 43 ∨ c = 45 then rest else s
        if ¬ digits.all fun b => decide (Decimal.IsDigit b) then none
        else
          let (val, stop, erange) := strtoll s
          if erange ∨ stop ≠ s.length then none
          else if val < INT64_MIN ∨ val > INT64_MAX then none
          else some val

/-! ## Promotion -/

def shouldUseIntset (o : SetObject) : Exec Bool :=
  if o.encoding ≠ .INTSET then pure false
  else do
    let is ← o.getIntset
    pure (decide (is.size < INTSET_MAX_ENTRIES))

/-- The loop of `promote_to_strset`. -/
def emplaceAll : Intset → StrSet → StrSet
  | [], newSet => newSet
  | v :: is, newSet => emplaceAll is (newSet.insert (RespParser.toString v)).2

def promoteToStrset (o : SetObject) : Exec SetObject :=
  if o.encoding ≠ .INTSET then pure o
  else do
    let is ← o.getIntset
    pure ⟨.STRSET, .strset (emplaceAll is .empty)⟩

/-! ## Operations -/

/-- `get_strset().insert(member).second`. -/
def insertString (member : Bytes) (o : SetObject) : Exec (Bool × SetObject) := do
  let ss ← o.getStrset
  let (b, ss) := ss.insert member
  pure (b, { o with storage := .strset ss })

def add (member : Bytes) (o : SetObject) : Exec (Bool × SetObject) :=
  if o.encoding = .INTSET then
    match tryParseInt member with
    | some intval => do
        if ← o.shouldUseIntset then do
          let is ← o.getIntset
          let (b, is) := Intset.insert intval is
          pure (b, { o with storage := .intset is })
        else do
          let o ← o.promoteToStrset
          o.insertString member
    | none => do
        let o ← o.promoteToStrset
        o.insertString member
  else o.insertString member

def remove (member : Bytes) (o : SetObject) : Exec (Bool × SetObject) :=
  if o.encoding = .INTSET then
    match tryParseInt member with
    | some intval => do
        let is ← o.getIntset
        let (b, is) := Intset.erase intval is
        pure (b, { o with storage := .intset is })
    | none => pure (false, o)
  else do
    let ss ← o.getStrset
    let (b, ss) := ss.erase member
    pure (b, { o with storage := .strset ss })

def contains (member : Bytes) (o : SetObject) : Exec Bool :=
  if o.encoding = .INTSET then
    match tryParseInt member with
    | some intval => do
        let is ← o.getIntset
        pure (Intset.contains intval is)
    | none => pure false
  else do
    let ss ← o.getStrset
    pure (ss.elems.contains member)

def size (o : SetObject) : Exec Nat :=
  if o.encoding = .INTSET then do
    let is ← o.getIntset
    pure is.size
  else do
    let ss ← o.getStrset
    pure ss.elems.length

/-- `members`, for one order of the unordered set. -/
def members (order : StrSet.Iteration) (o : SetObject) : Exec (List Bytes) :=
  if o.encoding = .INTSET then do
    let is ← o.getIntset
    pure (is.map RespParser.toString)
  else do
    let ss ← o.getStrset
    pure (order.visit ss)

end SetObject

end MiniRedis
