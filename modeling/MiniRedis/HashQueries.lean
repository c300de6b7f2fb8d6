import MiniRedis.FieldCounts

/-!
Runs of a hash object with its queries.  In either encoding and across a
promotion they are answered as a plain map answers them, as long as every
`set_field` writes behind no migration.
-/

namespace MiniRedis

open AssocList

variable {hash : Bytes → Nat}

def HashObject.exists (hash : Bytes → Nat) (field : Bytes) (o : HashObject) : Exec Bool :=
  if o.encoding = .ZIPLIST then do
    let zl ← o.getZiplist
    pure (zl.lookup field).isSome
  else do
    let d ← o.getHashtable
    let v ← d.getField hash field
    pure v.isSome

namespace HashObject

/-! ## Calls -/

inductive Call where
  | update (op : Op)
  | get (field : Bytes)
  | exist (field : Bytes)
  | size
  | getAll

inductive Answer where
  /-- What `del_field` returns, if it was called. -/
  | updated (found : Option Bool)
  | value (v : Option Bytes)
  | found (b : Bool)
  | count (n : Nat)
  | listed (all : List HashEntry)

def callStep (hash : Bytes → Nat) : Call → HashObject → Exec (Answer × HashObject)
  | .update op, o => do
      let (found, o) ← step hash op o
      pure (.updated found, o)
  | .get field, o => do
      let v ← o.getField hash field
      pure (.value v, o)
  | .exist field, o => do
      let b ← o.exists hash field
      pure (.found b, o)
  | .size, o => do
      let n ← o.size
      pure (.count n, o)
  | .getAll, o => do
      let all ← o.getAllFields
      pure (.listed all, o)

def CallUnmigrated (hash : Bytes → Nat) (o : HashObject) : Call → Prop
  | .update op => OpUnmigrated hash o op
  | .get _ | .exist _ | .size | .getAll => True

instance (o : HashObject) : (call : Call) → Decidable (CallUnmigrated hash o call)
  | .update op => inferInstanceAs (Decidable (OpUnmigrated hash o op))
  | .get _ | .exist _ | .size | .getAll => .isTrue trivial

/-! ## The plain map -/

def callNext (m : Bytes → Option Bytes) : Call → Bytes → Option Bytes
  | .update op => mapNext m op
  | .get _ | .exist _ | .size | .getAll => m

/-- The answers of a plain map; a listing has no fixed order. -/
def callAnswers (m : Bytes → Option Bytes) : Call → Answer → Prop
  | .update op, a => ∃ found, a = .updated found ∧ mapAnswers m op found
  | .get field, a => a = .value (m field)
  | .exist field, a => a = .found (m field).isSome
  | .size, a => a = .count (Set.ncard {k | m k ≠ none})
  | .getAll, a => ∃ all, a = .listed all ∧ Lists m all

theorem Stores.exists {o : HashObject} {m : Bytes → Option Bytes} (h : Stores hash o m)
    (field : Bytes) : HashObject.exists hash field o = .ok (m field).isSome := by
  have hget := h.getField field
  cases h with
  | ziplist _ => rfl
  | @hashtable d _ hd =>
    have hd' : Dict.getField hash field d = .ok (m field) := by
      simpa [HashObject.getField, getHashtable] using hget
    simp [HashObject.exists, getHashtable, hd']

theorem callStep_stores (o : HashObject) (m : Bytes → Option Bytes) (call : Call)
    (h : Stores hash o m) (hu : CallUnmigrated hash o call) :
    ∃ a o', callStep hash call o = .ok (a, o') ∧ callAnswers m call a ∧
      Stores hash o' (callNext m call) := by
  cases call with
  | update op =>
    obtain ⟨found, o', hrun, hans, h'⟩ := step_stores o m op h hu
    exact ⟨.updated found, o', by simp [callStep, hrun], ⟨found, rfl, hans⟩, h'⟩
  | get field => exact ⟨_, o, by rw [callStep, h.getField field]; rfl, rfl, h⟩
  | exist field => exact ⟨_, o, by rw [callStep, h.exists field]; rfl, rfl, h⟩
  | size =>
    refine ⟨_, o, by rw [callStep, h.size]; rfl, ?_, h⟩
    rw [callAnswers, h.lists.ncard]
  | getAll => exact ⟨_, o, by rw [callStep, h.safe.getAllFields]; rfl, ⟨_, rfl, h.lists⟩, h⟩

/-- **A hash object is a finite map** in every run of updates, rehashes and queries
whose `set_field` calls write behind no migration, whatever the hash function.
A promotion meets the condition where it builds a table of at most seven pairs:
the eighth is always written behind the migration that the fourth starts. -/
theorem run_is_plain_map (hash : Bytes → Nat) (calls : List Call)
    (hu : Run.Guarded (callStep hash) (CallUnmigrated hash) new calls) :
    ∃ answers o, Run.run (callStep hash) calls new = .ok (answers, o) ∧
      Run.Admits callNext callAnswers (fun _ => none) calls answers ∧
      Stores hash o (calls.foldl callNext fun _ => none) :=
  Run.simulation callStep_stores calls new (fun _ => none) new_stores hu

/-- A promotion, a rehash that is under way, and queries on both sides of them. -/
def promotedCalls : List Call :=
  [.update (.set [1] [7]), .get [1], .update (.set [0] largeValue), .exist [1],
    .update (.set [2] [2]), .update (.set [3] [3]), .update (.set [3] [4]), .size,
    .update (.del [0]), .get [3], .update (.rehash 0), .exist [0], .getAll]

theorem run_is_plain_map_promoted :
    ∃ answers o, Run.run (callStep Dict.firstByte) promotedCalls new = .ok (answers, o) ∧
      Run.Admits callNext callAnswers (fun _ => none) promotedCalls answers ∧
      Stores Dict.firstByte o (promotedCalls.foldl callNext fun _ => none) :=
  run_is_plain_map Dict.firstByte promotedCalls (by decide +kernel)

end HashObject

end MiniRedis
