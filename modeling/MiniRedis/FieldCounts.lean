import MiniRedis.HashObjectRuns
import MiniRedis.RdbRoundTrip

/-!
The length a hash declares in a snapshot against the pairs that follow it.  The
count comes from `size()`, the pairs from `get_all_fields()`; they agree as long
as every `set_field` writes behind no migration.
-/

namespace MiniRedis.HashObject

open AssocList RdbEncoder RdbDecoder

variable {hash : Bytes → Nat}

/-- The condition on one call: a `set_field` is unmigrated. -/
def OpUnmigrated (hash : Bytes → Nat) (o : HashObject) : Op → Prop
  | .set field value => SetUnmigrated hash o field value
  | .del _ | .rehash _ => True

instance (o : HashObject) : (op : Op) → Decidable (OpUnmigrated hash o op)
  | .set field value => inferInstanceAs (Decidable (SetUnmigrated hash o field value))
  | .del _ | .rehash _ => .isTrue trivial

/-- What a plain map becomes. -/
def mapNext (m : Bytes → Option Bytes) : Op → Bytes → Option Bytes
  | .set field value => Function.update m field (some value)
  | .del field => Function.update m field none
  | .rehash _ => m

/-- What a plain map answers. -/
def mapAnswers (m : Bytes → Option Bytes) : Op → Option Bool → Prop
  | .del field, a => a = some (m field).isSome
  | .set _ _, a | .rehash _, a => a = none

theorem step_stores (o : HashObject) (m : Bytes → Option Bytes) (op : Op)
    (h : Stores hash o m) (hu : OpUnmigrated hash o op) :
    ∃ a o', step hash op o = .ok (a, o') ∧ mapAnswers m op a ∧ Stores hash o' (mapNext m op) := by
  cases op with
  | set field value =>
    obtain ⟨o', hrun, h'⟩ := h.setField hu
    exact ⟨none, o', by simp [step, hrun], rfl, h'⟩
  | del field =>
    obtain ⟨o', hrun, h'⟩ := h.delField field
    exact ⟨some (m field).isSome, o', by simp [step, hrun], rfl, h'⟩
  | rehash deadline =>
    obtain ⟨o', hrun, h'⟩ := h.tryRehashForMs deadline
    exact ⟨none, o', by simp [step, hrun], rfl, h'⟩

/-- The loader's `set_field` calls always return. -/
theorem setAll_returns (hash : Bytes → Nat) (l : List HashEntry) {o : HashObject} (hs : Safe o) :
    ∃ o', setAll hash l o = .ok o' := by
  induction l generalizing o with
  | nil => exact ⟨o, rfl⟩
  | cons kv l ih =>
    obtain ⟨o₁, hset, hs₁⟩ := hs.setField hash kv.1 kv.2
    obtain ⟨o₂, hall⟩ := ih hs₁
    exact ⟨o₂, by simp [setAll, hset, hall]⟩

/-- The object lists `l`, no field twice, and declares its length; a snapshot
holds the count and as many pairs, and the loader takes exactly these from it,
if every length comes back from the file as it was written. -/
structure Declares (hash : Bytes → Nat) (o : HashObject) (l : List HashEntry) : Prop where
  listed : o.getAllFields = .ok l
  declared : o.size = .ok l.length
  distinct : (keys l).Nodup
  written : ∀ key, writeKeyValuePair (key, .hash o) =
    .put [RDB_TYPE_HASH] ++ writeString key ++ writeLen l.length ++ Emit.forEach writeField l
  readBack : ∀ key, (writeKeyValuePair (key, .hash o)).fault = none → Readable key.length →
    Readable l.length → (∀ kv ∈ l, ReadableField kv) →
    ∃ o', setAll hash l .new = .ok o' ∧ ∀ fuel data s,
      keyValuesLoop hash (fuel + 1) data ((writeKeyValuePair (key, .hash o)).written ++ s) =
        keyValuesLoop hash fuel (emplace key (.hash o') data) s

theorem Stores.declares {o : HashObject} {m : Bytes → Option Bytes} (h : Stores hash o m) :
    Declares hash o o.fields where
  listed := h.safe.getAllFields
  declared := h.size
  distinct := h.lists.1
  written := fun key => by
    simp only [writeKeyValuePair, h.size, h.safe.getAllFields, Emit.call]
  readBack := fun key hok hkey hcount hfields => by
    obtain ⟨o', hset⟩ := setAll_returns hash o.fields new_safe
    exact ⟨o', hset, fun fuel data s => keyValuesLoop_hash h.size h.safe.getAllFields hok hkey
      hcount hfields hset fuel data s⟩

/-- **The declared length matches the body** in every state a run reaches whose
`set_field` calls all write behind no migration. -/
theorem run_declares_fields (hash : Bytes → Nat) (ops : List Op)
    (hu : Run.Guarded (step hash) (OpUnmigrated hash) new ops) :
    ∃ answers o l, Run.run (step hash) ops new = .ok (answers, o) ∧ Declares hash o l := by
  obtain ⟨answers, o, hrun, _, h⟩ := Run.simulation step_stores ops new _ new_stores hu
  exact ⟨answers, o, o.fields, hrun, h.declares⟩

/-- A value too large for a ziplist. -/
def largeValue : Bytes := List.replicate 65 7

/-- Four fields of a table, the fourth of which starts a rehash. -/
def tableOps : List Op :=
  [.set [0] largeValue, .set [1] [1], .set [2] [2], .set [3] [3]]

/-- One field is overwritten ahead of the migration and one is deleted. -/
def aheadOps : List Op := [.set [3] [4], .del [0], .rehash 0]

theorem run_declares_fields_ahead :
    ∃ answers o l, Run.run (step Dict.firstByte) (tableOps ++ aheadOps) new =
      .ok (answers, o) ∧ Declares Dict.firstByte o l :=
  run_declares_fields Dict.firstByte (tableOps ++ aheadOps) (by decide +kernel)

/-- The first field is set again behind the migration. -/
def behindOps : List Op := [.set [0] [5], .rehash 0]

/-- The swap at the end of the rehash leaves four of the five fields counted. -/
theorem declared_length_is_off :
    ¬ ∀ (hash : Bytes → Nat) (ops : List Op),
      ∃ answers o l, Run.run (step hash) ops new = .ok (answers, o) ∧ Declares hash o l := by
  intro h
  obtain ⟨answers, o, l, hrun, hd⟩ := h (fun _ => 0) (tableOps ++ behindOps)
  have hsize : (Run.run (step fun _ => 0) (tableOps ++ behindOps) new >>=
      fun r => r.2.size) = .ok 5 := by
    decide +kernel
  have hlist : (Run.run (step fun _ => 0) (tableOps ++ behindOps) new >>=
      fun r => r.2.getAllFields.map List.length) = .ok 4 := by
    decide +kernel
  rw [hrun, Exec.ok_bind] at hsize hlist
  rw [hd.declared] at hsize
  rw [hd.listed] at hlist
  have hfive := Except.ok.inj hsize
  have hfour : l.length = 4 := Except.ok.inj hlist
  omega

end MiniRedis.HashObject
