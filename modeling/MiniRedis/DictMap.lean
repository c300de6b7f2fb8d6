import MiniRedis.DictFields
import MiniRedis.Lib.Run

/-!
`Dict` as a finite map.  The calls a client of `Dict` can make are run from a
fresh Dict and compared with a plain partial function; the answers of `get_all`
are compared as listings.  Every run in which each `set_field` addresses an
unmigrated bucket behaves as the map, whatever the hash, and a run that writes
behind the migration does not.
-/

namespace MiniRedis.Dict

open AssocList

variable {hash : Bytes → Nat}

inductive Op where
  | set (key value : Bytes)
  | del (key : Bytes)
  | get (key : Bytes)
  | getAll
  | size
  | rehash (n : Nat)
  deriving DecidableEq, Repr

inductive Answer where
  | done
  | found (b : Bool)
  | value (v : Option Bytes)
  | listed (all : List HashEntry)
  | count (n : Nat)
  deriving DecidableEq, Repr

/-- One call on a Dict. -/
def step (hash : Bytes → Nat) : Op → Dict → Exec (Answer × Dict)
  | .set key value, d => do
      let d ← setField hash key value d
      pure (.done, d)
  | .del key, d => do
      let (b, d) ← delField hash key d
      pure (.found b, d)
  | .get key, d => do
      let v ← Dict.getField hash key d
      pure (.value v, d)
  | .getAll, d => do
      let all ← Dict.getAll d
      pure (.listed all, d)
  | .size, d => pure (.count d.size, d)
  | .rehash n, d => do
      let (_, d) ← rehashStep hash n d
      pure (.done, d)

/-- What the plain map becomes. -/
def mapNext (m : Bytes → Option Bytes) : Op → Bytes → Option Bytes
  | .set key value => Function.update m key (some value)
  | .del key => Function.update m key none
  | .get _ | .getAll | .size | .rehash _ => m

/-- What the plain map answers. -/
def mapAnswers (m : Bytes → Option Bytes) : Op → Answer → Prop
  | .set _ _, r => r = .done
  | .del key, r => r = .found (m key).isSome
  | .get key, r => r = .value (m key)
  | .getAll, r => ∃ all, r = .listed all ∧ Lists m all
  | .size, r => r = .count (Set.ncard {k | m k ≠ none})
  | .rehash _, r => r = .done

/-- The run of `ops` on a fresh Dict answers as the plain map does. -/
def BehavesAsMap (hash : Bytes → Nat) (ops : List Op) : Prop :=
  ∃ answers d, Run.run (step hash) ops new = .ok (answers, d) ∧
    Run.Admits mapNext mapAnswers (fun _ => none) ops answers

/-- The condition on one call: a `set_field` is unmigrated. -/
def OpUnmigrated (hash : Bytes → Nat) (d : Dict) : Op → Prop
  | .set key _ => Unmigrated hash d key
  | .del _ | .get _ | .getAll | .size | .rehash _ => True

instance (d : Dict) : (op : Op) → Decidable (OpUnmigrated hash d op)
  | .set key _ => inferInstanceAs (Decidable (Unmigrated hash d key))
  | .del _ | .get _ | .getAll | .size | .rehash _ => .isTrue trivial

/-- The Dict `d` is well-formed and stores the map `m`. -/
structure Stores (hash : Bytes → Nat) (d : Dict) (m : Bytes → Option Bytes) : Prop where
  wellFormed : WellFormed hash d
  ahead : Ahead hash d
  lookup : (fun k => d.entries.lookup k) = m

theorem new_stores : Stores hash new (fun _ => none) :=
  ⟨new_wellFormed, ahead_of_idle rfl, rfl⟩

theorem Stores.lists {d : Dict} {m : Bytes → Option Bytes} (h : Stores hash d m) :
    Lists m d.entries :=
  h.lookup ▸ lists_lookup h.wellFormed.nodup

theorem Stores.setField {d : Dict} {m : Bytes → Option Bytes} (h : Stores hash d m)
    {key : Bytes} (value : Bytes) (hu : Unmigrated hash d key) :
    ∃ d', Dict.setField hash key value d = .ok d' ∧
      Stores hash d' (Function.update m key (some value)) := by
  obtain ⟨d', hrun, hw, ha, hl⟩ := h.wellFormed.setField h.ahead value hu
  exact ⟨d', hrun, hw, ha, by rw [hl, h.lookup]⟩

theorem Stores.rehashStep {d : Dict} {m : Bytes → Option Bytes} (h : Stores hash d m) (n : Nat) :
    ∃ r d', Dict.rehashStep hash n d = .ok (r, d') ∧ Stores hash d' m := by
  cases hr : d.isRehashing with
  | false => exact ⟨0, d, rehashStep_idle hr, h⟩
  | true =>
    obtain ⟨⟨r, d'⟩, hrun, hout⟩ := rehashStep_outcome hash n h.wellFormed.toSane hr
    obtain ⟨hw, hp⟩ := hout.wellFormed h.wellFormed
    refine ⟨r, d', hrun, hw, hout.ahead h.wellFormed h.ahead, ?_⟩
    rw [← h.lookup]
    exact funext fun k => lookup_perm hw.nodup hp k

theorem Stores.delField {d : Dict} {m : Bytes → Option Bytes} (h : Stores hash d m)
    (key : Bytes) :
    ∃ d', Dict.delField hash key d = .ok ((m key).isSome, d') ∧
      Stores hash d' (Function.update m key none) := by
  obtain ⟨b, d', hrun, hw, ha, hb, hl, _⟩ := h.wellFormed.delField key
  have hlook : d.entries.lookup key = m key := congrFun h.lookup key
  rw [hlook] at hb
  subst hb
  exact ⟨d', hrun, hw, ha h.ahead, by rw [hl, h.lookup]⟩

theorem Stores.tryRehashForMs {d : Dict} {m : Bytes → Option Bytes} (h : Stores hash d m)
    (deadline : Nat) :
    ∃ d', Dict.tryRehashForMs hash deadline d = .ok d' ∧ Stores hash d' m :=
  tryRehashForMs_keeps (fun _ h => h.rehashStep 100) deadline h

/-- One call on a Dict that stores `m` answers as `m` does. -/
theorem step_stores (d : Dict) (m : Bytes → Option Bytes) (op : Op) (h : Stores hash d m)
    (hu : OpUnmigrated hash d op) :
    ∃ a d', step hash op d = .ok (a, d') ∧ mapAnswers m op a ∧ Stores hash d' (mapNext m op) := by
  have hlook : ∀ k, d.entries.lookup k = m k := fun k => congrFun h.lookup k
  cases op with
  | set key value =>
    obtain ⟨d', hrun, hs⟩ := h.setField value hu
    exact ⟨.done, d', by simp [step, hrun], rfl, hs⟩
  | del key =>
    obtain ⟨d', hrun, hs⟩ := h.delField key
    exact ⟨.found (m key).isSome, d', by simp [step, hrun], rfl, hs⟩
  | get key =>
    refine ⟨.value (m key), d, ?_, rfl, h⟩
    simp [step, h.wellFormed.getField, hlook]
  | getAll =>
    exact ⟨.listed d.entries, d, by simp [step, getAll_ok h.wellFormed.toSane],
      ⟨_, rfl, h.lists⟩, h⟩
  | size =>
    refine ⟨.count d.size, d, rfl, ?_, h⟩
    rw [h.wellFormed.size_eq, ← h.lists.ncard]
    rfl
  | rehash n =>
    obtain ⟨r, d', hrun, hs⟩ := h.rehashStep n
    exact ⟨.done, d', by simp [step, hrun], rfl, hs⟩

/-- **`Dict` is a finite map** on every run whose `set_field` calls all address
an unmigrated bucket, for every hash function. -/
theorem run_behaves_as_map (hash : Bytes → Nat) (ops : List Op)
    (hu : Run.Guarded (step hash) (OpUnmigrated hash) new ops) : BehavesAsMap hash ops := by
  obtain ⟨answers, d, hrun, hadm, _⟩ :=
    Run.simulation (fun d m op h hg => step_stores d m op h hg) ops new _ new_stores hu
  exact ⟨answers, d, hrun, hadm⟩

/-- A rehash started by the fourth key, a write ahead of it and a deletion in
the new table. -/
def aheadOps : List Op :=
  [.set [0] [10], .set [1] [11], .set [2] [12], .set [3] [13], .set [3] [14], .del [0], .size]

/-- The first byte as hash. -/
def firstByte (key : Bytes) : Nat := (key.headD 0).toNat

theorem run_behaves_as_map_ahead : BehavesAsMap firstByte aheadOps :=
  run_behaves_as_map firstByte aheadOps (by decide)

/-- Five keys of one bucket: the fifth is written behind the migration and gone
when the tables are swapped. -/
def lostOps : List Op :=
  [.set [0] [10], .set [1] [11], .set [2] [12], .set [3] [13], .set [4] [14], .rehash 10,
    .get [4]]

theorem lost_field_is_no_map : ¬ BehavesAsMap (fun _ => 0) lostOps := by
  rintro ⟨answers, d, hrun, hadm⟩
  have hanswers : (Run.run (step fun _ => 0) lostOps new).map Prod.fst =
      .ok [.done, .done, .done, .done, .done, .done, .value none] := by decide
  rw [hrun] at hanswers
  cases hanswers
  obtain ⟨_, _, _, _, _, _, hget, _⟩ := hadm
  exact absurd (Answer.value.inj hget) (by decide)

end MiniRedis.Dict
