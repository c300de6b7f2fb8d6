import Mathlib.Data.Set.Card
import MiniRedis.Lib.Run
import MiniRedis.Lib.SortedList

/-!
`intset`: an ascending vector of integers.  Every operation searches its place by
halving, so all of them rest on the order; the invariant of a run is that order
together with the values the run holds.
-/

namespace MiniRedis

/-- `data_`.  The values are only compared, so their width plays no part. -/
abbrev Intset := List Int

namespace Intset

open SortedList

/-- `binary_search`: whether the value is there, and its place. -/
def binarySearch (value : Int) (data : Intset) : Bool × Nat :=
  let pos := lowerBound value data
  (decide (data[pos]? = some value), pos)

def insert (value : Int) (data : Intset) : Bool × Intset :=
  let (found, pos) := binarySearch value data
  if found then (false, data) else (true, data.take pos ++ value :: data.drop pos)

def erase (value : Int) (data : Intset) : Bool × Intset :=
  let (found, pos) := binarySearch value data
  if found then (true, data.eraseIdx pos) else (false, data)

def contains (value : Int) (data : Intset) : Bool := (binarySearch value data).1

def size (data : Intset) : Nat := data.length

/-! ## One call -/

variable {data : Intset}

theorem binarySearch_found (hd : Ascending data) (v : Int) :
    (binarySearch v data).1 = true ↔ v ∈ data := by
  rw [binarySearch, decide_eq_true_iff]
  exact (lowerBound_window hd v).found hd

theorem contains_iff (hd : Ascending data) (v : Int) : contains v data = true ↔ v ∈ data :=
  binarySearch_found hd v

/-- A value that is there already changes nothing. -/
theorem insert_present (hd : Ascending data) {v : Int} (hv : v ∈ data) :
    insert v data = (false, data) := by
  rw [insert]
  simp only [(binarySearch_found hd v).mpr hv, ↓reduceIte]

theorem insert_absent (hd : Ascending data) {v : Int} (hv : v ∉ data) :
    ∃ data', insert v data = (true, data') ∧ Ascending data' ∧ data'.length = data.length + 1 ∧
      ∀ x, x ∈ data' ↔ x = v ∨ x ∈ data := by
  have hw := lowerBound_window hd v
  have hfound : ¬ (binarySearch v data).1 = true := mt (binarySearch_found hd v).mp hv
  refine ⟨data.take (lowerBound v data) ++ v :: data.drop (lowerBound v data), ?_,
    hw.insert hd hv, ?_, mem_insert⟩
  · rw [insert]
    simp only [hfound]
    rfl
  · have hfits := hw.fits
    simp only [List.length_append, List.length_take, List.length_cons, List.length_drop]
    omega

theorem erase_absent (hd : Ascending data) {v : Int} (hv : v ∉ data) :
    erase v data = (false, data) := by
  have hfound : ¬ (binarySearch v data).1 = true := mt (binarySearch_found hd v).mp hv
  rw [erase]
  simp only [hfound]
  rfl

theorem erase_present (hd : Ascending data) {v : Int} (hv : v ∈ data) :
    ∃ data', erase v data = (true, data') ∧ Ascending data' ∧ data'.length + 1 = data.length ∧
      ∀ x, x ∈ data' ↔ x ∈ data ∧ x ≠ v := by
  have hat := ((lowerBound_window hd v).found hd).mpr hv
  obtain ⟨hlt, _⟩ := List.getElem?_eq_some_iff.mp hat
  refine ⟨data.eraseIdx (lowerBound v data), ?_, hd.erase _, ?_, hd.mem_erase hat⟩
  · rw [erase]
    simp only [(binarySearch_found hd v).mpr hv, ↓reduceIte]
    rfl
  · rw [List.length_eraseIdx_of_lt hlt]
    omega

/-! ## Runs -/

inductive Op where
  | insert (value : Int)
  | erase (value : Int)
  deriving DecidableEq, Repr

def apply (data : Intset) : Op → Intset
  | .insert value => (insert value data).2
  | .erase value => (erase value data).2

/-- The set after a run from the empty one. -/
def after (ops : List Op) : Intset := ops.foldl apply []

/-- The value was inserted, and has not been erased since. -/
def Held (ops : List Op) (v : Int) : Prop := Run.Since (· = .insert v) (· = .erase v) ops

theorem held_insert {ops : List Op} {w v : Int} :
    Held (ops ++ [.insert w]) v ↔ v = w ∨ Held ops v := by
  rw [Held, Run.since_append]
  simp [Held, eq_comm]

theorem held_erase {ops : List Op} {w v : Int} :
    Held (ops ++ [.erase w]) v ↔ Held ops v ∧ v ≠ w := by
  rw [Held, Run.since_append]
  simp [Held, eq_comm]

/-- The data are ascending and hold what the run holds. -/
structure Holds (ops : List Op) (data : Intset) : Prop where
  ascending : Ascending data
  held : ∀ v, v ∈ data ↔ Held ops v

theorem Holds.apply {ops : List Op} (h : Holds ops data) (op : Op) :
    Holds (ops ++ [op]) (apply data op) := by
  have hd := h.ascending
  cases op with
  | insert w =>
    by_cases hw : w ∈ data
    · rw [Intset.apply, insert_present hd hw]
      refine ⟨hd, fun v => ?_⟩
      rw [held_insert, ← h.held]
      exact ⟨Or.inr, fun hv => hv.elim (fun heq => heq ▸ hw) id⟩
    · obtain ⟨data', hrun, hd', _, hmem⟩ := insert_absent hd hw
      rw [Intset.apply, hrun]
      refine ⟨hd', fun v => ?_⟩
      rw [held_insert, ← h.held]
      exact hmem v
  | erase w =>
    by_cases hw : w ∈ data
    · obtain ⟨data', hrun, hd', _, hmem⟩ := erase_present hd hw
      rw [Intset.apply, hrun]
      refine ⟨hd', fun v => ?_⟩
      rw [held_erase, ← h.held]
      exact hmem v
    · rw [Intset.apply, erase_absent hd hw]
      refine ⟨hd, fun v => ?_⟩
      rw [held_erase, ← h.held]
      exact ⟨fun hv => ⟨hv, fun heq => hw (heq ▸ hv)⟩, fun hv => hv.1⟩

theorem holds_after (ops : List Op) : Holds ops (after ops) := by
  induction ops using List.reverseRecOn with
  | nil =>
    refine ⟨List.Pairwise.nil, fun v => ?_⟩
    exact iff_of_false (by simp [after]) Run.not_since_nil
  | append_singleton ops op ih =>
    rw [after, List.foldl_append, List.foldl_cons, List.foldl_nil]
    exact ih.apply op

/-- **An intset is ascending and a set.**  After every run from the empty set the
data are ascending; a search, an insertion and a deletion answer by what the run
holds; and the size counts it. -/
theorem run_is_ascending_set (ops : List Op) :
    Ascending (after ops) ∧
      (∀ v, (contains v (after ops) = true ↔ Held ops v) ∧
        ((insert v (after ops)).1 = true ↔ ¬ Held ops v) ∧
        ((erase v (after ops)).1 = true ↔ Held ops v)) ∧
      size (after ops) = {v | Held ops v}.ncard := by
  obtain ⟨hd, hheld⟩ := holds_after ops
  refine ⟨hd, fun v => ⟨?_, ?_, ?_⟩, ?_⟩
  · rw [contains_iff hd, hheld]
  · rw [← hheld]
    by_cases hv : v ∈ after ops
    · simp [insert_present hd hv, hv]
    · obtain ⟨_, hrun, _⟩ := insert_absent hd hv
      simp [hrun, hv]
  · rw [← hheld]
    by_cases hv : v ∈ after ops
    · obtain ⟨_, hrun, _⟩ := erase_present hd hv
      simp [hrun, hv]
    · simp [erase_absent hd hv, hv]
  · have hset : {v | Held ops v} = ((after ops).toFinset : Set Int) := by
      ext v
      simp [hheld]
    have hnodup : (after ops).Nodup := hd.imp ne_of_lt
    rw [hset, Set.ncard_coe_finset, List.toFinset_card_of_nodup hnodup, size]

end Intset

end MiniRedis
