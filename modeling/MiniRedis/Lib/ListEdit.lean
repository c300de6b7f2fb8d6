import Mathlib.Data.List.Basic
import Mathlib.Logic.Function.Iterate

/-!
Editing a list: taking out occurrences of a value from the front or from the
back, and keeping the elements at some of the positions.
-/

namespace ListEdit

universe u

variable {α : Type u}

/-! ## Occurrences -/

section Occurrences

variable [BEq α]

/-- Without the first `n` occurrences of `v`. -/
def eraseFirst (v : α) (n : Nat) (l : List α) : List α := (fun l => l.erase v)^[n] l

/-- Without the last `n` occurrences of `v`. -/
def eraseLast (v : α) (n : Nat) (l : List α) : List α := (eraseFirst v n l.reverse).reverse

theorem eraseFirst_zero (v : α) (l : List α) : eraseFirst v 0 l = l := rfl

theorem eraseLast_zero (v : α) (l : List α) : eraseLast v 0 l = l := List.reverse_reverse l

theorem eraseFirst_nil (v : α) (n : Nat) : eraseFirst v n [] = [] := by
  induction n with
  | zero => rfl
  | succ n ih => exact ih

theorem eraseFirst_sublist (v : α) (n : Nat) (l : List α) : (eraseFirst v n l).Sublist l := by
  induction n generalizing l with
  | zero => exact .refl l
  | succ n ih => exact (ih (l.erase v)).trans List.erase_sublist

theorem eraseLast_sublist (v : α) (n : Nat) (l : List α) : (eraseLast v n l).Sublist l := by
  have h := (eraseFirst_sublist v n l.reverse).reverse
  rwa [List.reverse_reverse] at h

variable [LawfulBEq α]

theorem eraseFirst_cons_self (v : α) (n : Nat) (l : List α) :
    eraseFirst v (n + 1) (v :: l) = eraseFirst v n l := by
  rw [eraseFirst, Function.iterate_succ_apply, List.erase_cons_head]
  rfl

theorem eraseFirst_cons_ne {v x : α} (h : x ≠ v) (n : Nat) (l : List α) :
    eraseFirst v n (x :: l) = x :: eraseFirst v n l := by
  induction n generalizing l with
  | zero => rfl
  | succ n ih =>
    have hbeq : ¬ (x == v) = true := by simpa using h
    rw [eraseFirst, Function.iterate_succ_apply, List.erase_cons_tail hbeq]
    exact ih (l.erase v)

theorem eraseLast_concat_self (v : α) (n : Nat) (l : List α) :
    eraseLast v (n + 1) (l ++ [v]) = eraseLast v n l := by
  rw [eraseLast, List.reverse_append, List.reverse_singleton, List.singleton_append,
    eraseFirst_cons_self]
  rfl

theorem eraseLast_concat_ne {v x : α} (h : x ≠ v) (n : Nat) (l : List α) :
    eraseLast v n (l ++ [x]) = eraseLast v n l ++ [x] := by
  rw [eraseLast, List.reverse_append, List.reverse_singleton, List.singleton_append,
    eraseFirst_cons_ne h, List.reverse_cons]
  rfl

/-- With every occurrence gone, what is left is what differs from `v`. -/
theorem eraseFirst_all (v : α) (l : List α) :
    eraseFirst v (l.count v) l = l.filter fun x => x != v := by
  induction l with
  | nil => exact eraseFirst_nil v 0
  | cons x l ih =>
    by_cases hx : x = v
    · rw [hx, List.count_cons_self, eraseFirst_cons_self, ih,
        List.filter_cons_of_neg (by simp)]
    · rw [List.count_cons_of_ne hx, eraseFirst_cons_ne hx, ih,
        List.filter_cons_of_pos (by simpa using hx)]

end Occurrences

/-! ## Positions -/

/-- The elements at the positions that satisfy `p`, in their order. -/
def select (p : Nat → Prop) [DecidablePred p] (l : List α) : List α :=
  (l.zipIdx.filter fun x => decide (p x.2)).map Prod.fst

theorem select_sublist (p : Nat → Prop) [DecidablePred p] (l : List α) :
    (select p l).Sublist l := by
  have h : (select p l).Sublist (l.zipIdx.map Prod.fst) := List.filter_sublist.map Prod.fst
  rwa [List.zipIdx_map_fst] at h

theorem zipIdx_filter_range {p : Nat → Prop} [DecidablePred p] (first last : Nat) (l : List α)
    (k : Nat) (hp : ∀ i, k ≤ i → i < k + l.length → (p i ↔ first ≤ i ∧ i < last)) :
    ((l.zipIdx k).filter fun x => decide (p x.2)).map Prod.fst =
      (l.take (last - k)).drop (first - k) := by
  induction l generalizing k with
  | nil => simp
  | cons x l ih =>
    have hk := hp k (by omega) (by simp)
    have ih := ih (k + 1) fun i hi hlt => hp i (by omega) (by rw [List.length_cons]; omega)
    rw [List.zipIdx_cons]
    by_cases hin : p k
    · obtain ⟨hfirst, hlast⟩ := hk.mp hin
      rw [List.filter_cons_of_pos (by simpa using hin), List.map_cons, ih,
        show last - k = last - (k + 1) + 1 by omega, List.take_succ_cons,
        show first - k = 0 by omega, show first - (k + 1) = 0 by omega]
      rfl
    · rw [List.filter_cons_of_neg (by simpa using hin), ih]
      rcases Nat.lt_or_ge k last with hlast | hlast
      · have hfirst : ¬ first ≤ k := fun hfirst => hin (hk.mpr ⟨hfirst, hlast⟩)
        rw [show last - k = last - (k + 1) + 1 by omega, List.take_succ_cons,
          show first - k = first - (k + 1) + 1 by omega, List.drop_succ_cons]
      · rw [show last - k = 0 by omega, show last - (k + 1) = 0 by omega, List.take_zero,
          List.take_zero, List.drop_nil, List.drop_nil]

/-- The positions from `first` up to `last` are a prefix of a suffix. -/
theorem select_range {p : Nat → Prop} [DecidablePred p] (first last : Nat) {l : List α}
    (hp : ∀ i < l.length, (p i ↔ first ≤ i ∧ i < last)) :
    select p l = (l.drop first).take (last - first) := by
  have h := zipIdx_filter_range first last l 0
    fun i _ hi => hp i (by omega)
  rw [select, h, Nat.sub_zero, Nat.sub_zero, List.drop_take]

theorem select_none {p : Nat → Prop} [DecidablePred p] {l : List α}
    (hp : ∀ i < l.length, ¬ p i) : select p l = [] := by
  rw [select_range 0 0 fun i hi => by simp [hp i hi]]
  rfl

end ListEdit
