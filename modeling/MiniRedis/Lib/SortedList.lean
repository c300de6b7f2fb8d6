import Mathlib.Order.Lattice
import Mathlib.Data.List.Basic

/-!
Strictly ascending lists as sets.  The search halves a window and looks at a few
places only; in an ascending list it ends where everything in front is smaller
and nothing behind is.  Inserting and erasing at such a place keeps the order.
-/

namespace SortedList

universe u

variable {α : Type u} [LinearOrder α]

/-- Each element is smaller than every later one. -/
abbrev Ascending (l : List α) : Prop := l.Pairwise (· < ·)

/-- Halve the window of `len` elements from `first` on; `fuel` bounds the turns. -/
def lowerBoundLoop (v : α) (l : List α) : Nat → Nat → Nat → Nat
  | 0, first, _ => first
  | fuel + 1, first, len =>
      if len = 0 then first
      else
        let half := len / 2
        match l[first + half]? with
        | none => first
        | some x =>
            if x < v then lowerBoundLoop v l fuel (first + half + 1) (len - half - 1)
            else lowerBoundLoop v l fuel first half

/-- The first position whose element is not less than `v`, in an ascending list. -/
def lowerBound (v : α) (l : List α) : Nat := lowerBoundLoop v l l.length 0 l.length

/-! ## The search -/

/-- What is in front of the window is smaller than `v`, what is behind it is not. -/
structure Window (v : α) (l : List α) (first len : Nat) : Prop where
  fits : first + len ≤ l.length
  below : ∀ x ∈ l.take first, x < v
  above : ∀ x ∈ l.drop (first + len), v ≤ x

/-- Everything in front of a place is smaller than what is there, everything
behind it larger. -/
theorem Ascending.around {l : List α} (hl : Ascending l) {m : Nat} {x : α}
    (hx : l[m]? = some x) : (∀ y ∈ l.take m, y < x) ∧ ∀ y ∈ l.drop (m + 1), x < y := by
  obtain ⟨hlt, rfl⟩ := List.getElem?_eq_some_iff.mp hx
  have hsplit : Ascending (l.take m ++ l.drop m) := by rwa [List.take_append_drop]
  obtain ⟨_, htail, hcross⟩ := List.pairwise_append.mp hsplit
  rw [List.drop_eq_getElem_cons hlt] at htail hcross
  exact ⟨fun y hy => hcross y hy _ (List.mem_cons_self ..),
    fun y hy => List.rel_of_pairwise_cons htail hy⟩

theorem Ascending.below {l : List α} (hl : Ascending l) {m : Nat} {x v : α}
    (hx : l[m]? = some x) (hv : x < v) : ∀ y ∈ l.take (m + 1), y < v := by
  intro y hy
  rw [List.take_add_one, hx, List.mem_append] at hy
  rcases hy with hy | hy
  · exact lt_trans ((hl.around hx).1 y hy) hv
  · rwa [List.mem_singleton.mp hy]

theorem Ascending.above {l : List α} (hl : Ascending l) {m : Nat} {x v : α}
    (hx : l[m]? = some x) (hv : ¬ x < v) : ∀ y ∈ l.drop m, v ≤ y := by
  intro y hy
  obtain ⟨hlt, hxm⟩ := List.getElem?_eq_some_iff.mp hx
  rw [List.drop_eq_getElem_cons hlt, hxm] at hy
  rcases List.mem_cons.mp hy with rfl | hy
  · exact not_lt.mp hv
  · exact le_trans (not_lt.mp hv) (le_of_lt ((hl.around hx).2 y hy))

/-- A turn of the search leaves a shorter window. -/
theorem lowerBoundLoop_window {v : α} {l : List α} (hl : Ascending l) (fuel : Nat) {first len : Nat}
    (hfuel : len ≤ fuel) (hw : Window v l first len) :
    Window v l (lowerBoundLoop v l fuel first len) 0 := by
  induction fuel generalizing first len with
  | zero =>
    obtain rfl : len = 0 := by omega
    exact hw
  | succ fuel ih =>
    rw [lowerBoundLoop]
    split
    · next hzero =>
      rw [hzero] at hw
      exact hw
    · next hlen =>
      have hfits := hw.fits
      have hlt : first + len / 2 < l.length := by omega
      obtain ⟨x, hx⟩ : ∃ x, l[first + len / 2]? = some x := ⟨_, List.getElem?_eq_getElem hlt⟩
      simp only [hx]
      split
      · next hless =>
        refine ih (by omega) ⟨by omega, hl.below hx hless, ?_⟩
        have hend : first + len / 2 + 1 + (len - len / 2 - 1) = first + len := by omega
        rw [hend]
        exact hw.above
      · next hless => exact ih (by omega) ⟨by omega, hw.below, hl.above hx hless⟩

theorem lowerBound_window {l : List α} (hl : Ascending l) (v : α) :
    Window v l (lowerBound v l) 0 :=
  lowerBoundLoop_window hl l.length (Nat.le_refl _)
    ⟨by omega, fun x hx => by simp at hx, fun x hx => by simp at hx⟩

/-! ## The place that was found -/

/-- The element at the place is the one looked for, if it is in the list at all. -/
theorem Window.found {l : List α} (hl : Ascending l) {v : α} {pos : Nat}
    (hw : Window v l pos 0) : l[pos]? = some v ↔ v ∈ l := by
  constructor
  · exact fun h => List.mem_of_getElem? h
  · intro hv
    obtain ⟨m, hm⟩ := List.mem_iff_getElem?.mp hv
    obtain ⟨hlt, hlm⟩ := List.getElem?_eq_some_iff.mp hm
    rcases Nat.lt_trichotomy m pos with hlow | rfl | hhigh
    · -- a smaller place holds something smaller
      have hmem : v ∈ l.take pos := by
        rw [← hlm]
        exact List.mem_take_iff_getElem.mpr ⟨m, by omega, rfl⟩
      exact absurd (hw.below v hmem) (lt_irrefl v)
    · exact hm
    · -- a larger place holds something larger than what is at `pos`
      have hpos : pos < l.length := by omega
      have hat : l[pos]? = some l[pos] := List.getElem?_eq_getElem hpos
      have hge : v ≤ l[pos] := by
        refine hw.above _ ?_
        rw [Nat.add_zero, List.drop_eq_getElem_cons hpos]
        exact List.mem_cons_self ..
      have hmem : v ∈ l.drop (pos + 1) := by
        rw [← hlm]
        exact List.mem_drop_iff_getElem.mpr ⟨m - (pos + 1), by omega, by congr 1; omega⟩
      exact absurd (lt_of_le_of_lt hge ((hl.around hat).2 v hmem)) (lt_irrefl v)

/-- Inserting a new element at its place. -/
theorem Window.insert {l : List α} (hl : Ascending l) {v : α} {pos : Nat}
    (hw : Window v l pos 0) (hv : v ∉ l) : Ascending (l.take pos ++ v :: l.drop pos) := by
  have hsplit : Ascending (l.take pos ++ l.drop pos) := by rwa [List.take_append_drop]
  obtain ⟨hfront, hback, hcross⟩ := List.pairwise_append.mp hsplit
  have habove : ∀ y ∈ l.drop pos, v < y := by
    intro y hy
    refine lt_of_le_of_ne (hw.above y hy) ?_
    rintro rfl
    exact hv (List.mem_of_mem_drop hy)
  refine List.pairwise_append.mpr ⟨hfront, List.pairwise_cons.mpr ⟨habove, hback⟩, ?_⟩
  intro x hx y hy
  rcases List.mem_cons.mp hy with rfl | hy
  · exact hw.below x hx
  · exact hcross x hx y hy

theorem mem_insert {β : Type u} {l : List β} {v : β} {pos : Nat} (x : β) :
    x ∈ l.take pos ++ v :: l.drop pos ↔ x = v ∨ x ∈ l := by
  conv_rhs => rw [← List.take_append_drop pos l]
  simp only [List.mem_append, List.mem_cons]
  tauto

theorem Ascending.erase {l : List α} (hl : Ascending l) (pos : Nat) :
    Ascending (l.eraseIdx pos) :=
  hl.sublist (List.eraseIdx_sublist l pos)

theorem Ascending.mem_erase {l : List α} (hl : Ascending l) {v : α} {pos : Nat}
    (hv : l[pos]? = some v) (x : α) : x ∈ l.eraseIdx pos ↔ x ∈ l ∧ x ≠ v := by
  obtain ⟨hlt, hlv⟩ := List.getElem?_eq_some_iff.mp hv
  obtain ⟨hfront, hback⟩ := hl.around hv
  have hmem : x ∈ l ↔ x ∈ l.take pos ∨ x = v ∨ x ∈ l.drop (pos + 1) := by
    conv_lhs => rw [← List.take_append_drop pos l, List.drop_eq_getElem_cons hlt, hlv]
    simp only [List.mem_append, List.mem_cons]
  rw [List.eraseIdx_eq_take_drop_succ, List.mem_append, hmem]
  constructor
  · rintro (hx | hx)
    · exact ⟨Or.inl hx, ne_of_lt (hfront x hx)⟩
    · exact ⟨Or.inr (Or.inr hx), ne_of_gt (hback x hx)⟩
  · rintro ⟨hx | hx | hx, hne⟩
    · exact Or.inl hx
    · exact absurd hx hne
    · exact Or.inr hx

end SortedList
