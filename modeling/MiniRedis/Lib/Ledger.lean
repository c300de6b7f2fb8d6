import Mathlib.Data.Finset.Basic
import Mathlib.Data.List.TakeWhile

/-!
Resources that are acquired and released.  A resource can be acquired again once
it has been released; its tenure is what is between two acquisitions.
-/

namespace Ledger

universe u

variable {ρ : Type u} [DecidableEq ρ]

inductive Entry (ρ : Type u) where
  | acquire (r : ρ)
  | release (r : ρ)
  deriving DecidableEq, Repr

open Entry

/-- What is held behind the entries. -/
def held : List (Entry ρ) → Finset ρ → Finset ρ
  | [], s => s
  | acquire r :: es, s => held es (insert r s)
  | release r :: es, s => held es (s.erase r)

/-- What is acquired was not held, and what is released was. -/
def Orderly : List (Entry ρ) → Finset ρ → Prop
  | [], _ => True
  | acquire r :: es, s => r ∉ s ∧ Orderly es (insert r s)
  | release r :: es, s => r ∈ s ∧ Orderly es (s.erase r)

/-- The entries up to the next acquisition of the resource. -/
def tenure (r : ρ) (es : List (Entry ρ)) : List (Entry ρ) :=
  es.takeWhile fun e => decide (e ≠ acquire r)

/-- After each acquisition the resource is released once before it is acquired
again; only what is still held has not been released since. -/
def ReleasedOnce (es : List (Entry ρ)) (s : Finset ρ) : Prop :=
  ∀ front r back, es = front ++ acquire r :: back →
    (tenure r back).count (release r) = if r ∈ held es s ∧ acquire r ∉ back then 0 else 1

theorem held_append (es es' : List (Entry ρ)) (s : Finset ρ) :
    held (es ++ es') s = held es' (held es s) := by
  induction es generalizing s with
  | nil => rfl
  | cons e es ih =>
    cases e with
    | acquire r => exact ih (insert r s)
    | release r => exact ih (s.erase r)

theorem orderly_append {es es' : List (Entry ρ)} {s : Finset ρ} :
    Orderly (es ++ es') s ↔ Orderly es s ∧ Orderly es' (held es s) := by
  induction es generalizing s with
  | nil => simp [Orderly, held]
  | cons e es ih =>
    cases e with
    | acquire r => simp only [List.cons_append, Orderly, held, ih, and_assoc]
    | release r => simp only [List.cons_append, Orderly, held, ih, and_assoc]

theorem tenure_cons {r : ρ} {e : Entry ρ} (h : e ≠ acquire r) (es : List (Entry ρ)) :
    tenure r (e :: es) = e :: tenure r es := by
  rw [tenure, List.takeWhile_cons_of_pos (by simpa using h)]
  rfl

theorem tenure_acquire (r : ρ) (es : List (Entry ρ)) : tenure r (acquire r :: es) = [] := by
  rw [tenure, List.takeWhile_cons_of_neg (by simp)]

/-- What is not held is not released before it is acquired. -/
theorem Orderly.free {es : List (Entry ρ)} {s : Finset ρ} (h : Orderly es s) {r : ρ}
    (hr : r ∉ s) :
    (tenure r es).count (release r) = 0 ∧ (acquire r ∉ es → r ∉ held es s) := by
  induction es generalizing s with
  | nil => exact ⟨rfl, fun _ => hr⟩
  | cons e es ih =>
    cases e with
    | acquire q =>
      by_cases hq : q = r
      · subst hq
        rw [tenure_acquire]
        exact ⟨rfl, fun hnot => absurd (List.mem_cons_self ..) hnot⟩
      · have hne : acquire q ≠ acquire r := fun heq => hq (Entry.acquire.inj heq)
        obtain ⟨hcount, hheld⟩ := ih h.2 (by simp [hr, Ne.symm hq])
        rw [tenure_cons hne, List.count_cons_of_ne (by simp)]
        exact ⟨hcount, fun hnot => hheld fun hmem => hnot (List.mem_cons_of_mem _ hmem)⟩
    | release q =>
      have hq : q ≠ r := fun heq => hr (heq ▸ h.1)
      have hne : release q ≠ release r := fun heq => hq (Entry.release.inj heq)
      obtain ⟨hcount, hheld⟩ := ih h.2 fun hmem => hr (Finset.mem_of_mem_erase hmem)
      rw [tenure_cons (by simp), List.count_cons_of_ne hne]
      exact ⟨hcount, fun hnot => hheld fun hmem => hnot (List.mem_cons_of_mem _ hmem)⟩

/-- What is held is released once, unless it stays held. -/
theorem Orderly.taken {es : List (Entry ρ)} {s : Finset ρ} (h : Orderly es s) {r : ρ}
    (hr : r ∈ s) :
    (tenure r es).count (release r) = if r ∈ held es s ∧ acquire r ∉ es then 0 else 1 := by
  induction es generalizing s with
  | nil =>
    rw [if_pos ⟨hr, by simp⟩]
    rfl
  | cons e es ih =>
    cases e with
    | acquire q =>
      have hq : q ≠ r := fun heq => h.1 (heq ▸ hr)
      have hne : acquire q ≠ acquire r := fun heq => hq (Entry.acquire.inj heq)
      have hcount := ih h.2 (Finset.mem_insert_of_mem hr)
      rw [tenure_cons hne, List.count_cons_of_ne (by simp), hcount]
      simp only [held, List.mem_cons, Ne.symm hne, false_or]
    | release q =>
      by_cases hq : q = r
      · subst hq
        -- the release ends the tenure
        obtain ⟨hcount, hheld⟩ := h.2.free (s.notMem_erase q)
        rw [tenure_cons (by simp), List.count_cons_self, hcount, if_neg]
        rintro ⟨hmem, hnot⟩
        exact hheld (fun hacq => hnot (List.mem_cons_of_mem _ hacq)) hmem
      · have hne : release q ≠ release r := fun heq => hq (Entry.release.inj heq)
        have hcount := ih h.2 (Finset.mem_erase.mpr ⟨Ne.symm hq, hr⟩)
        rw [tenure_cons (by simp), List.count_cons_of_ne hne, hcount]
        simp only [held, List.mem_cons, reduceCtorEq, false_or]

/-- **In an orderly ledger every acquisition is released once.** -/
theorem Orderly.releasedOnce {es : List (Entry ρ)} {s : Finset ρ} (h : Orderly es s) :
    ReleasedOnce es s := by
  rintro front r back rfl
  have hback := (orderly_append.mp h).2.2
  rw [hback.taken (Finset.mem_insert_self ..), held_append]
  rfl

/-- Two releases in one tenure are one too many. -/
theorem not_releasedOnce_twice (front back : List (Entry ρ)) (r : ρ) (s : Finset ρ) :
    ¬ ReleasedOnce (front ++ acquire r :: release r :: release r :: back) s := by
  intro h
  have hcount := h front r (release r :: release r :: back) rfl
  rw [tenure_cons (by simp), tenure_cons (by simp), List.count_cons_self,
    List.count_cons_self] at hcount
  split at hcount <;> omega

end Ledger
