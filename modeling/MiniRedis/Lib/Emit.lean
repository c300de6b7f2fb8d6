import Mathlib.Data.List.Basic

/-!
Writers that may stop.  A writer puts symbols on its output and either comes to
its end or stops with a fault, and what it has written by then stays written.
Writers are put behind one another with `++`; a stopped writer is the last one.
-/

/-- What has been written, and why the writer stopped if it did. -/
structure Emit (β ε : Type) where
  written : List β
  fault : Option ε
  deriving DecidableEq, Repr

namespace Emit

variable {α β ε : Type}

def put (l : List β) : Emit β ε := ⟨l, none⟩

def fail (e : ε) : Emit β ε := ⟨[], some e⟩

def append (a b : Emit β ε) : Emit β ε :=
  match a.fault with
  | none => ⟨a.written ++ b.written, b.fault⟩
  | some _ => a

instance : Append (Emit β ε) := ⟨append⟩

/-- One writer for each member of a list. -/
def forEach (f : α → Emit β ε) : List α → Emit β ε
  | [] => put []
  | x :: l => f x ++ forEach f l

/-- Write what a call returned; a call that fails stops the writer. -/
def call (x : Except ε α) (f : α → Emit β ε) : Emit β ε :=
  match x with
  | .ok a => f a
  | .error e => fail e

/-! ## Composition -/

theorem append_of_ok {a : Emit β ε} (h : a.fault = none) (b : Emit β ε) :
    a ++ b = ⟨a.written ++ b.written, b.fault⟩ := by
  change append a b = _
  simp only [append, h]

theorem append_of_fault {a : Emit β ε} {e : ε} (h : a.fault = some e) (b : Emit β ε) :
    a ++ b = a := by
  change append a b = _
  simp only [append, h]

theorem put_append (l : List β) (b : Emit β ε) : put l ++ b = ⟨l ++ b.written, b.fault⟩ := rfl

theorem append_ok_iff {a b : Emit β ε} :
    (a ++ b).fault = none ↔ a.fault = none ∧ b.fault = none := by
  cases h : a.fault with
  | none => simp [append_of_ok h]
  | some e => simp [append_of_fault h, h]

/-- The fault of a composition is the one of the part that stopped. -/
theorem append_fault {a b : Emit β ε} {e : ε} (h : (a ++ b).fault = some e) :
    a.fault = some e ∨ a.fault = none ∧ b.fault = some e := by
  cases ha : a.fault with
  | none =>
    rw [append_of_ok ha] at h
    exact Or.inr ⟨rfl, h⟩
  | some e' =>
    rw [append_of_fault ha, ha] at h
    exact Or.inl h

theorem append_written {a b : Emit β ε} (h : a.fault = none) :
    (a ++ b).written = a.written ++ b.written := by
  rw [append_of_ok h]

theorem append_assoc (a b c : Emit β ε) : a ++ b ++ c = a ++ (b ++ c) := by
  cases ha : a.fault with
  | some e => rw [append_of_fault ha, append_of_fault ha, append_of_fault ha]
  | none =>
    cases hb : b.fault with
    | some e =>
      have hab : (a ++ b).fault = some e := by rw [append_of_ok ha, hb]
      rw [append_of_fault hab, append_of_fault hb]
    | none =>
      have hab : (a ++ b).fault = none := append_ok_iff.mpr ⟨ha, hb⟩
      rw [append_of_ok hab, append_of_ok ha, append_of_ok ha, append_of_ok hb, List.append_assoc]

/-- A composition that stops has stopped in its first part, or behind it. -/
theorem append_stops {a b : Emit β ε} (h : (a ++ b).fault ≠ none) :
    a.fault ≠ none ∧ (a ++ b).written = a.written ∨
      a.fault = none ∧ b.fault ≠ none ∧ (a ++ b).written = a.written ++ b.written := by
  cases ha : a.fault with
  | some e => exact Or.inl ⟨by simp, by rw [append_of_fault ha]⟩
  | none =>
    rw [append_of_ok ha] at h
    exact Or.inr ⟨rfl, h, append_written ha⟩

/-- What the first part has written is there. -/
theorem length_le_append (a b : Emit β ε) : a.written.length ≤ (a ++ b).written.length := by
  cases ha : a.fault with
  | none =>
    rw [append_written ha, List.length_append]
    omega
  | some e => exact Nat.le_of_eq (by rw [append_of_fault ha])

/-! ## Loops -/

theorem forEach_ok_iff {f : α → Emit β ε} {l : List α} :
    (forEach f l).fault = none ↔ ∀ x ∈ l, (f x).fault = none := by
  induction l with
  | nil => simp [forEach, put]
  | cons x l ih => simp [forEach, append_ok_iff, ih]

theorem forEach_written {f : α → Emit β ε} {l : List α} (h : ∀ x ∈ l, (f x).fault = none) :
    (forEach f l).written = l.flatMap fun x => (f x).written := by
  induction l with
  | nil => rfl
  | cons x l ih =>
    rw [forEach, append_written (h x (List.mem_cons_self ..)),
      ih fun y hy => h y (List.mem_cons_of_mem x hy), List.flatMap_cons]

/-- A loop that stops has written everything before the member it stops at, and
what that member wrote before it stopped. -/
theorem forEach_stops {f : α → Emit β ε} {l : List α} {e : ε}
    (h : (forEach f l).fault = some e) :
    ∃ before x after, l = before ++ x :: after ∧ (∀ y ∈ before, (f y).fault = none) ∧
      (f x).fault = some e ∧
      (forEach f l).written = before.flatMap (fun y => (f y).written) ++ (f x).written := by
  induction l with
  | nil => cases h
  | cons y l ih =>
    rcases append_fault h with hy | ⟨hy, hl⟩
    · refine ⟨[], y, l, rfl, ?_, hy, ?_⟩
      · intro z hz
        cases hz
      · rw [forEach, append_of_fault hy]
        rfl
    · obtain ⟨before, x, after, rfl, hbefore, hx, hwritten⟩ := ih hl
      refine ⟨y :: before, x, after, rfl, ?_, hx, ?_⟩
      · intro z hz
        rcases List.mem_cons.mp hz with rfl | hz
        · exact hy
        · exact hbefore z hz
      · rw [forEach, append_written hy, hwritten, List.flatMap_cons, List.append_assoc]

end Emit
