import Mathlib.Data.List.Forall2

/-!
Runs of a deterministic machine that may fault.  A step consumes an input and
either faults or returns an output and the next state.  A run is compared with
an abstract machine whose answers are a relation, so that an output may be
determined only up to the order of a listing.
-/

namespace Run

variable {I O S A ε : Type}

/-- Feed the inputs one after the other; the first fault ends the run. -/
def run (step : I → S → Except ε (O × S)) : List I → S → Except ε (List O × S)
  | [], s => .ok ([], s)
  | i :: is, s => do
      let (o, s) ← step i s
      let (os, s) ← run step is s
      .ok (o :: os, s)

/-- Every step of the run meets the guard in the state it is taken in. -/
def Guarded (step : I → S → Except ε (O × S)) (guard : S → I → Prop) : S → List I → Prop
  | _, [] => True
  | s, i :: is => guard s i ∧ ∀ o s', step i s = .ok (o, s') → Guarded step guard s' is

instance Guarded.decidable {step : I → S → Except ε (O × S)} {guard : S → I → Prop}
    [∀ s i, Decidable (guard s i)] : ∀ s is, Decidable (Guarded step guard s is)
  | _, [] => .isTrue trivial
  | s, i :: is =>
      match h : step i s with
      | .error _ => decidable_of_iff (guard s i) (by simp [Guarded, h])
      | .ok (_, s') =>
          have : Decidable (Guarded step guard s' is) := Guarded.decidable s' is
          decidable_of_iff (guard s i ∧ Guarded step guard s' is) (by simp [Guarded, h])

/-- The state the run ends in, if it does not fault, satisfies `P`. -/
def Ends (step : I → S → Except ε (O × S)) (P : S → Prop) (s : S) (is : List I) : Prop :=
  ∀ os s', run step is s = .ok (os, s') → P s'

instance Ends.decidable {step : I → S → Except ε (O × S)} {P : S → Prop} [∀ s, Decidable (P s)]
    (s : S) (is : List I) : Decidable (Ends step P s is) :=
  match h : run step is s with
  | .error _ => .isTrue (by simp [Ends, h])
  | .ok (_, s') => decidable_of_iff (P s') (by simp [Ends, h])

/-- The outputs an abstract machine allows for a list of inputs. -/
def Admits (next : A → I → A) (answers : A → I → O → Prop) : A → List I → List O → Prop
  | _, [], os => os = []
  | _, _ :: _, [] => False
  | a, i :: is, o :: os => answers a i o ∧ Admits next answers (next a i) is os

/-- The last answer is one the abstract machine gives in the state it is then in. -/
theorem admits_last {next : A → I → A} {answers : A → I → O → Prop} {is : List I} {i : I} {a : A}
    {os : List O} (h : Admits next answers a (is ++ [i]) os) :
    ∃ o, os.getLast? = some o ∧ answers (is.foldl next a) i o := by
  induction is generalizing a os with
  | nil =>
    cases os with
    | nil => exact h.elim
    | cons o os =>
      obtain ⟨ho, hos⟩ := h
      rw [show os = [] from hos]
      exact ⟨o, rfl, ho⟩
  | cons j is ih =>
    cases os with
    | nil => exact h.elim
    | cons o os =>
      obtain ⟨_, hos⟩ := h
      obtain ⟨o', hlast, ho'⟩ := ih hos
      refine ⟨o', ?_, ho'⟩
      rw [List.getLast?_cons, hlast]
      rfl

theorem run_cons_ok {step : I → S → Except ε (O × S)} {i : I} {is : List I} {s s' s'' : S}
    {o : O} {os : List O} (h : step i s = .ok (o, s')) (hs : run step is s' = .ok (os, s'')) :
    run step (i :: is) s = .ok (o :: os, s'') := by
  simp only [run, h, bind, Except.bind, hs]

/-- A run that returns has a first step that returns, and a rest. -/
theorem run_cons_inv {step : I → S → Except ε (O × S)} {i : I} {is : List I} {s s' : S}
    {os : List O} (h : run step (i :: is) s = .ok (os, s')) :
    ∃ o s₁ ps, step i s = .ok (o, s₁) ∧ run step is s₁ = .ok (ps, s') ∧ os = o :: ps := by
  simp only [run, bind, Except.bind] at h
  split at h
  · cases h
  · next r hi =>
    split at h
    · cases h
    · next r' hrest =>
      cases h
      exact ⟨r.1, r.2, r'.1, hi, hrest, rfl⟩

theorem run_append_ok {step : I → S → Except ε (O × S)} {is js : List I} {s s' s'' : S}
    {os ps : List O} (h : run step is s = .ok (os, s')) (h' : run step js s' = .ok (ps, s'')) :
    run step (is ++ js) s = .ok (os ++ ps, s'') := by
  induction is generalizing s os with
  | nil =>
    cases h
    exact h'
  | cons i is ih =>
    obtain ⟨o, s₁, os', hi, hrest, rfl⟩ := run_cons_inv h
    exact run_cons_ok hi (ih hrest)

/-- One more step that meets the guard where the run has come to. -/
theorem guarded_concat {step : I → S → Except ε (O × S)} {guard : S → I → Prop} {is : List I}
    {i : I} {s s' : S} {os : List O} (hg : Guarded step guard s is)
    (hrun : run step is s = .ok (os, s')) (hi : guard s' i) : Guarded step guard s (is ++ [i]) := by
  induction is generalizing s os with
  | nil =>
    cases hrun
    exact ⟨hi, fun _ _ _ => trivial⟩
  | cons j is ih =>
    obtain ⟨hj, hrest⟩ := hg
    obtain ⟨o, s₁, os', hs, hrun', rfl⟩ := run_cons_inv hrun
    refine ⟨hj, fun o' s₁' hs' => ?_⟩
    rw [hs] at hs'
    cases hs'
    exact ih (hrest o s₁ hs) hrun'

/-- No condition. -/
theorem guarded_true {step : I → S → Except ε (O × S)} (s : S) (is : List I) :
    Guarded step (fun _ _ => True) s is := by
  induction is generalizing s with
  | nil => trivial
  | cons i is ih => exact ⟨trivial, fun _ s' _ => ih s'⟩

/-- A weaker guard. -/
theorem Guarded.mono {step : I → S → Except ε (O × S)} {guard guard' : S → I → Prop} {is : List I}
    {s : S} (hg : Guarded step guard s is) (himp : ∀ s i, guard s i → guard' s i) :
    Guarded step guard' s is := by
  induction is generalizing s with
  | nil => trivial
  | cons i is ih => exact ⟨himp s i hg.1, fun o s' hs => ih (hg.2 o s' hs)⟩

/-- What a run that keeps `P` puts out, it puts out from states that satisfy `P`. -/
theorem run_outputs {step : I → S → Except ε (O × S)} {P : S → Prop}
    (hstep : ∀ s i o s', P s → step i s = .ok (o, s') → P s') {is : List I} {os : List O} {s s' : S}
    (hs : P s) (hrun : run step is s = .ok (os, s')) :
    List.Forall₂ (fun i o => ∃ t t', P t ∧ step i t = .ok (o, t')) is os := by
  induction is generalizing s os with
  | nil =>
    cases hrun
    exact .nil
  | cons i is ih =>
    obtain ⟨o, s₁, os', hi, hrest, rfl⟩ := run_cons_inv hrun
    exact .cons ⟨s, s₁, hs, hi⟩ (ih (hstep s i o s₁ hs hi) hrest)

/-- **Simulation.**  If every guarded step from related states answers as the
abstract machine does and leads to related states, so does every guarded run. -/
theorem simulation {step : I → S → Except ε (O × S)} {guard : S → I → Prop}
    {next : A → I → A} {answers : A → I → O → Prop} {R : S → A → Prop}
    (hstep : ∀ s a i, R s a → guard s i →
      ∃ o s', step i s = .ok (o, s') ∧ answers a i o ∧ R s' (next a i)) :
    ∀ (is : List I) (s : S) (a : A), R s a → Guarded step guard s is →
      ∃ os s', run step is s = .ok (os, s') ∧ Admits next answers a is os ∧
        R s' (is.foldl next a) := by
  intro is
  induction is with
  | nil => exact fun s a hR _ => ⟨[], s, rfl, rfl, hR⟩
  | cons i is ih =>
    intro s a hR hg
    obtain ⟨hi, hrest⟩ := hg
    obtain ⟨o, s', hs, ho, hR'⟩ := hstep s a i hR hi
    obtain ⟨os, s'', hrun, hos, hR''⟩ := ih s' (next a i) hR' (hrest o s' hs)
    exact ⟨o :: os, s'', run_cons_ok hs hrun, ⟨ho, hos⟩, hR''⟩

/-- A run of a machine that is given by a relation. -/
inductive Steps (spec : A → I → O → A → Prop) : A → List I → List O → A → Prop
  | nil (a : A) : Steps spec a [] [] a
  | cons {a a' a'' : A} {i : I} {is : List I} {o : O} {os : List O} :
      spec a i o a' → Steps spec a' is os a'' → Steps spec a (i :: is) (o :: os) a''

/-- **Refinement.**  If every guarded step from related states is a step of the
abstract machine to related states, every guarded run is a run of it. -/
theorem refinement {step : I → S → Except ε (O × S)} {guard : S → I → Prop}
    {spec : A → I → O → A → Prop} {R : S → A → Prop}
    (hstep : ∀ s a i, R s a → guard s i →
      ∃ o s' a', step i s = .ok (o, s') ∧ spec a i o a' ∧ R s' a') :
    ∀ (is : List I) (s : S) (a : A), R s a → Guarded step guard s is →
      ∃ os s' a', run step is s = .ok (os, s') ∧ Steps spec a is os a' ∧ R s' a' := by
  intro is
  induction is with
  | nil => exact fun s a hR _ => ⟨[], s, a, rfl, .nil a, hR⟩
  | cons i is ih =>
    intro s a hR hg
    obtain ⟨hi, hrest⟩ := hg
    obtain ⟨o, s', a', hs, ho, hR'⟩ := hstep s a i hR hi
    obtain ⟨os, s'', a'', hrun, hos, hR''⟩ := ih s' a' hR' (hrest o s' hs)
    exact ⟨o :: os, s'', a'', run_cons_ok hs hrun, .cons ho hos, hR''⟩

/-- **Invariant.**  What every step keeps, every run keeps, and no run faults. -/
theorem invariant {step : I → S → Except ε (O × S)} {P : S → Prop}
    (hstep : ∀ s i, P s → ∃ o s', step i s = .ok (o, s') ∧ P s') :
    ∀ (is : List I) (s : S), P s → ∃ os s', run step is s = .ok (os, s') ∧ P s' := by
  intro is
  induction is with
  | nil => exact fun s hP => ⟨[], s, rfl, hP⟩
  | cons i is ih =>
    intro s hP
    obtain ⟨o, s', hs, hP'⟩ := hstep s i hP
    obtain ⟨os, s'', hrun, hP''⟩ := ih s' hP'
    exact ⟨o :: os, s'', run_cons_ok hs hrun, hP''⟩

/-- **History.**  A relation between the state and the inputs so far, newest
first, that every step keeps holds at the end of every run. -/
theorem history {step : I → S → Except ε (O × S)} {R : List I → S → Prop}
    (hstep : ∀ h s i, R h s → ∃ o s', step i s = .ok (o, s') ∧ R (i :: h) s') :
    ∀ (is h : List I) (s : S), R h s →
      ∃ os s', run step is s = .ok (os, s') ∧ R (is.reverse ++ h) s' := by
  intro is
  induction is with
  | nil => exact fun h s hR => ⟨[], s, rfl, hR⟩
  | cons i is ih =>
    intro h s hR
    obtain ⟨o, s', hs, hR'⟩ := hstep h s i hR
    obtain ⟨os, s'', hrun, hR''⟩ := ih (i :: h) s' hR'
    exact ⟨o :: os, s'', run_cons_ok hs hrun, by simpa using hR''⟩

/-- **Record.**  A relation between the inputs so far, their outputs and the state
that every guarded step keeps holds at the end of every guarded run. -/
theorem record {step : I → S → Except ε (O × S)} {guard : S → I → Prop}
    {R : List I → List O → S → Prop}
    (hstep : ∀ is os s i, R is os s → guard s i →
      ∃ o s', step i s = .ok (o, s') ∧ R (is ++ [i]) (os ++ [o]) s') :
    ∀ (js is : List I) (os : List O) (s : S), R is os s → Guarded step guard s js →
      ∃ ps s', run step js s = .ok (ps, s') ∧ R (is ++ js) (os ++ ps) s' := by
  intro js
  induction js with
  | nil => exact fun is os s hR _ => ⟨[], s, rfl, by simpa using hR⟩
  | cons j js ih =>
    intro is os s hR hg
    obtain ⟨hj, hrest⟩ := hg
    obtain ⟨o, s', hs, hR'⟩ := hstep is os s j hR hj
    obtain ⟨ps, s'', hrun, hR''⟩ := ih _ _ s' hR' (hrest o s' hs)
    exact ⟨o :: ps, s'', run_cons_ok hs hrun, by simpa using hR''⟩

/-- Some input of the run satisfies `trips` in the abstract state it is taken in. -/
def Tripped (next : A → I → A) (trips : A → I → Prop) : A → List I → Prop
  | _, [] => False
  | a, i :: is => trips a i ∨ Tripped next trips (next a i) is

instance Tripped.decidable {next : A → I → A} {trips : A → I → Prop}
    [∀ a i, Decidable (trips a i)] : ∀ a is, Decidable (Tripped next trips a is)
  | _, [] => .isFalse id
  | a, i :: is =>
      have : Decidable (Tripped next trips (next a i) is) := Tripped.decidable (next a i) is
      decidable_of_iff (trips a i ∨ Tripped next trips (next a i) is) Iff.rfl

/-- **Latch.**  A machine follows the abstract one until an input trips it, and is
in another phase from then on: the phase it ends in says whether it was tripped. -/
theorem latch {step : I → S → Except ε (O × S)} {next : A → I → A} {trips : A → I → Prop}
    {off : S → A → Prop} {on : S → Prop}
    (hoff : ∀ s a i, off s a → ∃ o s', step i s = .ok (o, s') ∧
      (trips a i ∧ on s' ∨ ¬ trips a i ∧ off s' (next a i)))
    (hon : ∀ s i, on s → ∃ o s', step i s = .ok (o, s') ∧ on s') :
    ∀ (is : List I) (s : S) (a : A), off s a → ∃ os s', run step is s = .ok (os, s') ∧
      (Tripped next trips a is ∧ on s' ∨
        ¬ Tripped next trips a is ∧ off s' (is.foldl next a)) := by
  intro is
  induction is with
  | nil => exact fun s a h => ⟨[], s, rfl, Or.inr ⟨id, h⟩⟩
  | cons i is ih =>
    intro s a h
    obtain ⟨o, s', hs, ⟨htrips, h'⟩ | ⟨hnot, h'⟩⟩ := hoff s a i h
    · obtain ⟨os, s'', hrun, h''⟩ := invariant hon is s' h'
      exact ⟨o :: os, s'', run_cons_ok hs hrun, Or.inl ⟨Or.inl htrips, h''⟩⟩
    · obtain ⟨os, s'', hrun, ⟨htrips, h''⟩ | ⟨hnot', h''⟩⟩ := ih s' (next a i) h'
      · exact ⟨o :: os, s'', run_cons_ok hs hrun, Or.inl ⟨Or.inr htrips, h''⟩⟩
      · exact ⟨o :: os, s'', run_cons_ok hs hrun, Or.inr ⟨not_or.mpr ⟨hnot, hnot'⟩, h''⟩⟩

/-- Some input satisfies `p`, and none behind it satisfies `q`. -/
def Since (p q : I → Prop) (is : List I) : Prop :=
  ∃ before i after, is = before ++ i :: after ∧ p i ∧ ∀ j ∈ after, ¬ q j

theorem not_since_nil {p q : I → Prop} : ¬ Since p q [] := by
  rintro ⟨before, i, after, h, _⟩
  simp at h

/-- The last input decides, or leaves things as they were. -/
theorem since_append {p q : I → Prop} {is : List I} {i : I} :
    Since p q (is ++ [i]) ↔ p i ∨ Since p q is ∧ ¬ q i := by
  constructor
  · rintro ⟨before, j, after, h, hp, hq⟩
    rcases List.eq_nil_or_concat after with rfl | ⟨after, k, rfl⟩
    · obtain ⟨_, hj⟩ := List.append_inj' h rfl
      rw [(List.cons.inj hj).1]
      exact Or.inl hp
    · rw [List.concat_eq_append, ← List.cons_append, ← List.append_assoc] at h
      obtain ⟨rfl, hk⟩ := List.append_inj' h rfl
      rw [(List.cons.inj hk).1]
      simp only [List.concat_eq_append, List.mem_append, List.mem_singleton] at hq
      exact Or.inr ⟨⟨before, j, after, rfl, hp, fun l hl => hq l (Or.inl hl)⟩,
        hq _ (Or.inr rfl)⟩
  · rintro (hp | ⟨⟨before, j, after, rfl, hp, hq⟩, hi⟩)
    · exact ⟨is, i, [], rfl, hp, by simp⟩
    · refine ⟨before, j, after ++ [i], by simp, hp, fun k hk => ?_⟩
      rcases List.mem_append.mp hk with hk | hk
      · exact hq k hk
      · rwa [List.mem_singleton.mp hk]

end Run
