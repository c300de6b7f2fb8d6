import MiniRedis.Lib.Run

/-!
What one party sees of a run that others take part in.  If the inputs of others
change nothing that the party sees, and its own inputs have the same output
wherever the party sees the same, then the run looks to it as it would with the
inputs of the others taken out.
-/

namespace Unwinding

open Run

variable {I O S ε : Type}

/-- The outputs to the party's own inputs. -/
def seen (mine : I → Bool) (is : List I) (os : List O) : List O :=
  ((is.zip os).filter fun x => mine x.1).map Prod.snd

theorem seen_cons_own {mine : I → Bool} {i : I} (h : mine i = true) (is : List I) (o : O)
    (os : List O) : seen mine (i :: is) (o :: os) = o :: seen mine is os := by
  simp [seen, h]

theorem seen_cons_other {mine : I → Bool} {i : I} (h : mine i = false) (is : List I) (o : O)
    (os : List O) : seen mine (i :: is) (o :: os) = seen mine is os := by
  simp [seen, h]

/-- The two steps of a proof of noninterference, for a relation of states that
look the same to the party. -/
structure Unwinds (step : I → S → Except ε (O × S)) (guard : S → I → Prop) (mine : I → Bool)
    (R : S → S → Prop) : Prop where
  other : ∀ s t i, R s t → guard s i → mine i = false →
    ∃ o s', step i s = .ok (o, s') ∧ R s' t
  own : ∀ s t i, R s t → guard s i → mine i = true →
    ∃ o s' t', step i s = .ok (o, s') ∧ step i t = .ok (o, t') ∧ R s' t'

/-- **Purge.**  Taking out the inputs of the others changes nothing that the party
sees. -/
theorem Unwinds.purge {step : I → S → Except ε (O × S)} {guard : S → I → Prop} {mine : I → Bool}
    {R : S → S → Prop} (h : Unwinds step guard mine R) :
    ∀ (is : List I) (s t : S), R s t → Guarded step guard s is →
      ∃ os s' t', run step is s = .ok (os, s') ∧
        run step (is.filter mine) t = .ok (seen mine is os, t') ∧ R s' t' := by
  intro is
  induction is with
  | nil => exact fun s t hR _ => ⟨[], s, t, rfl, rfl, hR⟩
  | cons i is ih =>
    intro s t hR hg
    obtain ⟨hi, hrest⟩ := hg
    cases hmine : mine i with
    | false =>
      obtain ⟨o, s₁, hs, hR₁⟩ := h.other s t i hR hi hmine
      obtain ⟨os, s', t', hrun, halone, hR'⟩ := ih s₁ t hR₁ (hrest o s₁ hs)
      refine ⟨o :: os, s', t', run_cons_ok hs hrun, ?_, hR'⟩
      rw [List.filter_cons_of_neg (by simp [hmine]), seen_cons_other hmine]
      exact halone
    | true =>
      obtain ⟨o, s₁, t₁, hs, ht, hR₁⟩ := h.own s t i hR hi hmine
      obtain ⟨os, s', t', hrun, halone, hR'⟩ := ih s₁ t₁ hR₁ (hrest o s₁ hs)
      refine ⟨o :: os, s', t', run_cons_ok hs hrun, ?_, hR'⟩
      rw [List.filter_cons_of_pos (by simp [hmine]), seen_cons_own hmine]
      exact run_cons_ok ht halone

end Unwinding
