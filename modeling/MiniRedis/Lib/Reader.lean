/-!
Readers of a stream that may end early.  A reader takes symbols off the front of
its input or faults.  It is *stable* when what it has taken decides its result:
with anything else behind it the result is the same, and with any less of it
the reader runs into the end of the stream.
-/

abbrev Reader (β ε α : Type) := List β → Except ε (α × List β)

namespace Reader

variable {β ε α γ : Type} {eof : ε}

/-- The reader makes `a` of exactly the symbols `c`, and of nothing less. -/
structure Takes (eof : ε) (r : Reader β ε α) (c : List β) (a : α) : Prop where
  whole : ∀ t, r (c ++ t) = .ok (a, t)
  short : ∀ p, p <+: c → p ≠ c → r p = .error eof

def Stable (eof : ε) (r : Reader β ε α) : Prop :=
  ∀ s a rest, r s = .ok (a, rest) → ∃ c, s = c ++ rest ∧ Takes eof r c a

/-- A proper prefix of two parts ends in the first one, or in the second. -/
theorem prefix_cases {p c c' : List β} (h : p <+: c ++ c') (hne : p ≠ c ++ c') :
    (p <+: c ∧ p ≠ c) ∨ ∃ q, p = c ++ q ∧ q <+: c' ∧ q ≠ c' := by
  by_cases hc : c <+: p
  · obtain ⟨q, rfl⟩ := hc
    exact Or.inr ⟨q, rfl, (List.prefix_append_right_inj c).mp h, fun hq => hne (by rw [hq])⟩
  · rcases List.prefix_or_prefix_of_prefix h (List.prefix_append c c') with hp | hp
    · exact Or.inl ⟨hp, fun heq => hc (heq ▸ List.prefix_rfl)⟩
    · exact absurd hp hc

/-! ## Building readers -/

theorem Takes.pure (a : α) : Takes eof (fun s : List β => .ok (a, s)) [] a where
  whole := fun _ => rfl
  short := fun _ hp hne => absurd (List.prefix_nil.mp hp) hne

theorem Takes.bind {r : Reader β ε α} {f : α → Reader β ε γ} {c c' : List β} {a : α} {b : γ}
    (hr : Takes eof r c a) (hf : Takes eof (f a) c' b) :
    Takes eof (fun s => r s >>= fun x => f x.1 x.2) (c ++ c') b where
  whole := fun t => by
    simp only [List.append_assoc, hr.whole, Bind.bind, Except.bind, hf.whole]
  short := fun p hp hne => by
    rcases prefix_cases hp hne with ⟨hp, hne⟩ | ⟨q, rfl, hq, hne⟩
    · simp only [hr.short p hp hne, Bind.bind, Except.bind]
    · simp only [hr.whole, Bind.bind, Except.bind, hf.short q hq hne]

/-- A symbol in front, after which `r` takes over. -/
theorem Takes.cons {r r' : Reader β ε α} {b : β} {c : List β} {a : α} (h : Takes eof r c a)
    (hcons : ∀ s, r' (b :: s) = r s) (hend : r' [] = .error eof) : Takes eof r' (b :: c) a where
  whole := fun t => (hcons (c ++ t)).trans (h.whole t)
  short := fun p hp hne => by
    cases p with
    | nil => exact hend
    | cons b' p =>
      obtain ⟨rfl, hpc⟩ := List.cons_prefix_cons.mp hp
      exact (hcons p).trans (h.short p hpc fun heq => hne (by rw [heq]))

theorem Takes.tail {r : Reader β ε α} {b : β} {c : List β} {a : α} (h : Takes eof r (b :: c) a) :
    Takes eof (fun s => r (b :: s)) c a where
  whole := h.whole
  short := fun p hp hne =>
    h.short (b :: p) (List.cons_prefix_cons.mpr ⟨rfl, hp⟩) fun heq => hne (List.cons.inj heq).2

theorem stable_pure (a : α) : Stable eof (fun s : List β => .ok (a, s)) := by
  intro s b rest h
  cases h
  exact ⟨[], rfl, .pure a⟩

theorem stable_fail (e : ε) :
    Stable eof (fun _ : List β => (.error e : Except ε (α × List β))) := by
  intro s a rest h
  cases h

theorem Stable.bind {r : Reader β ε α} {f : α → Reader β ε γ} (hr : Stable eof r)
    (hf : ∀ a, Stable eof (f a)) : Stable eof (fun s => r s >>= fun x => f x.1 x.2) := by
  intro s b rest h
  cases hs : r s with
  | error e => simp only [hs, Bind.bind, Except.bind, reduceCtorEq] at h
  | ok x =>
    obtain ⟨a, s'⟩ := x
    simp only [hs, Bind.bind, Except.bind] at h
    obtain ⟨c, rfl, hc⟩ := hr s a s' hs
    obtain ⟨c', rfl, hc'⟩ := hf a s' b rest h
    exact ⟨c ++ c', (List.append_assoc ..).symm, hc.bind hc'⟩

/-- A computation between two reads. -/
theorem Stable.lift {x : Except ε α} {f : α → Reader β ε γ} (hf : ∀ a, Stable eof (f a)) :
    Stable eof (fun s => x >>= fun a => f a s) := by
  cases x with
  | error e => exact stable_fail e
  | ok a => exact hf a

theorem Stable.ite {P : Prop} [Decidable P] {r r' : Reader β ε α} (hr : Stable eof r)
    (hr' : Stable eof r') : Stable eof (fun s => if P then r s else r' s) := by
  by_cases h : P
  · simpa only [h, ↓reduceIte] using hr
  · simpa only [h, ↓reduceIte] using hr'

/-! ## Languages of readers -/

/-- The reader makes `a` of just the strings of `G a`. -/
def Accepts (r : Reader β ε α) (G : α → List β → Prop) : Prop :=
  ∀ s a rest, r s = .ok (a, rest) ↔ ∃ c, s = c ++ rest ∧ G a c

theorem accepts_pure (a : α) :
    Accepts (fun s : List β => (.ok (a, s) : Except ε (α × List β))) fun b c => a = b ∧ c = [] := by
  intro s b rest
  constructor
  · rintro ⟨⟩
    exact ⟨[], rfl, rfl, rfl⟩
  · rintro ⟨c, rfl, rfl, rfl⟩
    rfl

theorem accepts_fail (e : ε) :
    Accepts (fun _ : List β => (.error e : Except ε (α × List β))) fun _ _ => False := by
  intro s a rest
  constructor
  · rintro ⟨⟩
  · rintro ⟨_, _, ⟨⟩⟩

theorem Accepts.bind {r : Reader β ε α} {f : α → Reader β ε γ} {G : α → List β → Prop}
    {H : α → γ → List β → Prop} (hr : Accepts r G) (hf : ∀ a, Accepts (f a) (H a)) :
    Accepts (fun s => r s >>= fun x => f x.1 x.2) fun b c =>
      ∃ a c₁ c₂, c = c₁ ++ c₂ ∧ G a c₁ ∧ H a b c₂ := by
  intro s b rest
  constructor
  · intro h
    cases hs : r s with
    | error e => simp only [hs, Bind.bind, Except.bind, reduceCtorEq] at h
    | ok x =>
      obtain ⟨a, s'⟩ := x
      simp only [hs, Bind.bind, Except.bind] at h
      obtain ⟨c₁, rfl, hG⟩ := (hr s a s').mp hs
      obtain ⟨c₂, rfl, hH⟩ := (hf a s' b rest).mp h
      exact ⟨c₁ ++ c₂, (List.append_assoc ..).symm, a, c₁, c₂, rfl, hG, hH⟩
  · rintro ⟨c, rfl, a, c₁, c₂, rfl, hG, hH⟩
    have hfirst := (hr (c₁ ++ (c₂ ++ rest)) a (c₂ ++ rest)).mpr ⟨c₁, rfl, hG⟩
    have hsecond := (hf a (c₂ ++ rest) b rest).mpr ⟨c₂, rfl, hH⟩
    simp only [List.append_assoc, hfirst, Bind.bind, Except.bind, hsecond]

/-- A computation between two reads. -/
theorem Accepts.lift {x : Except ε α} {f : α → Reader β ε γ} {H : α → γ → List β → Prop}
    (hf : ∀ a, Accepts (f a) (H a)) :
    Accepts (fun s => x >>= fun a => f a s) fun b c => ∃ a, x = .ok a ∧ H a b c := by
  intro s b rest
  cases x with
  | error e =>
    constructor
    · rintro ⟨⟩
    · rintro ⟨_, _, _, ⟨⟩, _⟩
  | ok a =>
    refine (hf a s b rest).trans ⟨?_, ?_⟩
    · rintro ⟨c, hs, hH⟩
      exact ⟨c, hs, a, rfl, hH⟩
    · rintro ⟨c, hs, a', hx, hH⟩
      cases hx
      exact ⟨c, hs, hH⟩

theorem Accepts.ite {P : Prop} [Decidable P] {r r' : Reader β ε α} {G G' : α → List β → Prop}
    (hr : Accepts r G) (hr' : Accepts r' G') :
    Accepts (fun s => if P then r s else r' s) fun a c => P ∧ G a c ∨ ¬ P ∧ G' a c := by
  by_cases h : P
  · simpa only [h, ↓reduceIte, true_and, not_true_eq_false, false_and, or_false] using hr
  · simpa only [h, ↓reduceIte, false_and, not_false_eq_true, true_and, false_or] using hr'

theorem Accepts.congr {r : Reader β ε α} {G G' : α → List β → Prop} (hr : Accepts r G)
    (h : ∀ a c, G a c ↔ G' a c) : Accepts r G' := by
  intro s a rest
  simp only [hr s a rest, h]

/-- What has a reader reads in one way only. -/
theorem Accepts.unique {r : Reader β ε α} {G : α → List β → Prop} (hr : Accepts r G) {a a' : α}
    {c c' t t' : List β} (h : G a c) (h' : G a' c') (heq : c ++ t = c' ++ t') :
    a = a' ∧ t = t' := by
  have hread := (hr (c ++ t) a t).mpr ⟨c, rfl, h⟩
  rw [heq, (hr (c' ++ t') a' t').mpr ⟨c', rfl, h'⟩] at hread
  cases hread
  exact ⟨rfl, rfl⟩

/-! ## What success says -/

/-- A reader that faults at the end of the stream has taken something. -/
theorem Takes.ne_nil {r : Reader β ε α} {c : List β} {a : α} (h : Takes eof r c a) {e : ε}
    (hend : r [] = .error e) : c ≠ [] := by
  rintro rfl
  have hok := h.whole []
  rw [List.append_nil, hend] at hok
  cases hok

/-- Behind a reader only the shorter inputs it may leave matter. -/
theorem Stable.bind_congr {r : Reader β ε α} (hr : Stable eof r) {s : List β}
    {f g : α × List β → Except ε γ}
    (h : ∀ a rest, rest.length ≤ s.length → f (a, rest) = g (a, rest)) :
    r s >>= f = r s >>= g := by
  cases hs : r s with
  | error e => rfl
  | ok x =>
    obtain ⟨a, rest⟩ := x
    obtain ⟨c, rfl, _⟩ := hr s a rest hs
    refine h a rest ?_
    rw [List.length_append]
    exact Nat.le_add_left ..

end Reader
