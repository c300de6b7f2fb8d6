import MiniRedis.ProtocolRoundTrip
import MiniRedis.SetObject

/-!
Which members are integers.  `tryParseInt` looks at the bytes, then lets
`strtoll` read them, then looks at what it says; together the checks accept
exactly the signed decimal numbers that fit 64 bits.
-/

namespace MiniRedis.SetObject

open RespParser (IsSpace digit_not_space digit_ne)

/-- At least one byte, and decimal digits only. -/
def Digits (s : Bytes) : Prop := s ≠ [] ∧ ∀ b ∈ s, Decimal.IsDigit b

theorem digits_iff {s : Bytes} :
    Digits s ↔ s ≠ [] ∧ (s.all fun b => decide (Decimal.IsDigit b)) = true := by
  simp [Digits]

instance (s : Bytes) : Decidable (Digits s) := decidable_of_iff _ digits_iff.symm

/-- The integers that are spelled by an optional sign and digits. -/
inductive Denotes : Bytes → Int → Prop where
  | plain {digits : Bytes} (h : Digits digits) : Denotes digits (Decimal.value digits)
  | plus {digits : Bytes} (h : Digits digits) : Denotes (43 :: digits) (Decimal.value digits)
  | minus {digits : Bytes} (h : Digits digits) : Denotes (45 :: digits) (-(Decimal.value digits))

/-- The value fits `int64_t`. -/
def Fits (v : Int) : Prop := INT64_MIN ≤ v ∧ v ≤ INT64_MAX

instance (v : Int) : Decidable (Fits v) := inferInstanceAs (Decidable (_ ∧ _))

/-! ## `strtoll` on signed digits -/

theorem takeSign_digit {c : UInt8} (h43 : c ≠ 43) (h45 : c ≠ 45) (s : Bytes) :
    takeSign (c :: s) = (1, 0, c :: s) := by
  rw [takeSign]
  · rintro _ ⟨⟩
    exact h45 rfl
  · rintro _ ⟨⟩
    exact h43 rfl

/-- Signed digits are read to their end, and clamped when they do not fit. -/
theorem strtoll_signed {c : UInt8} {s : Bytes} (hc : ¬ IsSpace c) {sign : Int} {signLen : Nat}
    {digits : Bytes} (hsign : takeSign (c :: s) = (sign, signLen, digits))
    (hlen : signLen + digits.length = (c :: s).length) (hd : Digits digits) :
    strtoll (c :: s) =
      if sign * (Decimal.value digits : Nat) < INT64_MIN then (INT64_MIN, (c :: s).length, true)
      else if sign * (Decimal.value digits : Nat) > INT64_MAX then
        (INT64_MAX, (c :: s).length, true)
      else (sign * (Decimal.value digits : Nat), (c :: s).length, false) := by
  have hnone : (c :: s).takeWhile (fun b => decide (IsSpace b)) = [] :=
    List.takeWhile_cons_of_neg (by simpa using hc)
  have hrest : (c :: s).dropWhile (fun b => decide (IsSpace b)) = c :: s :=
    List.dropWhile_cons_of_neg (by simpa using hc)
  have hall : digits.takeWhile (fun b => decide (Decimal.IsDigit b)) = digits :=
    List.takeWhile_eq_self_iff.mpr fun b hb => by simpa using hd.2 b hb
  have hscan : Decimal.scan digits 0 = Decimal.value digits := by
    rw [Decimal.scan_value hd.2, Nat.zero_mul, Nat.zero_add]
  simp only [strtoll, hnone, hrest, hsign, hall, hd.1, ↓reduceIte, hscan, List.length_nil,
    Nat.zero_add, hlen]

/-! ## `tryParseInt` -/

/-- Behind an accepted sign `tryParseInt` asks for digits and a value that fits. -/
theorem tryParseInt_signed {c : UInt8} {s : Bytes} (hc : ¬ IsSpace c) {sign : Int} {signLen : Nat}
    {digits : Bytes} (hsign : takeSign (c :: s) = (sign, signLen, digits))
    (hlen : signLen + digits.length = (c :: s).length) (hd : Digits digits) :
    (let (val, stop, erange) := strtoll (c :: s)
      if erange ∨ stop ≠ (c :: s).length then none
      else if val < INT64_MIN ∨ val > INT64_MAX then none
      else some val) =
      if Fits (sign * (Decimal.value digits : Nat)) then
        some (sign * (Decimal.value digits : Nat)) else none := by
  rw [strtoll_signed hc hsign hlen hd]
  by_cases hlow : sign * (Decimal.value digits : Nat) < INT64_MIN
  · have hfits : ¬ Fits (sign * (Decimal.value digits : Nat)) := fun h => by
      have := h.1
      omega
    simp only [hlow, hfits, ↓reduceIte, true_or]
  · by_cases hhigh : sign * (Decimal.value digits : Nat) > INT64_MAX
    · have hfits : ¬ Fits (sign * (Decimal.value digits : Nat)) := fun h => by
        have := h.2
        omega
      simp only [hlow, hhigh, hfits, ↓reduceIte, true_or]
    · have hfits : Fits (sign * (Decimal.value digits : Nat)) := ⟨by omega, by omega⟩
      simp [hlow, hhigh, hfits]

/-- A sign is followed by the digits. -/
theorem tryParseInt_sign {c : UInt8} (hc : c = 43 ∨ c = 45) {sign : Int} {s : Bytes}
    (hsign : takeSign (c :: s) = (sign, 1, s)) :
    tryParseInt (c :: s) =
      if Digits s ∧ Fits (sign * (Decimal.value s : Nat)) then
        some (sign * (Decimal.value s : Nat)) else none := by
  have hspace : ¬ IsSpace c := by rcases hc with rfl | rfl <;> decide
  by_cases hne : s = []
  · subst hne
    have hnot : ¬ Digits [] := fun h => h.1 rfl
    simp only [tryParseInt, hc, hnot, true_and, false_and, ↓reduceIte]
  · by_cases hd : (s.all fun b => decide (Decimal.IsDigit b)) = true
    · have hdigits : Digits s := digits_iff.mpr ⟨hne, hd⟩
      have hlen : 1 + s.length = (c :: s).length := by rw [List.length_cons, Nat.add_comm]
      rw [tryParseInt, if_neg (by simp [hne])]
      simp only [hc, hdigits, true_and, ↓reduceIte]
      rw [if_neg (not_not.mpr hd)]
      exact tryParseInt_signed hspace hsign hlen hdigits
    · have hnot : ¬ Digits s := fun h => hd (digits_iff.mp h).2
      rw [tryParseInt, if_neg (by simp [hne])]
      simp only [hc, hnot, false_and, ↓reduceIte]
      exact if_pos hd

/-- Without a sign the digits start at once. -/
theorem tryParseInt_plain {c : UInt8} (h43 : c ≠ 43) (h45 : c ≠ 45) (s : Bytes) :
    tryParseInt (c :: s) =
      if Digits (c :: s) ∧ Fits ((Decimal.value (c :: s) : Nat) : Int) then
        some ((Decimal.value (c :: s) : Nat) : Int) else none := by
  have hc : ¬ (c = 43 ∨ c = 45) := fun h => h.elim h43 h45
  by_cases hd : ((c :: s).all fun b => decide (Decimal.IsDigit b)) = true
  · have hdigits : Digits (c :: s) := digits_iff.mpr ⟨List.cons_ne_nil _ _, hd⟩
    have hspace := digit_not_space (hdigits.2 c (List.mem_cons_self ..))
    have hrun := tryParseInt_signed hspace (takeSign_digit h43 h45 s) (Nat.zero_add _) hdigits
    rw [Int.one_mul] at hrun
    rw [tryParseInt]
    simp only [hc, hdigits, true_and, false_and, ↓reduceIte]
    rw [if_neg (not_not.mpr hd)]
    exact hrun
  · have hnot : ¬ Digits (c :: s) := fun h => hd (digits_iff.mp h).2
    rw [tryParseInt]
    simp only [hc, hnot, false_and, ↓reduceIte]
    exact if_pos hd

/-! ## The language accepted -/

theorem denotes_plus {s : Bytes} {v : Int} :
    Denotes (43 :: s) v ↔ Digits s ∧ v = Decimal.value s := by
  constructor
  · intro h
    cases h with
    | plain h => exact absurd (h.2 43 (List.mem_cons_self ..)) (by decide)
    | plus h => exact ⟨h, rfl⟩
  · rintro ⟨h, rfl⟩
    exact .plus h

theorem denotes_minus {s : Bytes} {v : Int} :
    Denotes (45 :: s) v ↔ Digits s ∧ v = -(Decimal.value s : Int) := by
  constructor
  · intro h
    cases h with
    | plain h => exact absurd (h.2 45 (List.mem_cons_self ..)) (by decide)
    | minus h => exact ⟨h, rfl⟩
  · rintro ⟨h, rfl⟩
    exact .minus h

theorem denotes_plain {c : UInt8} (h43 : c ≠ 43) (h45 : c ≠ 45) {s : Bytes} {v : Int} :
    Denotes (c :: s) v ↔ Digits (c :: s) ∧ v = Decimal.value (c :: s) := by
  constructor
  · intro h
    cases h with
    | plain h => exact ⟨h, rfl⟩
    | plus _ => exact absurd rfl h43
    | minus _ => exact absurd rfl h45
  · rintro ⟨h, rfl⟩
    exact .plain h

theorem accepts_iff {p : Prop} [Decidable p] {w v : Int} :
    (if p ∧ Fits w then some w else none) = some v ↔ (p ∧ v = w) ∧ Fits v := by
  constructor
  · intro h
    split at h
    · next hp =>
      cases h
      exact ⟨⟨hp.1, rfl⟩, hp.2⟩
    · cases h
  · rintro ⟨⟨hp, rfl⟩, hfits⟩
    exact if_pos ⟨hp, hfits⟩

theorem tryParseInt_iff (s : Bytes) (v : Int) :
    tryParseInt s = some v ↔ Denotes s v ∧ Fits v := by
  cases s with
  | nil =>
    refine iff_of_false (by simp [tryParseInt]) ?_
    rintro ⟨⟨h⟩, _⟩
    exact h.1 rfl
  | cons c s =>
    by_cases h43 : c = 43
    · subst h43
      rw [tryParseInt_sign (Or.inl rfl) rfl, accepts_iff, denotes_plus, Int.one_mul]
    · by_cases h45 : c = 45
      · subst h45
        rw [tryParseInt_sign (Or.inr rfl) rfl, accepts_iff, denotes_minus, Int.neg_one_mul]
      · rw [tryParseInt_plain h43 h45, accepts_iff, denotes_plain h43 h45]

theorem render_digits (n : Nat) : Digits (Decimal.render n) :=
  ⟨Decimal.render_ne_nil n, Decimal.render_digits n⟩

theorem denotes_toString (v : Int) : Denotes (RespParser.toString v) v := by
  rw [RespParser.toString]
  split
  · next hneg =>
    have h := Denotes.minus (render_digits v.natAbs)
    rw [Decimal.value_render] at h
    have hv : -(v.natAbs : Int) = v := by omega
    rwa [hv] at h
  · next hneg =>
    have h := Denotes.plain (render_digits v.toNat)
    rw [Decimal.value_render] at h
    have hv : (v.toNat : Int) = v := by omega
    rwa [hv] at h

theorem tryParseInt_toString {v : Int} (h : Fits v) :
    tryParseInt (RespParser.toString v) = some v :=
  (tryParseInt_iff _ v).mpr ⟨denotes_toString v, h⟩

theorem Denotes.unique {s : Bytes} {v w : Int} (hv : Denotes s v) (hw : Denotes s w) : v = w := by
  cases s with
  | nil =>
    cases hv with
    | plain h => exact absurd rfl h.1
  | cons c s =>
    by_cases h43 : c = 43
    · subst h43
      rw [(denotes_plus.mp hv).2, (denotes_plus.mp hw).2]
    · by_cases h45 : c = 45
      · subst h45
        rw [(denotes_minus.mp hv).2, (denotes_minus.mp hw).2]
      · rw [((denotes_plain h43 h45).mp hv).2, ((denotes_plain h43 h45).mp hw).2]

/-- Different integers are rendered differently. -/
theorem toString_injective {v w : Int} (h : RespParser.toString v = RespParser.toString w) :
    v = w :=
  (denotes_toString v).unique (h ▸ denotes_toString w)

/-- **Exactly the 64-bit integers are recognised**: an optional sign, digits and
nothing else, whose number fits; and every rendered integer that fits. -/
theorem integers_are_recognised :
    (∀ s v, tryParseInt s = some v ↔ Denotes s v ∧ Fits v) ∧
      ∀ v, tryParseInt (RespParser.toString v) = some v ↔ Fits v := by
  refine ⟨tryParseInt_iff, fun v => ?_⟩
  rw [tryParseInt_iff]
  exact and_iff_right (denotes_toString v)

end MiniRedis.SetObject
