import Mathlib.Data.Nat.Digits.Defs
import Mathlib.Tactic.IntervalCases

/-!
Decimal numbers as bytes: rendering a number, and reading digits up to the
first byte that is none.  Reading what was rendered gives the number back, and
reading digits gives the number they denote.
-/

namespace Decimal

/-- The bytes `'0'` to `'9'`. -/
def IsDigit (b : UInt8) : Prop := 48 ≤ b ∧ b ≤ 57

instance (b : UInt8) : Decidable (IsDigit b) := inferInstanceAs (Decidable (_ ∧ _))

/-- Shortest decimal form, most significant digit first. -/
def render (n : Nat) : List UInt8 := (Nat.toDigits 10 n).map fun c => UInt8.ofNat c.toNat

/-- Read leading digits onto `acc`. -/
def scan : List UInt8 → Nat → Nat
  | [], acc => acc
  | b :: s, acc => if IsDigit b then scan s (10 * acc + (b.toNat - 48)) else acc

theorem digit_byte {d : Nat} (h : d < 10) :
    IsDigit (UInt8.ofNat d.digitChar.toNat) ∧
      (UInt8.ofNat d.digitChar.toNat).toNat - 48 = d := by
  interval_cases d <;> decide

/-- The last digit comes off the end. -/
theorem render_eq (n : Nat) :
    render n = (if n < 10 then [] else render (n / 10)) ++
      [UInt8.ofNat (n % 10).digitChar.toNat] := by
  rw [render, Nat.toDigits_eq_if (by omega)]
  split
  · next h => simp [Nat.mod_eq_of_lt h]
  · simp [render]

theorem render_digits (n : Nat) : ∀ b ∈ render n, IsDigit b := by
  induction n using Nat.strongRecOn with
  | ind n ih =>
    intro b hb
    rw [render_eq, List.mem_append] at hb
    rcases hb with hb | hb
    · split at hb
      · simp at hb
      · exact ih (n / 10) (by omega) b hb
    · rw [List.mem_singleton.mp hb]
      exact (digit_byte (Nat.mod_lt _ (by omega))).1

theorem render_ne_nil (n : Nat) : render n ≠ [] := by
  rw [render_eq]
  simp

theorem scan_append {s : List UInt8} (hs : ∀ b ∈ s, IsDigit b) (t : List UInt8) (acc : Nat) :
    scan (s ++ t) acc = scan t (scan s acc) := by
  induction s generalizing acc with
  | nil => rfl
  | cons b s ih =>
    have hb := hs b (List.mem_cons_self ..)
    have hrest := ih fun c hc => hs c (List.mem_cons_of_mem b hc)
    simp only [List.cons_append, scan, hb, ↓reduceIte, hrest]

theorem scan_render (n : Nat) : scan (render n) 0 = n := by
  induction n using Nat.strongRecOn with
  | ind n ih =>
    obtain ⟨hd, hv⟩ := digit_byte (Nat.mod_lt n (by omega : 10 > 0))
    rw [render_eq]
    split
    · simp only [List.nil_append, scan, hd, ↓reduceIte, hv]
      omega
    · rw [scan_append (render_digits _), ih (n / 10) (by omega)]
      simp only [scan, hd, ↓reduceIte, hv]
      omega

/-- Reading stops at the first byte that is no digit. -/
theorem scan_stop (s : List UInt8) {b : UInt8} (hb : ¬ IsDigit b) (t : List UInt8) (acc : Nat) :
    scan (s ++ b :: t) acc = scan s acc := by
  induction s generalizing acc with
  | nil => simp [scan, hb]
  | cons c s ih => simp only [List.cons_append, scan, ih]

/-- A byte that is no digit ends the reading, whatever stands behind. -/
theorem scan_ended {s : List UInt8} (h : ∃ b ∈ s, ¬ IsDigit b) (t : List UInt8) (acc : Nat) :
    scan (s ++ t) acc = scan s acc := by
  obtain ⟨b, hmem, hb⟩ := h
  obtain ⟨front, back, rfl⟩ := List.append_of_mem hmem
  rw [List.append_assoc, List.cons_append, scan_stop front hb, scan_stop front hb]

/-- Every number below `10 ^ k` is read from `k` digits, onto any accumulator. -/
theorem exists_digits {k n : Nat} (h : n < 10 ^ k) :
    ∃ s : List UInt8, s.length = k ∧ (∀ b ∈ s, IsDigit b) ∧
      ∀ acc, scan s acc = acc * 10 ^ k + n := by
  induction k generalizing n with
  | zero =>
    refine ⟨[], rfl, by simp, fun acc => ?_⟩
    have hn : n = 0 := by simpa using h
    simp [scan, hn]
  | succ k ih =>
    have hpos : 0 < 10 ^ k := Nat.pow_pos (by omega)
    have hlead : n / 10 ^ k < 10 := Nat.div_lt_of_lt_mul (by rwa [Nat.pow_succ] at h)
    obtain ⟨s, hlen, hdigits, hscan⟩ := ih (Nat.mod_lt n hpos)
    obtain ⟨hd, hv⟩ := digit_byte hlead
    refine ⟨_ :: s, by rw [List.length_cons, hlen], List.forall_mem_cons.mpr ⟨hd, hdigits⟩,
      fun acc => ?_⟩
    rw [scan, if_pos hd, hscan, hv]
    calc (10 * acc + n / 10 ^ k) * 10 ^ k + n % 10 ^ k
      _ = acc * 10 ^ (k + 1) + (10 ^ k * (n / 10 ^ k) + n % 10 ^ k) := by ring
      _ = acc * 10 ^ (k + 1) + n := by rw [Nat.div_add_mod]

/-! ## The number denoted -/

/-- The number that decimal digits denote, most significant first. -/
def value (s : List UInt8) : Nat := Nat.ofDigits 10 (s.reverse.map fun b => b.toNat - 48)

theorem value_cons (b : UInt8) (s : List UInt8) :
    value (b :: s) = value s + 10 ^ s.length * (b.toNat - 48) := by
  rw [value, List.reverse_cons, List.map_append, Nat.ofDigits_append, List.map_singleton,
    Nat.ofDigits_singleton, List.length_map, List.length_reverse, ← value]

theorem scan_value {s : List UInt8} (hs : ∀ b ∈ s, IsDigit b) (acc : Nat) :
    scan s acc = acc * 10 ^ s.length + value s := by
  induction s generalizing acc with
  | nil => simp [scan, value]
  | cons b s ih =>
    have hb := hs b (List.mem_cons_self ..)
    have hrest := ih fun c hc => hs c (List.mem_cons_of_mem b hc)
    rw [scan, if_pos hb, hrest, value_cons, List.length_cons, Nat.pow_succ]
    ring

theorem scan_lt {s : List UInt8} (hs : ∀ b ∈ s, IsDigit b) : scan s 0 < 10 ^ s.length := by
  have hdigit : ∀ d ∈ s.reverse.map fun b => b.toNat - 48, d < 10 := by
    intro d hd
    obtain ⟨b, hb, rfl⟩ := List.mem_map.mp hd
    have hle : b.toNat ≤ 57 := UInt8.le_iff_toNat_le.mp (hs b (List.mem_reverse.mp hb)).2
    omega
  have hlt := Nat.ofDigits_lt_base_pow_length (by omega) hdigit
  rw [List.length_map, List.length_reverse] at hlt
  rw [scan_value hs, Nat.zero_mul, Nat.zero_add]
  exact hlt

theorem value_render (n : Nat) : value (render n) = n := by
  have hscan := scan_value (render_digits n) 0
  rw [scan_render, Nat.zero_mul, Nat.zero_add] at hscan
  exact hscan.symm

end Decimal
