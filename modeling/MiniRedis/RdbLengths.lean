import MiniRedis.RdbRoundTrip

/-!
The length codec.  The writer packs tag and length into one word, low byte first,
so its tag falls on bit 6 of the length's low byte; the reader takes the tag from
the byte and the length from what is left of it.
-/

namespace MiniRedis.RdbEncoder

open RdbDecoder

/-- The length is refused with nothing written, or is read back with nothing
behind it touched. -/
def LenCodec (len : Nat) (t : Bytes) : Prop :=
  (writeLen len).fault ≠ none ∧ (writeLen len).written = [] ∨
    readLen ((writeLen len).written ++ t) = .ok (len, t)

/-! ## What the reader can return -/

theorem low_bits (b : UInt8) : (b &&& 0x3F).toNat < 64 := by
  rw [UInt8.toNat_and]
  exact Nat.lt_of_le_of_lt Nat.and_le_right (by decide)

/-- Every length that is read has a low byte below 64. -/
theorem readLen_readable {s rest : Bytes} {len : Nat} (h : readLen s = .ok (len, rest)) :
    Readable len := by
  obtain ⟨⟨byte, s₁⟩, _, h⟩ := Exec.bind_eq_ok.mp h
  have hlow := low_bits byte
  simp only at h
  split at h
  · cases h
    rw [Readable]
    omega
  · split at h
    · obtain ⟨⟨second, s₂⟩, _, h⟩ := Exec.bind_eq_ok.mp h
      cases h
      rw [Readable]
      omega
    · cases h

theorem lenCodec_iff (len : Nat) (t : Bytes) : LenCodec len t ↔ 2 ^ 14 ≤ len ∨ Readable len := by
  by_cases hlen : len < 2 ^ 14
  · have hok := writeLen_ok_iff.mpr hlen
    constructor
    · rintro (⟨hfault, _⟩ | hread)
      · exact absurd hok hfault
      · exact Or.inr (readLen_readable hread)
    · rintro (hlarge | hread)
      · omega
      · exact Or.inr (readLen_writeLen hlen hread t)
  · refine iff_of_true (Or.inl ⟨mt writeLen_ok_iff.mp hlen, ?_⟩) (Or.inl (by omega))
    have h6 : ¬ len < 1 <<< 6 := by omega
    have h14 : ¬ len < 1 <<< 14 := hlen
    rw [writeLen, if_neg h6, if_neg h14]
    rfl

/-! ## Lengths with one encoding -/

/-- The tag is in the first byte of a long length. -/
theorem long_tag (len : Nat) : 64 ≤ (64 ||| len) % 256 := by
  rw [show 256 = 2 ^ 8 from rfl, Nat.or_mod_two_pow]
  exact Nat.left_le_or

theorem long_lt {len : Nat} (hlen : len < 2 ^ 14) : 64 ||| len < 2 ^ 14 :=
  Nat.or_lt_two_pow (by decide) hlen

theorem ofNat_inj {a b : Nat} (ha : a < 256) (hb : b < 256) :
    UInt8.ofNat a = UInt8.ofNat b ↔ a = b := by
  refine ⟨fun h => ?_, fun h => by rw [h]⟩
  have hnatA : (UInt8.ofNat a).toNat = a := UInt8.toNat_ofNat_of_lt' ha
  have hnatB : (UInt8.ofNat b).toNat = b := UInt8.toNat_ofNat_of_lt' hb
  rw [← hnatA, h, hnatB]

/-- Two accepted lengths are written alike, or one as a prefix of the other, when
they differ in bit 6 only. -/
theorem writeLen_prefix_iff {a b : Nat} (ha : a < 2 ^ 14) (hb : b < 2 ^ 14) :
    (writeLen a).written <+: (writeLen b).written ↔
      a = b ∨ 64 ≤ a ∧ 64 ≤ b ∧ 64 ||| a = 64 ||| b := by
  have htagA := long_tag a
  have htagB := long_tag b
  have hltA := long_lt ha
  have hltB := long_lt hb
  rcases Nat.lt_or_ge a 64 with hshortA | hlongA
  · rw [writeLen_short hshortA]
    rcases Nat.lt_or_ge b 64 with hshortB | hlongB
    · rw [writeLen_short hshortB, List.cons_prefix_cons, ofNat_inj (by omega) (by omega)]
      simp only [List.nil_prefix, and_true]
      omega
    · rw [writeLen_long hlongB hb, List.cons_prefix_cons, ofNat_inj (by omega) (by omega)]
      simp only [List.nil_prefix, and_true]
      omega
  · rw [writeLen_long hlongA ha]
    rcases Nat.lt_or_ge b 64 with hshortB | hlongB
    · rw [writeLen_short hshortB, List.cons_prefix_cons, ofNat_inj (by omega) (by omega)]
      refine iff_of_false ?_ (by omega)
      rintro ⟨_, hprefix⟩
      cases List.prefix_nil.mp hprefix
    · rw [writeLen_long hlongB hb, List.cons_prefix_cons, List.cons_prefix_cons,
        ofNat_inj (by omega) (by omega), ofNat_inj (by omega) (by omega)]
      simp only [List.prefix_rfl, and_true, hlongA, hlongB, true_and]
      constructor
      · rintro ⟨hlow, hhigh⟩
        exact Or.inr (by omega)
      · rintro (rfl | hsame)
        · exact ⟨rfl, rfl⟩
        · rw [hsame]
          exact ⟨rfl, rfl⟩

/-- **A length comes back exactly when** it is refused or its low byte is below
64; and of two different accepted lengths one is written as a prefix of the
other exactly when both take two bytes and they differ in bit 6 only. -/
theorem length_codec_iff (len : Nat) :
    (∀ t, LenCodec len t ↔ 2 ^ 14 ≤ len ∨ len % 256 < 64) ∧
      ∀ other, len < 2 ^ 14 → other < 2 ^ 14 →
        ((writeLen len).written <+: (writeLen other).written ↔
          len = other ∨ 64 ≤ len ∧ 64 ≤ other ∧ 64 ||| len = 64 ||| other) :=
  ⟨lenCodec_iff len, fun _ => writeLen_prefix_iff⟩

/-- 64 is read back as 0. -/
theorem length_is_misread : ¬ ∀ len t, LenCodec len t := by
  intro h
  rcases h 64 [] with ⟨hfault, _⟩ | hread
  · exact hfault (by decide)
  · exact absurd hread (by decide)

end MiniRedis.RdbEncoder
