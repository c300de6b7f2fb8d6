import MiniRedis.Rdb
import MiniRedis.Lib.Reader

/-!
Loading a part of a snapshot, or a snapshot with more behind it.  Every reader
of the decoder is stable, on any bytes: what it has taken decides its result,
and with less of it there the load ends in an exception.
-/

namespace MiniRedis.RdbDecoder

open Reader

variable {hash : Bytes → Nat}

/-! ## Readers -/

theorem readExact_stable (len : Nat) : Stable unexpectedEOF (readExact len) := by
  intro s a rest h
  unfold readExact at h
  split at h
  · cases h
  · next hlen =>
    cases h
    refine ⟨s.take len, (List.take_append_drop ..).symm, fun t => ?_, fun p hp hne => ?_⟩
    · have htake : (s.take len).length = len := List.length_take_of_le (by omega)
      have hfit : ¬ (s.take len ++ t).length < len := by
        rw [List.length_append]
        omega
      rw [readExact, if_neg hfit, List.take_left' htake, List.drop_left' htake]
      rfl
    · have hlt : p.length < (s.take len).length := by
        by_contra hge
        exact hne (hp.eq_of_length_le (by omega))
      rw [List.length_take] at hlt
      rw [readExact, if_pos (by omega)]
      rfl

theorem readByte_takes (byte : UInt8) : Takes unexpectedEOF readByte [byte] byte where
  whole := fun _ => rfl
  short := fun p hp hne => by
    cases p with
    | nil => rfl
    | cons b p => exact absurd (hp.eq_of_length_le (by simp)) hne

theorem readByte_stable : Stable unexpectedEOF readByte := by
  intro s a rest h
  cases s with
  | nil => cases h
  | cons byte s =>
    cases h
    exact ⟨[a], rfl, readByte_takes a⟩

theorem readMagic_stable : Stable unexpectedEOF readMagic :=
  (readExact_stable 9).bind fun magic =>
    Stable.ite (P := magic.take 5 ≠ bytes "REDIS")
      (stable_fail (Fault.exception (bytes "Invalid RDB magic")))
      (Stable.ite (P := magic.drop 5 ≠ bytes "0009")
        (stable_fail (Fault.exception (bytes "Unsupported RDB version: " ++ magic.drop 5)))
        (stable_pure (magic.drop 5)))

theorem readLen_stable : Stable unexpectedEOF readLen :=
  readByte_stable.bind fun byte =>
    Stable.ite (P := byte &&& 0xC0 = 0) (stable_pure (byte &&& 0x3F).toNat)
      (Stable.ite (P := byte &&& 0xC0 = 0x40)
        (readByte_stable.bind fun second =>
          stable_pure ((byte &&& 0x3F).toNat + 256 * second.toNat))
        (stable_fail _))

theorem readString_stable : Stable unexpectedEOF readString :=
  readLen_stable.bind fun len => Stable.ite (readExact_stable len) (stable_pure [])

theorem readFields_stable (count : Nat) (hashObj : HashObject) :
    Stable unexpectedEOF (readFields hash count hashObj) := by
  induction count generalizing hashObj with
  | zero => exact stable_pure hashObj
  | succ count ih =>
    exact readString_stable.bind fun field => readString_stable.bind fun value =>
      Stable.lift (x := hashObj.setField hash field value) ih

/-! ## What the decoder leaves unread -/

/-- The loop of `readKeyValues` with the bytes behind the end-of-file opcode. -/
def keyValuesRest (hash : Bytes → Nat) : Nat → Database → Bytes → Exec (Database × Bytes)
  | 0, _, _ => throw unexpectedEOF
  | fuel + 1, data, s => do
      let (type, s) ← readByte s
      if type = RDB_OPCODE_EOF then pure (data, s)
      else do
        let (key, s) ← readString s
        if type = RDB_TYPE_STRING then do
          let (value, s) ← readString s
          keyValuesRest hash fuel (emplace key (.string value) data) s
        else if type = RDB_TYPE_HASH then do
          let (fieldCount, s) ← readLen s
          let (hashObj, s) ← readFields hash fieldCount HashObject.new s
          keyValuesRest hash fuel (emplace key (.hash hashObj) data) s
        else
          throw (.exception (bytes "Unsupported RDB type during load: " ++
            Decimal.render type.toNat))

/-- The loops with `fuel` turns each, and what they leave unread. -/
def decodeWith (hash : Bytes → Nat) (fuel : Nat) (s : Bytes) : Exec (Database × Bytes) := do
  let (_, s) ← readMagic s
  let s ← skipLoop fuel s
  keyValuesRest hash fuel ∅ s

/-- `decodeAll` with the bytes behind the end-of-file opcode it stops at. -/
def decodeRest (hash : Bytes → Nat) (s : Bytes) : Exec (Database × Bytes) := do
  let (_, s) ← readMagic s
  let s ← skipToDatabase s
  keyValuesRest hash (s.length + 1) ∅ s

theorem keyValuesLoop_eq (fuel : Nat) (data : Database) (s : Bytes) :
    keyValuesLoop hash fuel data s = (keyValuesRest hash fuel data s).map Prod.fst := by
  induction fuel generalizing data s with
  | zero => rfl
  | succ fuel ih =>
    simp only [keyValuesLoop, keyValuesRest, Exec.map_bind, apply_ite (Except.map Prod.fst), ih]
    rfl

theorem decodeAll_eq (hash : Bytes → Nat) (s : Bytes) :
    decodeAll hash s = (decodeRest hash s).map Prod.fst := by
  simp only [decodeAll, decodeRest, readKeyValues, keyValuesLoop_eq, Exec.map_bind]

/-! ## Turns -/

theorem keyValuesRest_turns {fuel fuel' : Nat} {s : Bytes} (h : s.length < fuel)
    (h' : s.length < fuel') (data : Database) :
    keyValuesRest hash fuel data s = keyValuesRest hash fuel' data s := by
  induction fuel generalizing fuel' s data with
  | zero => omega
  | succ fuel ih =>
    obtain ⟨fuel', rfl⟩ : ∃ n, fuel' = n + 1 := ⟨fuel' - 1, by omega⟩
    cases s with
    | nil => rfl
    | cons type s =>
      rw [List.length_cons] at h h'
      simp only [keyValuesRest, readByte, Exec.pure_eq, Exec.ok_bind]
      split
      · rfl
      · refine readString_stable.bind_congr fun key s₁ h₁ => ?_
        simp only
        split
        · exact readString_stable.bind_congr fun value s₂ h₂ =>
            ih (s := s₂) (by omega) (by omega) _
        · split
          · refine readLen_stable.bind_congr fun count s₂ h₂ => ?_
            refine (readFields_stable count .new).bind_congr fun o s₃ h₃ => ?_
            have h₃ : s₃.length ≤ s₂.length := h₃
            exact ih (s := s₃) (by omega) (by omega) _
          · rfl

theorem skipLoop_turns {fuel fuel' : Nat} {s : Bytes} (h : s.length < fuel)
    (h' : s.length < fuel') : skipLoop fuel s = skipLoop fuel' s := by
  induction fuel generalizing fuel' s with
  | zero => omega
  | succ fuel ih =>
    obtain ⟨fuel', rfl⟩ : ∃ n, fuel' = n + 1 := ⟨fuel' - 1, by omega⟩
    cases s with
    | nil => rfl
    | cons opcode s =>
      rw [List.length_cons] at h h'
      simp only [skipLoop, readByte, Exec.pure_eq, Exec.ok_bind]
      split
      · refine readLen_stable.bind_congr fun dbNum s₁ h₁ => ?_
        simp only
        split
        · rfl
        · exact ih (by omega) (by omega)
      · rfl

/-- `skipToDatabase` only takes bytes off the front. -/
theorem skipLoop_suffix {fuel : Nat} {s rest : Bytes} (h : skipLoop fuel s = .ok rest) :
    ∃ c, s = c ++ rest := by
  induction fuel generalizing s with
  | zero => cases h
  | succ fuel ih =>
    cases s with
    | nil => cases h
    | cons opcode s =>
      simp only [skipLoop, readByte, Exec.pure_eq, Exec.ok_bind] at h
      split at h
      · obtain ⟨⟨dbNum, s₁⟩, hlen, hrest⟩ := Exec.bind_eq_ok.mp h
        obtain ⟨c, rfl, _⟩ := readLen_stable s dbNum s₁ hlen
        simp only at hrest
        split at hrest
        · cases hrest
          exact ⟨opcode :: c, rfl⟩
        · obtain ⟨c', rfl⟩ := ih hrest
          exact ⟨opcode :: (c ++ c'), by simp⟩
      · cases h
        exact ⟨[], rfl⟩

/-- More turns than bytes change nothing. -/
theorem decodeRest_eq {fuel : Nat} {s : Bytes} (h : s.length < fuel) :
    decodeRest hash s = decodeWith hash fuel s := by
  refine readMagic_stable.bind_congr fun version s₁ h₁ => ?_
  simp only [skipToDatabase]
  rw [skipLoop_turns (Nat.lt_succ_self _) (show s₁.length < fuel by omega)]
  cases hskip : skipLoop fuel s₁ with
  | error e => rfl
  | ok s₂ =>
    obtain ⟨c, rfl⟩ := skipLoop_suffix hskip
    rw [List.length_append] at h₁
    exact keyValuesRest_turns (Nat.lt_succ_self _) (by omega) ∅

/-! ## The decoder is stable -/

theorem keyValuesRest_stable (fuel : Nat) (data : Database) :
    Stable unexpectedEOF (keyValuesRest hash fuel data) := by
  induction fuel generalizing data with
  | zero => exact stable_fail _
  | succ fuel ih =>
    exact readByte_stable.bind fun type =>
      Stable.ite (P := type = RDB_OPCODE_EOF) (stable_pure data)
        (readString_stable.bind fun key =>
          Stable.ite (P := type = RDB_TYPE_STRING)
            (readString_stable.bind fun value => ih (emplace key (.string value) data))
            (Stable.ite (P := type = RDB_TYPE_HASH)
              (readLen_stable.bind fun count => (readFields_stable count .new).bind fun o =>
                ih (emplace key (.hash o) data))
              (stable_fail (.exception (bytes "Unsupported RDB type during load: " ++
                Decimal.render type.toNat)))))

/-- An opcode put back is read again by what follows, so the two are stable
together. -/
theorem skipLoop_stable {α : Type} {k : Reader UInt8 Fault α} (hk : Stable unexpectedEOF k)
    (hend : k [] = .error unexpectedEOF) (fuel : Nat) :
    Stable unexpectedEOF (fun s => skipLoop fuel s >>= k) := by
  induction fuel with
  | zero => exact stable_fail _
  | succ fuel ih =>
    intro s a rest h
    cases s with
    | nil => cases h
    | cons opcode s =>
      by_cases hdb : opcode = RDB_OPCODE_DB
      · have hheader : Stable unexpectedEOF fun s =>
            readLen s >>= fun x => if x.1 = 0 then k x.2 else skipLoop fuel x.2 >>= k :=
          readLen_stable.bind fun dbNum => Stable.ite (P := dbNum = 0) hk ih
        have hcons : ∀ s, skipLoop (fuel + 1) (opcode :: s) >>= k =
            readLen s >>= fun x => if x.1 = 0 then k x.2 else skipLoop fuel x.2 >>= k := by
          intro s
          simp only [skipLoop, readByte, Exec.pure_eq, Exec.ok_bind, hdb, ↓reduceIte]
          cases readLen s with
          | error e => rfl
          | ok x =>
            simp only [Exec.ok_bind]
            split <;> rfl
        simp only [hcons] at h
        obtain ⟨c, rfl, hc⟩ := hheader s a rest h
        exact ⟨opcode :: c, rfl, hc.cons hcons rfl⟩
      · have hcons : ∀ s, skipLoop (fuel + 1) (opcode :: s) >>= k = k (opcode :: s) := by
          intro s
          simp only [skipLoop, readByte, Exec.pure_eq, Exec.ok_bind, hdb, ↓reduceIte]
        simp only [hcons] at h
        obtain ⟨c, hs, hc⟩ := hk _ a rest h
        obtain ⟨b, c, rfl⟩ := List.exists_cons_of_ne_nil (hc.ne_nil hend)
        obtain ⟨rfl, rfl⟩ := List.cons.inj hs
        exact ⟨opcode :: c, rfl, hc.tail.cons hcons rfl⟩

theorem decodeWith_stable (fuel : Nat) : Stable unexpectedEOF (decodeWith hash fuel) := by
  cases fuel with
  | zero =>
    exact readMagic_stable.bind fun _ => skipLoop_stable (stable_fail unexpectedEOF) rfl 0
  | succ fuel =>
    exact readMagic_stable.bind fun _ =>
      skipLoop_stable (keyValuesRest_stable (fuel + 1) ∅) rfl (fuel + 1)

/-- The key-value loop stops behind an end-of-file opcode. -/
theorem keyValuesRest_ends {fuel : Nat} {data d : Database} {s rest : Bytes}
    (h : keyValuesRest hash fuel data s = .ok (d, rest)) :
    ∃ p, s = p ++ RDB_OPCODE_EOF :: rest := by
  induction fuel generalizing data s with
  | zero => cases h
  | succ fuel ih =>
    cases s with
    | nil => cases h
    | cons type s =>
      simp only [keyValuesRest, readByte, Exec.pure_eq, Exec.ok_bind] at h
      split at h
      · next htype =>
        cases h
        exact ⟨[], by rw [htype]; rfl⟩
      · obtain ⟨⟨key, s₁⟩, hkey, hobj⟩ := Exec.bind_eq_ok.mp h
        obtain ⟨c, rfl, _⟩ := readString_stable s key s₁ hkey
        split at hobj
        · obtain ⟨⟨value, s₂⟩, hvalue, hnext⟩ := Exec.bind_eq_ok.mp hobj
          obtain ⟨c', rfl, _⟩ := readString_stable s₁ value s₂ hvalue
          obtain ⟨p, rfl⟩ := ih hnext
          exact ⟨type :: (c ++ (c' ++ p)), by simp⟩
        · split at hobj
          · obtain ⟨⟨count, s₂⟩, hcount, hfields⟩ := Exec.bind_eq_ok.mp hobj
            obtain ⟨c', rfl, _⟩ := readLen_stable s₁ count s₂ hcount
            obtain ⟨⟨o, s₃⟩, hread, hnext⟩ := Exec.bind_eq_ok.mp hfields
            obtain ⟨c'', rfl, _⟩ := readFields_stable count .new s₂ o s₃ hread
            obtain ⟨p, rfl⟩ := ih hnext
            exact ⟨type :: (c ++ (c' ++ (c'' ++ p))), by simp⟩
          · cases hobj

theorem decodeRest_ends {s rest : Bytes} {d : Database}
    (h : decodeRest hash s = .ok (d, rest)) : ∃ p, s = p ++ RDB_OPCODE_EOF :: rest := by
  obtain ⟨⟨version, s₁⟩, hmagic, hdb⟩ := Exec.bind_eq_ok.mp h
  obtain ⟨c, rfl, _⟩ := readMagic_stable s version s₁ hmagic
  obtain ⟨s₂, hskip, hkeys⟩ := Exec.bind_eq_ok.mp hdb
  obtain ⟨c', rfl⟩ := skipLoop_suffix hskip
  obtain ⟨p, rfl⟩ := keyValuesRest_ends hkeys
  exact ⟨c ++ (c' ++ p), by simp⟩

/-! ## Loading -/

theorem decodeAll_ok {f : Bytes} {d : Database} (h : decodeAll hash f = .ok d) :
    ∃ rest, decodeRest hash f = .ok (d, rest) := by
  rw [decodeAll_eq] at h
  cases hrest : decodeRest hash f with
  | error e =>
    rw [hrest] at h
    cases h
  | ok x =>
    rw [hrest] at h
    cases h
    exact ⟨x.2, rfl⟩

theorem load_ok {g rest : Bytes} {d : Database} (h : decodeRest hash g = .ok (d, rest)) :
    RdbEncoder.loadFromFile hash (some g) = .ok d := by
  rw [RdbEncoder.loadFromFile, open?, Exec.pure_eq, Exec.ok_bind, decodeAll_eq, h]
  rfl

theorem load_eof {g : Bytes} (h : decodeRest hash g = .error unexpectedEOF) :
    RdbEncoder.loadFromFile hash (some g) = .ok ∅ := by
  rw [RdbEncoder.loadFromFile, open?, Exec.pure_eq, Exec.ok_bind, decodeAll_eq, h]
  rfl

/-- What the decoder has taken of a file decides its result, whatever follows,
and no proper part of it loads. -/
theorem decodeRest_decides {c rest : Bytes} {d : Database}
    (h : decodeRest hash (c ++ rest) = .ok (d, rest)) :
    (∀ t, decodeRest hash (c ++ t) = .ok (d, t)) ∧
      ∀ p, p <+: c → p ≠ c → decodeRest hash p = .error unexpectedEOF := by
  have htakes : ∀ fuel, (c ++ rest).length < fuel →
      Takes unexpectedEOF (decodeWith hash fuel) c d := by
    intro fuel hfuel
    rw [decodeRest_eq hfuel] at h
    obtain ⟨c', hc, ht⟩ := decodeWith_stable fuel _ d rest h
    rwa [List.append_cancel_right hc]
  refine ⟨fun t => ?_, fun p hp hne => ?_⟩
  · -- enough turns for both files
    have hfuel : (c ++ rest).length < (c ++ rest).length + t.length + 1 := by omega
    have hext : (c ++ t).length < (c ++ rest).length + t.length + 1 := by
      simp only [List.length_append]
      omega
    rw [decodeRest_eq hext]
    exact (htakes _ hfuel).whole t
  · have hlt : p.length < (c ++ rest).length + 1 := by
      have hle := hp.length_le
      rw [List.length_append]
      omega
    rw [decodeRest_eq hlt]
    exact (htakes _ (Nat.lt_succ_self _)).short p hp hne

/-- A part of a file that loads holds what the decoder has taken of it, or loads
as the empty store. -/
theorem part_loads {c rest g : Bytes} {d : Database}
    (h : decodeRest hash (c ++ rest) = .ok (d, rest)) (hg : g <+: c ++ rest) :
    c <+: g ∨ RdbEncoder.loadFromFile hash (some g) = .ok ∅ := by
  by_cases hin : c <+: g
  · exact Or.inl hin
  · have hpre : g <+: c := by
      rcases List.prefix_or_prefix_of_prefix hg (List.prefix_append c rest) with h | h
      · exact h
      · exact absurd h hin
    have hne : g ≠ c := fun heq => hin (heq ▸ List.prefix_rfl)
    exact Or.inr (load_eof ((decodeRest_decides h).2 g hpre hne))

/-- **All or nothing.**  A file that decodes to `d` stops at an end-of-file
opcode.  With anything behind it it loads as `d`; a part of it loads as `d` or as
the empty store, and as `d` exactly when it holds that opcode, unless `d` is
empty. -/
theorem load_is_all_or_nothing (hash : Bytes → Nat) (f : Bytes) (d : Database)
    (h : decodeAll hash f = .ok d) :
    ∃ p rest, decodeRest hash f = .ok (d, rest) ∧ f = p ++ RDB_OPCODE_EOF :: rest ∧
      (∀ t, RdbEncoder.loadFromFile hash (some (f ++ t)) = .ok d) ∧
      (∀ g, g <+: f → RdbEncoder.loadFromFile hash (some g) = .ok d ∨
        RdbEncoder.loadFromFile hash (some g) = .ok ∅) ∧
      (d ≠ ∅ → ∀ g, g <+: f →
        (RdbEncoder.loadFromFile hash (some g) = .ok d ↔ p ++ [RDB_OPCODE_EOF] <+: g)) := by
  obtain ⟨rest, hrest⟩ := decodeAll_ok h
  obtain ⟨p, rfl⟩ := decodeRest_ends hrest
  refine ⟨p, rest, hrest, rfl, ?_⟩
  have hf : p ++ RDB_OPCODE_EOF :: rest = p ++ [RDB_OPCODE_EOF] ++ rest := by simp
  rw [hf] at hrest ⊢
  have hloads : ∀ t, RdbEncoder.loadFromFile hash (some (p ++ [RDB_OPCODE_EOF] ++ t)) = .ok d :=
    fun t => load_ok ((decodeRest_decides hrest).1 t)
  refine ⟨fun t => ?_, fun g hg => ?_, fun hne g hg => ⟨fun hd => ?_, ?_⟩⟩
  · rw [List.append_assoc _ rest t]
    exact hloads (rest ++ t)
  · rcases part_loads hrest hg with ⟨t, rfl⟩ | hempty
    · exact Or.inl (hloads t)
    · exact Or.inr hempty
  · rcases part_loads hrest hg with hin | hempty
    · exact hin
    · rw [hempty] at hd
      exact absurd (Except.ok.inj hd).symm hne
  · rintro ⟨t, rfl⟩
    exact hloads t

/-- A hash of two fields, and one byte of the checksum. -/
def smallFile : Bytes :=
  bytes "REDIS0009" ++ [0xFE, 0, 2, 1, 104, 2, 1, 97, 1, 1, 1, 98, 1, 2, 0xFF, 0]

def smallStore : Database :=
  (∅ : Database).insert [104] (.hash ⟨.ZIPLIST, .ziplist [([97], [1]), ([98], [2])]⟩)

theorem load_is_all_or_nothing_small :
    RdbEncoder.loadFromFile (fun _ => 0) (some smallFile) = .ok smallStore ∧
      ∃ p, smallFile = p ++ [0xFF, 0] := by
  obtain ⟨p, rest, hrest, hf, hext, _⟩ :=
    load_is_all_or_nothing (fun _ => 0) smallFile smallStore rfl
  refine ⟨by simpa using hext [], p, ?_⟩
  cases hrest
  exact hf

end MiniRedis.RdbDecoder
