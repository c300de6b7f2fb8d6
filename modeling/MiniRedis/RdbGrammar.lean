import MiniRedis.FieldCounts
import MiniRedis.PartialLoad
import MiniRedis.RdbLengths

/-!
The files that the loader takes.  A file is read in one way only: as a magic
string, headers of databases, and pairs up to an end-of-file opcode.  Of the
pairs with one key the first is kept, of the fields of one hash the last.
Everything else is loaded as the empty store.
-/

namespace MiniRedis.RdbDecoder

open Reader RdbEncoder

variable {hash : Bytes → Nat}

/-! ## The grammar -/

/-- A length: one byte, or the low byte with bit 6 set and the high byte. -/
inductive LenBytes : Nat → Bytes → Prop
  | short {n : Nat} : n < 64 → LenBytes n [UInt8.ofNat n]
  | long {low : Nat} (high : UInt8) : low < 64 →
      LenBytes (low + 256 * high.toNat) [UInt8.ofNat (64 + low), high]

inductive StringBytes : Bytes → Bytes → Prop
  | mk {str len : Bytes} : LenBytes str.length len → StringBytes str (len ++ str)

inductive FieldsBytes : List HashEntry → Bytes → Prop
  | nil : FieldsBytes [] []
  | cons {kv : HashEntry} {l : List HashEntry} {field value s : Bytes} :
      StringBytes kv.1 field → StringBytes kv.2 value → FieldsBytes l s →
      FieldsBytes (kv :: l) (field ++ (value ++ s))

/-- What stands under a key of a file: a string, or fields in their order. -/
inductive Value where
  | string (value : Bytes)
  | hash (l : List HashEntry)

/-- A value behind its type and its key. -/
inductive ValueBytes : UInt8 → Value → Bytes → Prop
  | string {value s : Bytes} : StringBytes value s →
      ValueBytes RDB_TYPE_STRING (.string value) s
  | hash {l : List HashEntry} {count s : Bytes} : LenBytes l.length count → FieldsBytes l s →
      ValueBytes RDB_TYPE_HASH (.hash l) (count ++ s)

inductive PairsBytes : List (Bytes × Value) → Bytes → Prop
  | nil : PairsBytes [] []
  | cons {key k s rest : Bytes} {type : UInt8} {value : Value} {pairs : List (Bytes × Value)} :
      StringBytes key k → ValueBytes type value s → PairsBytes pairs rest →
      PairsBytes ((key, value) :: pairs) (type :: (k ++ (s ++ rest)))

/-- Headers of other databases, and then perhaps the one of database 0. -/
inductive HeaderBytes : Bytes → Prop
  | none : HeaderBytes []
  | zero {n : Bytes} : LenBytes 0 n → HeaderBytes (RDB_OPCODE_DB :: n)
  | other {dbNum : Nat} {n h : Bytes} : LenBytes dbNum n → dbNum ≠ 0 → HeaderBytes h →
      HeaderBytes (RDB_OPCODE_DB :: (n ++ h))

/-- Whatever follows the end-of-file opcode is not looked at. -/
inductive FileBytes : List (Bytes × Value) → Bytes → Prop
  | mk {pairs : List (Bytes × Value)} {h s : Bytes} (rest : Bytes) : HeaderBytes h →
      PairsBytes pairs s →
      FileBytes pairs (bytes "REDIS" ++ bytes "0009" ++ (h ++ (s ++ RDB_OPCODE_EOF :: rest)))

/-! ## What a file says -/

/-- The object that is built of a value. -/
def Value.object (hash : Bytes → Nat) : Value → Exec RedisObject
  | .string value => pure (.string value)
  | .hash l => do
      let hashObj ← setAll hash l .new
      pure (.hash hashObj)

/-- The store with the pairs in it, the first one of every key. -/
def gather (hash : Bytes → Nat) : List (Bytes × Value) → Database → Exec Database
  | [], data => pure data
  | (key, value) :: pairs, data => do
      let obj ← value.object hash
      gather hash pairs (emplace key obj data)

/-- What a value stands for: of the fields with one name the last one counts. -/
def Value.ref : Value → RefObject
  | .string value => .string value
  | .hash l => .hash (AssocList.bindAll (fun _ => none) l)

/-- Building the value writes behind no migration. -/
def Value.LoadsUnmigrated (hash : Bytes → Nat) : Value → Prop
  | .string _ => True
  | .hash l => RdbEncoder.LoadsUnmigrated hash .new l

/-- The store that the pairs stand for. -/
def refStore (pairs : List (Bytes × Value)) : RefStore :=
  fun key => (pairs.lookup key).map Value.ref

/-! ## Readers of the grammar -/

theorem readExact_accepts (len : Nat) :
    Accepts (readExact len) fun a c => a = c ∧ c.length = len := by
  intro s a rest
  unfold readExact
  constructor
  · split
    · rintro ⟨⟩
    · next hlen =>
      rintro ⟨⟩
      exact ⟨s.take len, (List.take_append_drop ..).symm, rfl, List.length_take_of_le (by omega)⟩
  · rintro ⟨c, rfl, rfl, rfl⟩
    have hfit : ¬ (a ++ rest).length < a.length := by
      rw [List.length_append]
      omega
    rw [if_neg hfit, List.take_left, List.drop_left]
    rfl

theorem readByte_accepts : Accepts readByte fun b c => c = [b] := by
  intro s b rest
  cases s with
  | nil => simp [readByte]
  | cons byte s => simp [readByte, eq_comm]

/-- The first byte of a length has one of two tags, or none that is read. -/
theorem tag_cases : ∀ n < 256, (UInt8.ofNat n &&& 0xC0 = 0 → n < 64) ∧
    (UInt8.ofNat n &&& 0xC0 = 0x40 → 64 ≤ n ∧ n < 128) := by
  decide +kernel

theorem readLen_accepts : Accepts readLen LenBytes := by
  intro s n rest
  constructor
  · intro h
    obtain ⟨⟨byte, s₁⟩, hbyte, hrest⟩ := Exec.bind_eq_ok.mp h
    obtain ⟨_, rfl, rfl⟩ := (readByte_accepts s byte s₁).mp hbyte
    obtain ⟨hshort, hlong⟩ := tag_cases byte.toNat byte.toNat_lt
    rw [UInt8.ofNat_toNat] at hshort hlong
    simp only at hrest
    split at hrest
    · next htag =>
      cases hrest
      have hval := (short_byte byte.toNat (hshort htag)).2
      rw [UInt8.ofNat_toNat] at hval
      rw [hval]
      refine ⟨[byte], rfl, ?_⟩
      have hlen := LenBytes.short (hshort htag)
      rwa [UInt8.ofNat_toNat] at hlen
    · split at hrest
      · next htag =>
        obtain ⟨⟨second, s₂⟩, hsecond, hlen⟩ := Exec.bind_eq_ok.mp hrest
        obtain ⟨_, rfl, rfl⟩ := (readByte_accepts s₁ second s₂).mp hsecond
        cases hlen
        obtain ⟨hge, hlt⟩ := hlong htag
        have hlow : byte.toNat = 64 + (byte.toNat - 64) := by omega
        have hval := (long_byte (byte.toNat - 64) (by omega)).2
        rw [← hlow, UInt8.ofNat_toNat] at hval
        rw [hval]
        refine ⟨[byte, second], rfl, ?_⟩
        have hlen := LenBytes.long second (show byte.toNat - 64 < 64 by omega)
        rwa [← hlow, UInt8.ofNat_toNat] at hlen
      · cases hrest
  · rintro ⟨c, rfl, hc⟩
    cases hc with
    | short hn =>
      obtain ⟨htag, hval⟩ := short_byte n hn
      simp only [List.cons_append, List.nil_append, readLen, readByte, Exec.pure_eq, Exec.ok_bind,
        htag, ↓reduceIte, hval]
    | @long low high hlow =>
      obtain ⟨htag, hval⟩ := long_byte low hlow
      have hzero : (0x40 : UInt8) ≠ 0 := by decide
      simp only [List.cons_append, List.nil_append, readLen, readByte, Exec.pure_eq, Exec.ok_bind,
        htag, hzero, ↓reduceIte, hval]

theorem readString_accepts : Accepts readString StringBytes := by
  refine (readLen_accepts.bind fun len =>
    (readExact_accepts len).ite (P := len > 0) (accepts_pure [])).congr fun str c => ?_
  constructor
  · rintro ⟨len, c₁, c₂, rfl, hlen, ⟨_, rfl, rfl⟩ | ⟨hzero, rfl, rfl⟩⟩
    · exact .mk hlen
    · obtain rfl : len = 0 := by omega
      exact .mk hlen
  · rintro ⟨hlen⟩
    refine ⟨str.length, _, str, rfl, hlen, ?_⟩
    rcases Nat.eq_zero_or_pos str.length with hzero | hpos
    · rw [List.length_eq_zero_iff.mp hzero]
      exact Or.inr ⟨Nat.lt_irrefl 0, rfl, rfl⟩
    · exact Or.inl ⟨hpos, rfl, rfl⟩

theorem readFields_accepts (hash : Bytes → Nat) (count : Nat) (hashObj : HashObject) :
    Accepts (readFields hash count hashObj) fun o c =>
      ∃ l, l.length = count ∧ FieldsBytes l c ∧ setAll hash l hashObj = .ok o := by
  induction count generalizing hashObj with
  | zero =>
    refine (accepts_pure hashObj).congr fun o c => ?_
    constructor
    · rintro ⟨rfl, rfl⟩
      exact ⟨[], rfl, .nil, rfl⟩
    · rintro ⟨l, hl, hc, hset⟩
      rw [List.length_eq_zero_iff.mp hl] at hc hset
      cases hc
      cases hset
      exact ⟨rfl, rfl⟩
  | succ count ih =>
    refine (readString_accepts.bind fun field => readString_accepts.bind fun value =>
      Accepts.lift (x := hashObj.setField hash field value) ih).congr fun o c => ?_
    constructor
    · rintro ⟨field, f, c₁, rfl, hf, value, v, c₂, rfl, hv, o₁, hset, l, hl, hc, hrest⟩
      refine ⟨(field, value) :: l, by rw [List.length_cons, hl], .cons hf hv hc, ?_⟩
      simp only [setAll, hset, Exec.ok_bind, hrest]
    · rintro ⟨l, hl, hc, hset⟩
      cases hc with
      | nil => cases hl
      | @cons kv l f v s hf hv hc =>
        obtain ⟨o₁, hkv, hrest⟩ := Exec.bind_eq_ok.mp hset
        exact ⟨kv.1, f, _, rfl, hf, kv.2, v, s, rfl, hv, o₁, hkv, l, Nat.succ.inj hl, hc, hrest⟩

/-- The loop takes pairs up to an end-of-file opcode. -/
theorem keyValuesRest_accepts (fuel : Nat) (data : Database) :
    Accepts (keyValuesRest hash fuel data) fun db c => ∃ pairs s, pairs.length < fuel ∧
      PairsBytes pairs s ∧ c = s ++ [RDB_OPCODE_EOF] ∧ gather hash pairs data = .ok db := by
  induction fuel generalizing data with
  | zero =>
    refine (accepts_fail unexpectedEOF).congr fun db c => ⟨False.elim, ?_⟩
    rintro ⟨pairs, s, hlen, _⟩
    exact absurd hlen (Nat.not_lt_zero _)
  | succ fuel ih =>
    have hreader := readByte_accepts.bind fun type =>
      (accepts_pure data).ite (P := type = RDB_OPCODE_EOF)
        (readString_accepts.bind fun key =>
          (readString_accepts.bind fun value => ih (emplace key (.string value) data)).ite
            (P := type = RDB_TYPE_STRING)
            ((readLen_accepts.bind fun count => (readFields_accepts hash count .new).bind fun o =>
              ih (emplace key (.hash o) data)).ite (P := type = RDB_TYPE_HASH)
                (accepts_fail (.exception (bytes "Unsupported RDB type during load: " ++
                  Decimal.render type.toNat)))))
    refine Accepts.congr hreader fun db c => ⟨?_, ?_⟩
    · rintro ⟨type, c₁, c₂, rfl, rfl, ⟨rfl, rfl, rfl⟩ | ⟨_, key, k, c₃, rfl, hk, hvalue⟩⟩
      · exact ⟨[], [], Nat.succ_pos fuel, .nil, rfl, rfl⟩
      · rcases hvalue with ⟨rfl, value, v, c₄, rfl, hv, pairs, s, hlen, hp, rfl, hg⟩ |
          ⟨_, ⟨rfl, count, n, c₄, rfl, hn, o, f, c₅, rfl, ⟨l, rfl, hf, hset⟩, pairs, s, hlen, hp,
            rfl, hg⟩ | ⟨_, ⟨⟩⟩⟩
        · exact ⟨(key, .string value) :: pairs, _, Nat.succ_lt_succ hlen, .cons hk (.string hv) hp,
            by simp, hg⟩
        · refine ⟨(key, .hash l) :: pairs, _, Nat.succ_lt_succ hlen, .cons hk (.hash hn hf) hp,
            by simp, ?_⟩
          simp only [gather, Value.object, hset, Exec.ok_bind, Exec.pure_eq, hg]
    · rintro ⟨pairs, s, hlen, hp, rfl, hg⟩
      cases hp with
      | nil =>
        cases hg
        exact ⟨RDB_OPCODE_EOF, _, [], rfl, rfl, Or.inl ⟨rfl, rfl, rfl⟩⟩
      | @cons key k s rest type value pairs hk hv hp =>
        obtain ⟨obj, hobj, hg⟩ := Exec.bind_eq_ok.mp hg
        have hfuel := Nat.lt_of_succ_lt_succ hlen
        refine ⟨type, [type], k ++ (s ++ (rest ++ [RDB_OPCODE_EOF])), by simp, rfl, Or.inr ?_⟩
        cases hv with
        | @string v s hv =>
          cases hobj
          exact ⟨by decide, key, k, _, rfl, hk,
            Or.inl ⟨rfl, v, s, _, rfl, hv, pairs, rest, hfuel, hp, rfl, hg⟩⟩
        | @hash l count s hcount hf =>
          obtain ⟨o, hset, ho⟩ := Exec.bind_eq_ok.mp hobj
          cases ho
          exact ⟨by decide, key, k, _, rfl, hk, Or.inr ⟨by decide, Or.inl ⟨rfl, l.length, count, _,
            List.append_assoc .., hcount, o, s, _, rfl, ⟨l, rfl, hf, hset⟩, pairs, rest, hfuel, hp,
            rfl, hg⟩⟩⟩

/-! ## Files -/

theorem skipLoop_skips {fuel : Nat} {s rest : Bytes} (h : skipLoop fuel s = .ok rest) :
    ∃ head, s = head ++ rest ∧ HeaderBytes head := by
  induction fuel generalizing s with
  | zero => cases h
  | succ fuel ih =>
    cases s with
    | nil => cases h
    | cons opcode s =>
      simp only [skipLoop, readByte, Exec.pure_eq, Exec.ok_bind] at h
      split at h
      · next hdb =>
        subst hdb
        obtain ⟨⟨dbNum, s₁⟩, hlen, hrest⟩ := Exec.bind_eq_ok.mp h
        obtain ⟨n, rfl, hn⟩ := (readLen_accepts s dbNum s₁).mp hlen
        simp only at hrest
        split at hrest
        · next hzero =>
          cases hrest
          exact ⟨RDB_OPCODE_DB :: n, rfl, .zero (hzero ▸ hn)⟩
        · next hother =>
          obtain ⟨head, rfl, hhead⟩ := ih hrest
          exact ⟨RDB_OPCODE_DB :: (n ++ head), by simp, .other hn hother hhead⟩
      · cases h
        exact ⟨[], rfl, .none⟩

/-- The headers are skipped in front of anything that is no header. -/
theorem skipLoop_header {head : Bytes} (h : HeaderBytes head) {opcode : UInt8}
    (hop : opcode ≠ RDB_OPCODE_DB) (t : Bytes) {fuel : Nat}
    (hfuel : (head ++ opcode :: t).length < fuel) :
    skipLoop fuel (head ++ opcode :: t) = .ok (opcode :: t) := by
  induction h generalizing fuel with
  | none =>
    obtain ⟨fuel, rfl⟩ := Nat.exists_eq_succ_of_ne_zero (Nat.ne_zero_of_lt hfuel)
    simp only [List.nil_append, skipLoop, readByte, Exec.pure_eq, Exec.ok_bind, hop, ↓reduceIte]
  | @zero n hn =>
    obtain ⟨fuel, rfl⟩ := Nat.exists_eq_succ_of_ne_zero (Nat.ne_zero_of_lt hfuel)
    have hlen := (readLen_accepts (n ++ opcode :: t) 0 (opcode :: t)).mpr ⟨n, rfl, hn⟩
    simp only [List.cons_append, skipLoop, readByte, Exec.pure_eq, Exec.ok_bind, ↓reduceIte, hlen]
  | @other dbNum n head hn hother _ ih =>
    obtain ⟨fuel, rfl⟩ := Nat.exists_eq_succ_of_ne_zero (Nat.ne_zero_of_lt hfuel)
    have hlen := (readLen_accepts _ dbNum (head ++ opcode :: t)).mpr ⟨n, rfl, hn⟩
    have hfuel : (head ++ opcode :: t).length < fuel := by
      simp only [List.cons_append, List.append_assoc, List.length_cons, List.length_append]
        at hfuel ⊢
      omega
    simp only [List.cons_append, List.append_assoc, skipLoop, readByte, Exec.pure_eq, Exec.ok_bind,
      ↓reduceIte, hlen, hother, ih hfuel]

theorem PairsBytes.opens {pairs : List (Bytes × Value)} {s : Bytes} (h : PairsBytes pairs s)
    (t : Bytes) : ∃ opcode rest, s ++ RDB_OPCODE_EOF :: t = opcode :: rest ∧
      opcode ≠ RDB_OPCODE_DB := by
  cases h with
  | nil => exact ⟨_, _, rfl, by decide⟩
  | cons _ hv _ =>
    refine ⟨_, _, rfl, ?_⟩
    cases hv with
    | string _ => exact (by decide : RDB_TYPE_STRING ≠ RDB_OPCODE_DB)
    | hash _ _ => exact (by decide : RDB_TYPE_HASH ≠ RDB_OPCODE_DB)

theorem PairsBytes.length_le {pairs : List (Bytes × Value)} {s : Bytes} (h : PairsBytes pairs s) :
    pairs.length ≤ s.length := by
  induction h with
  | nil => exact Nat.le_refl 0
  | cons _ _ _ ih =>
    simp only [List.length_cons, List.length_append]
    omega

theorem readMagic_accepts : Accepts readMagic fun version c =>
    version = bytes "0009" ∧ c = bytes "REDIS" ++ bytes "0009" := by
  refine Accepts.congr ((readExact_accepts 9).bind fun magic =>
    (accepts_fail (Fault.exception (bytes "Invalid RDB magic"))).ite
      (P := magic.take 5 ≠ bytes "REDIS")
      ((accepts_fail (Fault.exception (bytes "Unsupported RDB version: " ++ magic.drop 5))).ite
        (P := magic.drop 5 ≠ bytes "0009") (accepts_pure (magic.drop 5)))) fun version c => ⟨?_, ?_⟩
  · rintro ⟨magic, _, _, rfl, ⟨rfl, hlen⟩, ⟨_, ⟨⟩⟩ | ⟨hmagic, ⟨_, ⟨⟩⟩ | ⟨hversion, rfl, rfl⟩⟩⟩
    have hsplit := List.take_append_drop 5 magic
    rw [not_not.mp hmagic, not_not.mp hversion] at hsplit
    exact ⟨not_not.mp hversion, by rw [List.append_nil, hsplit]⟩
  · rintro ⟨rfl, rfl⟩
    exact ⟨bytes "REDIS" ++ bytes "0009", _, [], rfl, ⟨rfl, by decide⟩,
      Or.inr ⟨by decide, Or.inr ⟨by decide, by decide, rfl⟩⟩⟩

/-- The decoder takes the files of the grammar, and builds what they say. -/
theorem decodeAll_iff (f : Bytes) (db : Database) :
    decodeAll hash f = .ok db ↔ ∃ pairs, FileBytes pairs f ∧ gather hash pairs ∅ = .ok db := by
  constructor
  · intro h
    obtain ⟨rest, hrest⟩ := decodeAll_ok h
    obtain ⟨⟨version, s₁⟩, hmagic, hdb⟩ := Exec.bind_eq_ok.mp hrest
    obtain ⟨_, rfl, rfl, rfl⟩ := (readMagic_accepts f version s₁).mp hmagic
    obtain ⟨s₂, hskip, hkeys⟩ := Exec.bind_eq_ok.mp hdb
    obtain ⟨head, rfl, hhead⟩ := skipLoop_skips hskip
    obtain ⟨_, rfl, pairs, s, _, hp, rfl, hg⟩ := (keyValuesRest_accepts _ ∅ s₂ db rest).mp hkeys
    refine ⟨pairs, ?_, hg⟩
    rw [List.append_assoc s]
    exact .mk rest hhead hp
  · rintro ⟨pairs, hf, hg⟩
    cases hf with
    | @mk head s rest hhead hp =>
      obtain ⟨opcode, t, hopens, hop⟩ := hp.opens rest
      have hmagic := (readMagic_accepts _ _ (head ++ (s ++ RDB_OPCODE_EOF :: rest))).mpr
        ⟨bytes "REDIS" ++ bytes "0009", rfl, rfl, rfl⟩
      have hskip := skipLoop_header hhead hop t (Nat.lt_succ_self _)
      rw [← hopens] at hskip
      have hfuel : pairs.length < (s ++ RDB_OPCODE_EOF :: rest).length + 1 := by
        have hle := hp.length_le
        rw [List.length_append]
        omega
      have hsplit : s ++ RDB_OPCODE_EOF :: rest = s ++ [RDB_OPCODE_EOF] ++ rest := by simp
      have hkeys := (keyValuesRest_accepts _ ∅ (s ++ RDB_OPCODE_EOF :: rest) db rest).mpr
        ⟨_, hsplit, pairs, s, hfuel, hp, rfl, hg⟩
      rw [decodeAll, hmagic]
      simp only [Exec.ok_bind, skipToDatabase, hskip, readKeyValues, keyValuesLoop_eq, hkeys]
      rfl

/-! ## One way to read a file -/

theorem FieldsBytes.unique {l l' : List HashEntry} {c c' t t' : Bytes} (h : FieldsBytes l c)
    (h' : FieldsBytes l' c') (hlen : l.length = l'.length) (heq : c ++ t = c' ++ t') :
    l = l' ∧ t = t' := by
  induction h generalizing l' c' with
  | nil =>
    cases h' with
    | nil => exact ⟨rfl, heq⟩
    | cons _ _ _ => cases hlen
  | @cons kv l field value s hfield hvalue _ ih =>
    cases h' with
    | nil => cases hlen
    | @cons kv' l' field' value' s' hfield' hvalue' hrest' =>
      simp only [List.append_assoc] at heq
      obtain ⟨hname, heq⟩ := readString_accepts.unique hfield hfield' heq
      obtain ⟨hval, heq⟩ := readString_accepts.unique hvalue hvalue' heq
      obtain ⟨rfl, rfl⟩ := ih hrest' (Nat.succ.inj hlen) heq
      exact ⟨by rw [Prod.ext hname hval], rfl⟩

theorem ValueBytes.unique {type : UInt8} {value value' : Value} {c c' t t' : Bytes}
    (h : ValueBytes type value c) (h' : ValueBytes type value' c') (heq : c ++ t = c' ++ t') :
    value = value' ∧ t = t' := by
  generalize htype : type = type' at h'
  cases h with
  | string hstr =>
    cases h' with
    | string hstr' =>
      obtain ⟨rfl, rfl⟩ := readString_accepts.unique hstr hstr' heq
      exact ⟨rfl, rfl⟩
    | hash _ _ => exact absurd htype (by decide)
  | hash hcount hfields =>
    cases h' with
    | string _ => exact absurd htype (by decide)
    | hash hcount' hfields' =>
      simp only [List.append_assoc] at heq
      obtain ⟨hlen, heq⟩ := readLen_accepts.unique hcount hcount' heq
      obtain ⟨rfl, rfl⟩ := hfields.unique hfields' hlen heq
      exact ⟨rfl, rfl⟩

theorem ValueBytes.not_end {value : Value} {c : Bytes} : ¬ ValueBytes RDB_OPCODE_EOF value c := by
  generalize htype : RDB_OPCODE_EOF = type
  rintro (_ | _)
  · exact absurd htype (by decide)
  · exact absurd htype (by decide)

theorem PairsBytes.unique {pairs pairs' : List (Bytes × Value)} {c c' t t' : Bytes}
    (h : PairsBytes pairs c) (h' : PairsBytes pairs' c')
    (heq : c ++ RDB_OPCODE_EOF :: t = c' ++ RDB_OPCODE_EOF :: t') : pairs = pairs' := by
  induction h generalizing pairs' c' with
  | nil =>
    cases h' with
    | nil => rfl
    | cons _ hv _ =>
      obtain ⟨rfl, _⟩ := List.cons.inj heq
      exact absurd hv ValueBytes.not_end
  | cons hk hv _ ih =>
    cases h' with
    | nil =>
      obtain ⟨rfl, _⟩ := List.cons.inj heq
      exact absurd hv ValueBytes.not_end
    | cons hk' hv' hrest' =>
      simp only [List.cons_append, List.append_assoc] at heq
      obtain ⟨rfl, htail⟩ := List.cons.inj heq
      obtain ⟨rfl, htail⟩ := readString_accepts.unique hk hk' htail
      obtain ⟨rfl, htail⟩ := hv.unique hv' htail
      rw [ih hrest' htail]

theorem FileBytes.unique {pairs pairs' : List (Bytes × Value)} {f : Bytes} (h : FileBytes pairs f)
    (h' : FileBytes pairs' f) : pairs = pairs' := by
  obtain ⟨rest, hhead, hp⟩ := h
  generalize hf : bytes "REDIS" ++ bytes "0009" ++ _ = f at h'
  obtain ⟨rest', hhead', hp'⟩ := h'
  have hbody := List.append_cancel_left hf
  obtain ⟨opcode, t, hopens, hop⟩ := hp.opens rest
  obtain ⟨opcode', t', hopens', hop'⟩ := hp'.opens rest'
  rw [hopens, hopens'] at hbody
  -- the headers are skipped in one way
  have hskip := skipLoop_header hhead hop t (Nat.lt_succ_self _)
  rw [hbody, skipLoop_header hhead' hop' t' (by omega)] at hskip
  cases hskip
  exact hp.unique hp' (hopens.trans hopens'.symm)

/-! ## The store a file stands for -/

theorem Value.object_returns (hash : Bytes → Nat) (value : Value) :
    ∃ obj, value.object hash = .ok obj := by
  cases value with
  | string value => exact ⟨_, rfl⟩
  | hash l =>
    obtain ⟨o, hset⟩ := HashObject.setAll_returns hash l HashObject.new_safe
    exact ⟨.hash o, by simp only [object, hset, Exec.ok_bind, Exec.pure_eq]⟩

theorem gather_returns (hash : Bytes → Nat) (pairs : List (Bytes × Value)) (data : Database) :
    ∃ db, gather hash pairs data = .ok db := by
  induction pairs generalizing data with
  | nil => exact ⟨data, rfl⟩
  | cons pair pairs ih =>
    obtain ⟨obj, hobj⟩ := pair.2.object_returns hash
    obtain ⟨db, hdb⟩ := ih (emplace pair.1 obj data)
    exact ⟨db, by simp only [gather, hobj, Exec.ok_bind, hdb]⟩

theorem Value.object_represents {value : Value} (h : value.LoadsUnmigrated hash) :
    ∃ obj, value.object hash = .ok obj ∧
      Database.Represents hash (some obj) (some value.ref) := by
  cases value with
  | string value => exact ⟨_, rfl, .string value⟩
  | hash l =>
    obtain ⟨o, hset, ho⟩ := setAll_stores HashObject.new_stores h
    exact ⟨.hash o, by simp only [object, hset, Exec.ok_bind, Exec.pure_eq], .hash ho⟩

/-- A key that is there keeps its object. -/
theorem emplace_stores {data : Database} {s : RefStore} (h : Database.Stores hash data s)
    {obj : RedisObject} {ref : RefObject}
    (hobj : Database.Represents hash (some obj) (some ref)) (key : Bytes) :
    Database.Stores hash (emplace key obj data)
      fun k => (s k).or (if k = key then some ref else none) := by
  intro k
  unfold emplace
  beta_reduce
  by_cases hmem : key ∈ data
  · rw [if_pos hmem]
    have hrep := h k
    by_cases hk : k = key
    · obtain ⟨ref', href⟩ := Option.isSome_iff_exists.mp ((h.isSome key).mpr hmem)
      subst hk
      rw [href] at hrep ⊢
      exact hrep
    · rwa [if_neg hk, Option.or_none]
  · rw [if_neg hmem]
    have hrep := h.storeKey hobj key k
    rw [Function.update_apply] at hrep
    by_cases hk : k = key
    · have habsent : s key = none := by
        rwa [← Option.not_isSome_iff_eq_none, h.isSome]
      rw [if_pos hk] at hrep
      rw [if_pos hk, hk, habsent]
      exact hk ▸ hrep
    · rw [if_neg hk] at hrep
      rwa [if_neg hk, Option.or_none]

theorem gather_stores {pairs : List (Bytes × Value)} {data : Database} {s : RefStore}
    (h : Database.Stores hash data s) (hu : ∀ pair ∈ pairs, pair.2.LoadsUnmigrated hash) :
    ∃ db, gather hash pairs data = .ok db ∧
      Database.Stores hash db fun k => (s k).or (refStore pairs k) := by
  induction pairs generalizing data s with
  | nil =>
    have hnone : ∀ k, (s k).or (refStore [] k) = s k := fun k => Option.or_none
    exact ⟨data, rfl, by simpa only [hnone] using h⟩
  | cons pair pairs ih =>
    obtain ⟨key, value⟩ := pair
    obtain ⟨hpair, hu⟩ := List.forall_mem_cons.mp hu
    obtain ⟨obj, hobj, hrep⟩ := Value.object_represents hpair
    obtain ⟨db, hdb, hst⟩ := ih (emplace_stores h hrep key) hu
    refine ⟨db, by simp only [gather, hobj, Exec.ok_bind, hdb], ?_⟩
    have hstore : refStore ((key, value) :: pairs) =
        fun k => (if k = key then some value.ref else none).or (refStore pairs k) := by
      funext k
      by_cases hk : k = key
      · simp [refStore, hk]
      · simp [refStore, List.lookup_cons, hk, beq_false_of_ne hk]
    simpa only [hstore, Option.or_assoc] using hst

/-- **The files that load.**  A file of the grammar says one list of pairs and is
loaded as the store with those pairs; the empty store is loaded of any other. -/
theorem load_reads_grammar (hash : Bytes → Nat) (f : Bytes) :
    (∃ pairs db, FileBytes pairs f ∧ (∀ pairs', FileBytes pairs' f → pairs' = pairs) ∧
        loadFromFile hash (some f) = .ok db ∧ gather hash pairs ∅ = .ok db ∧
        ((∀ pair ∈ pairs, pair.2.LoadsUnmigrated hash) →
          Database.Stores hash db (refStore pairs))) ∨
      (∀ pairs, ¬ FileBytes pairs f) ∧ loadFromFile hash (some f) = .ok ∅ := by
  by_cases hf : ∃ pairs, FileBytes pairs f
  · left
    obtain ⟨pairs, hpairs⟩ := hf
    obtain ⟨db, hdb⟩ := gather_returns hash pairs ∅
    have hdecode := (decodeAll_iff f db).mpr ⟨pairs, hpairs, hdb⟩
    refine ⟨pairs, db, hpairs, fun _ h => h.unique hpairs, ?_, hdb, fun hu => ?_⟩
    · rw [loadFromFile, open?, Exec.pure_eq, Exec.ok_bind, hdecode]
      rfl
    · obtain ⟨db', hdb', hst⟩ := gather_stores Database.empty_stores hu
      rw [hdb] at hdb'
      cases hdb'
      exact hst
  · right
    have hnone := not_exists.mp hf
    refine ⟨hnone, load_failed fun db hdecode => ?_⟩
    obtain ⟨pairs, hpairs, _⟩ := (decodeAll_iff f db).mp hdecode
    exact hnone pairs hpairs

end MiniRedis.RdbDecoder
