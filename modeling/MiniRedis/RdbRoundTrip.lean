import MiniRedis.StoreRefinement

/-!
Reading a snapshot back.  The writer and the reader agree on everything but the
two-byte lengths: the writer sets bit 6 of the low byte, the reader takes only
its six low bits.  A length comes back exactly when its low byte is below 64.
-/

namespace MiniRedis

namespace RdbEncoder

open RdbDecoder

/-! ## Lengths -/

/-- A length that `readLen` reads back as it was written. -/
def Readable (len : Nat) : Prop := len % 256 < 64

instance (len : Nat) : Decidable (Readable len) := inferInstanceAs (Decidable (_ < _))

theorem writeLen_ok_iff {len : Nat} : (writeLen len).fault = none ↔ len < 2 ^ 14 := by
  unfold writeLen
  split
  · next h =>
    have : len < 2 ^ 14 := by omega
    simpa [Emit.put] using this
  · split
    · next h => simpa [Emit.put] using h
    · next h => simpa [Emit.fail] using h

theorem writeLen_short {len : Nat} (h : len < 64) :
    (writeLen len).written = [UInt8.ofNat len] := by
  have hmask : len &&& 0x3F = len := by
    rw [show 0x3F = 2 ^ 6 - 1 from rfl, Nat.and_two_pow_sub_one_eq_mod, Nat.mod_eq_of_lt h]
  rw [writeLen, if_pos (show len < 1 <<< 6 from h), hmask]
  rfl

theorem writeLen_long {len : Nat} (h : 64 ≤ len) (hlen : len < 2 ^ 14) :
    (writeLen len).written =
      [UInt8.ofNat ((64 ||| len) % 256), UInt8.ofNat ((64 ||| len) / 256)] := by
  have hmask : len &&& 0x3FFF = len := by
    rw [show 0x3FFF = 2 ^ 14 - 1 from rfl, Nat.and_two_pow_sub_one_eq_mod, Nat.mod_eq_of_lt hlen]
  have h6 : ¬ len < 1 <<< 6 := by omega
  rw [writeLen, if_neg h6, if_pos (show len < 1 <<< 14 from hlen), hmask]
  rfl

/-- Setting bit 6 of a number whose low byte is below 64 adds 64. -/
theorem or_bit6 {len : Nat} (h : Readable len) : (1 <<< 6) ||| len = 64 + len := by
  have hlow : len % 256 < 2 ^ 6 := h
  have hsplit : len = 2 ^ 8 * (len / 256) ||| len % 256 := by
    rw [← Nat.two_pow_add_eq_or_of_lt (by omega)]
    omega
  have hbit : 2 ^ 6 * 1 ||| len % 256 = 64 + len % 256 :=
    (Nat.two_pow_add_eq_or_of_lt hlow 1).symm
  calc (1 <<< 6) ||| len
    _ = 2 ^ 6 * 1 ||| (2 ^ 8 * (len / 256) ||| len % 256) := by rw [← hsplit]; rfl
    _ = 2 ^ 8 * (len / 256) ||| (64 + len % 256) := by
      rw [← Nat.or_assoc, Nat.or_comm (2 ^ 6 * 1), Nat.or_assoc, hbit]
    _ = 2 ^ 8 * (len / 256) + (64 + len % 256) :=
      (Nat.two_pow_add_eq_or_of_lt (by omega) _).symm
    _ = 64 + len := by omega

theorem short_byte : ∀ l < 64, UInt8.ofNat l &&& 0xC0 = 0 ∧ (UInt8.ofNat l &&& 0x3F).toNat = l := by
  decide

theorem long_byte : ∀ l < 64, UInt8.ofNat (64 + l) &&& 0xC0 = 0x40 ∧
    (UInt8.ofNat (64 + l) &&& 0x3F).toNat = l := by
  decide

theorem readLen_writeLen {len : Nat} (hlen : len < 2 ^ 14) (h : Readable len) (s : Bytes) :
    readLen ((writeLen len).written ++ s) = .ok (len, s) := by
  rcases Nat.lt_or_ge len 64 with hshort | hlong
  · obtain ⟨htop, hval⟩ := short_byte len hshort
    rw [writeLen_short hshort]
    simp only [List.cons_append, List.nil_append, readLen, readByte, Exec.pure_eq, Exec.ok_bind,
      htop, ↓reduceIte, hval]
  · have hlow : (64 + len) % 256 = 64 + len % 256 := by
      have : len % 256 < 64 := h
      omega
    have hhigh : (64 + len) / 256 = len / 256 := by
      have : len % 256 < 64 := h
      omega
    obtain ⟨htop, hval⟩ := long_byte (len % 256) h
    have hzero : (0x40 : UInt8) ≠ 0 := by decide
    have hsecond : (UInt8.ofNat (len / 256)).toNat = len / 256 :=
      UInt8.toNat_ofNat_of_lt (show len / 256 < 256 by omega)
    rw [writeLen_long hlong hlen, show 64 ||| len = 64 + len from or_bit6 h, hlow, hhigh]
    simp only [List.cons_append, List.nil_append, readLen, readByte, Exec.pure_eq, Exec.ok_bind,
      htop, hzero, ↓reduceIte, hval, hsecond]
    rw [Nat.mod_add_div]

/-! ## Strings and fields -/

/-- Both lengths of a pair. -/
def ReadableField (kv : HashEntry) : Prop := Readable kv.1.length ∧ Readable kv.2.length

theorem writeString_ok_iff {str : Bytes} :
    (writeString str).fault = none ↔ str.length < 2 ^ 14 := by
  rw [writeString, Emit.append_ok_iff, writeLen_ok_iff]
  exact and_iff_left rfl

theorem readString_writeString {str : Bytes} (hok : (writeString str).fault = none)
    (h : Readable str.length) (s : Bytes) :
    readString ((writeString str).written ++ s) = .ok (str, s) := by
  have hlen := writeString_ok_iff.mp hok
  have hwritten : (writeString str).written = (writeLen str.length).written ++ str :=
    Emit.append_written (writeLen_ok_iff.mpr hlen)
  rw [hwritten, List.append_assoc, readString, readLen_writeLen hlen h]
  simp only [Exec.ok_bind]
  split
  · have hfit : ¬ (str ++ s).length < str.length := by
      rw [List.length_append]
      omega
    simp only [readExact, hfit, ↓reduceIte, List.take_left, List.drop_left, Exec.pure_eq]
  · next hzero =>
    have hnil : str = [] := List.length_eq_zero_iff.mp (by omega)
    subst hnil
    rfl

theorem writeField_ok_iff {kv : HashEntry} : (writeField kv).fault = none ↔
    (writeString kv.1).fault = none ∧ (writeString kv.2).fault = none :=
  Emit.append_ok_iff

theorem writeField_written {kv : HashEntry} (hok : (writeField kv).fault = none) :
    (writeField kv).written = (writeString kv.1).written ++ (writeString kv.2).written :=
  Emit.append_written (writeField_ok_iff.mp hok).1

/-- `set_field` for one pair after the other, as the loader does. -/
def setAll (hash : Bytes → Nat) : List HashEntry → HashObject → Exec HashObject
  | [], hashObj => pure hashObj
  | kv :: l, hashObj => do
      let hashObj ← hashObj.setField hash kv.1 kv.2
      setAll hash l hashObj

/-- The field loop reads the written pairs and inserts them in their order. -/
theorem readFields_written (hash : Bytes → Nat) {l : List HashEntry}
    (hok : ∀ kv ∈ l, (writeField kv).fault = none) (hl : ∀ kv ∈ l, ReadableField kv)
    (hashObj : HashObject) (s : Bytes) :
    readFields hash l.length hashObj (l.flatMap (fun kv => (writeField kv).written) ++ s) =
      setAll hash l hashObj >>= fun o => .ok (o, s) := by
  induction l generalizing hashObj with
  | nil => rfl
  | cons kv l ih =>
    obtain ⟨hkv, hl'⟩ := List.forall_mem_cons.mp hl
    obtain ⟨hokv, hok'⟩ := List.forall_mem_cons.mp hok
    obtain ⟨hfield, hvalue⟩ := writeField_ok_iff.mp hokv
    rw [List.flatMap_cons, writeField_written hokv, List.append_assoc, List.append_assoc,
      List.length_cons, readFields, readString_writeString hfield hkv.1]
    simp only [Exec.ok_bind]
    rw [readString_writeString hvalue hkv.2]
    simp only [Exec.ok_bind, setAll]
    cases hashObj.setField hash kv.1 kv.2 with
    | error e => rfl
    | ok o => exact ih hok' hl' o

/-! ## Pairs -/

/-- One `set_field` of the loader, as a step. -/
def loadStep (hash : Bytes → Nat) (kv : HashEntry) (hashObj : HashObject) :
    Exec (Unit × HashObject) := do
  let hashObj ← hashObj.setField hash kv.1 kv.2
  pure ((), hashObj)

/-- Inserting the pairs into a fresh hash object writes behind no migration. -/
def LoadsUnmigrated (hash : Bytes → Nat) (hashObj : HashObject) (l : List HashEntry) : Prop :=
  Run.Guarded (loadStep hash) (fun o kv => o.SetUnmigrated hash kv.1 kv.2) hashObj l

instance (hash : Bytes → Nat) (hashObj : HashObject) (l : List HashEntry) :
    Decidable (LoadsUnmigrated hash hashObj l) :=
  inferInstanceAs (Decidable (Run.Guarded ..))

theorem setAll_stores {hash : Bytes → Nat} {l : List HashEntry} {o : HashObject}
    {m : Bytes → Option Bytes} (h : HashObject.Stores hash o m) (hl : LoadsUnmigrated hash o l) :
    ∃ o', setAll hash l o = .ok o' ∧ HashObject.Stores hash o' (AssocList.bindAll m l) := by
  induction l generalizing o m with
  | nil => exact ⟨o, rfl, h⟩
  | cons kv l ih =>
    obtain ⟨hkv, hrest⟩ := hl
    obtain ⟨o₁, hset, h₁⟩ := h.setField hkv
    obtain ⟨o₂, hall, h₂⟩ := ih h₁ (hrest () o₁ (by simp [loadStep, hset]))
    exact ⟨o₂, by simp [setAll, hset, hall], h₂⟩

/-- Every length of the pair comes back, and the loader inserts its fields behind
no migration. -/
def ReadableObject (hash : Bytes → Nat) : RedisObject → Prop
  | .string value => Readable value.length
  | .hash o => Readable o.fields.length ∧ (∀ kv ∈ o.fields, ReadableField kv) ∧
      LoadsUnmigrated hash .new o.fields

def ReadableEntry (hash : Bytes → Nat) (entry : Bytes × RedisObject) : Prop :=
  Readable entry.1.length ∧ ReadableObject hash entry.2

instance : (kv : HashEntry) → Decidable (ReadableField kv) := fun _ =>
  inferInstanceAs (Decidable (_ ∧ _))

instance (hash : Bytes → Nat) : (obj : RedisObject) → Decidable (ReadableObject hash obj)
  | .string value => inferInstanceAs (Decidable (Readable value.length))
  | .hash o => inferInstanceAs (Decidable (Readable o.fields.length ∧
      (∀ kv ∈ o.fields, ReadableField kv) ∧ LoadsUnmigrated hash .new o.fields))

instance (hash : Bytes → Nat) (entry : Bytes × RedisObject) :
    Decidable (ReadableEntry hash entry) :=
  inferInstanceAs (Decidable (_ ∧ _))

/-- The loader reads a hash whose declared count is the number of pairs written:
those pairs, and nothing behind them. -/
theorem keyValuesLoop_hash {hash : Bytes → Nat} {key : Bytes} {o o' : HashObject}
    {l : List HashEntry} (hsize : o.size = .ok l.length) (hall : o.getAllFields = .ok l)
    (hok : (writeKeyValuePair (key, .hash o)).fault = none) (hkey : Readable key.length)
    (hcount : Readable l.length) (hfields : ∀ kv ∈ l, ReadableField kv)
    (hset : setAll hash l .new = .ok o') (fuel : Nat) (data : Database) (s : Bytes) :
    keyValuesLoop hash (fuel + 1) data ((writeKeyValuePair (key, .hash o)).written ++ s) =
      keyValuesLoop hash fuel (emplace key (.hash o') data) s := by
  simp only [writeKeyValuePair, hsize, hall, Emit.call] at hok ⊢
  obtain ⟨hpre, hwall⟩ := Emit.append_ok_iff.mp hok
  obtain ⟨hpre', hlen⟩ := Emit.append_ok_iff.mp hpre
  obtain ⟨_, hwkey⟩ := Emit.append_ok_iff.mp hpre'
  have hwfields := Emit.forEach_ok_iff.mp hwall
  have htype : RDB_TYPE_HASH ≠ RDB_OPCODE_EOF := by decide
  have hstring : RDB_TYPE_HASH ≠ RDB_TYPE_STRING := by decide
  rw [Emit.append_written hpre, Emit.append_written hpre', Emit.put_append,
    Emit.forEach_written hwfields]
  simp only [List.cons_append, List.nil_append, List.append_assoc]
  rw [keyValuesLoop]
  simp only [readByte, Exec.pure_eq, Exec.ok_bind, htype, hstring, ↓reduceIte]
  rw [readString_writeString hwkey hkey]
  simp only [Exec.ok_bind]
  rw [readLen_writeLen (writeLen_ok_iff.mp hlen) hcount]
  simp only [Exec.ok_bind]
  rw [readFields_written hash hwfields hfields, hset]
  rfl

/-- The loader reads one written pair and stores an object that stands for the
same. -/
theorem keyValuesLoop_pair {hash : Bytes → Nat} {key : Bytes} {obj : RedisObject} {ref : RefObject}
    (hrep : Database.Represents hash (some obj) (some ref))
    (hok : (writeKeyValuePair (key, obj)).fault = none) (hread : ReadableEntry hash (key, obj))
    (fuel : Nat) (data : Database) (s : Bytes) :
    ∃ obj', Database.Represents hash (some obj') (some ref) ∧
      keyValuesLoop hash (fuel + 1) data ((writeKeyValuePair (key, obj)).written ++ s) =
        keyValuesLoop hash fuel (emplace key obj' data) s := by
  obtain ⟨hkey, hobj⟩ := hread
  cases hrep with
  | string value =>
    obtain ⟨hpre, hvalue⟩ := Emit.append_ok_iff.mp hok
    obtain ⟨_, hwkey⟩ := Emit.append_ok_iff.mp hpre
    have hwritten : (writeKeyValuePair (key, .string value)).written =
        RDB_TYPE_STRING :: ((writeString key).written ++ (writeString value).written) := by
      rw [writeKeyValuePair, Emit.append_written hpre, Emit.put_append]
      rfl
    refine ⟨.string value, .string value, ?_⟩
    have htype : RDB_TYPE_STRING ≠ RDB_OPCODE_EOF := by decide
    rw [hwritten, List.cons_append, keyValuesLoop]
    simp only [readByte, Exec.pure_eq, Exec.ok_bind, htype, ↓reduceIte]
    rw [List.append_assoc, readString_writeString hwkey hkey]
    simp only [Exec.ok_bind]
    rw [readString_writeString hvalue hobj]
    rfl
  | @hash o m ho =>
    obtain ⟨hcount, hfields, hload⟩ := hobj
    obtain ⟨o', hset, ho'⟩ := setAll_stores HashObject.new_stores hload
    refine ⟨.hash o', .hash ?_,
      keyValuesLoop_hash ho.size ho.safe.getAllFields hok hkey hcount hfields hset fuel data s⟩
    have hbind : AssocList.bindAll (fun _ => none) o.fields = m := by
      rw [AssocList.bindAll_empty ho.lists.1]
      funext k
      apply Option.ext
      intro v
      rw [AssocList.lookup_eq_some ho.lists.1, ho.lists.2]
    rw [← hbind]
    exact ho'

end RdbEncoder

end MiniRedis
