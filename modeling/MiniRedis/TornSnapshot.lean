import MiniRedis.Snapshot

/-!
Snapshots that end where a length could not be written.  The loader reads the
pairs that were written whole and runs into the end of the file inside the last
one, so the file counts as damaged and is loaded as the empty store.
-/

namespace MiniRedis.RdbEncoder

open RdbDecoder Database

variable {hash : Bytes → Nat}

/-! ## What a stopped writer leaves -/

theorem writeLen_stops {len : Nat} (h : (writeLen len).fault ≠ none) :
    (writeLen len).written = [] := by
  have hlong : ¬ len < 1 <<< 14 := fun hlen => h (writeLen_ok_iff.mpr hlen)
  have hshort : ¬ len < 1 <<< 6 := by omega
  rw [writeLen, if_neg hshort, if_neg hlong]
  rfl

theorem writeString_stops {str : Bytes} (h : (writeString str).fault ≠ none) :
    (writeString str).written = [] := by
  rcases Emit.append_stops h with ⟨hlen, hwritten⟩ | ⟨_, hbytes, _⟩
  · rw [← writeLen_stops hlen]
    exact hwritten
  · exact absurd rfl hbytes

theorem writeField_stops {kv : HashEntry} (h : (writeField kv).fault ≠ none) :
    (writeField kv).written = [] ∨ (writeString kv.1).fault = none ∧
      (writeField kv).written = (writeString kv.1).written := by
  rcases Emit.append_stops h with ⟨hfield, hwritten⟩ | ⟨hfield, hvalue, hwritten⟩
  · rw [writeString_stops hfield] at hwritten
    exact Or.inl hwritten
  · rw [writeString_stops hvalue, List.append_nil] at hwritten
    exact Or.inr ⟨hfield, hwritten⟩

/-- What a pair comes to behind its type and its key. -/
def body : RedisObject → Writer
  | .string value => writeString value
  | .hash o => Emit.call o.size writeLen ++ Emit.call o.getAllFields (Emit.forEach writeField)

def typeByte : RedisObject → UInt8
  | .string _ => RDB_TYPE_STRING
  | .hash _ => RDB_TYPE_HASH

theorem typeByte_ne (obj : RedisObject) : typeByte obj ≠ RDB_OPCODE_EOF := by
  cases obj with
  | string _ => exact (by decide : RDB_TYPE_STRING ≠ RDB_OPCODE_EOF)
  | hash _ => exact (by decide : RDB_TYPE_HASH ≠ RDB_OPCODE_EOF)

theorem writeKeyValuePair_eq (key : Bytes) (obj : RedisObject) :
    writeKeyValuePair (key, obj) = .put [typeByte obj] ++ (writeString key ++ body obj) := by
  cases obj with
  | string value => exact Emit.append_assoc _ _ _
  | hash o =>
    simp only [writeKeyValuePair, body, typeByte, Emit.append_assoc]

/-- A pair that stops has stopped at its key, or behind it. -/
theorem writeKeyValuePair_stops {key : Bytes} {obj : RedisObject}
    (h : (writeKeyValuePair (key, obj)).fault ≠ none) :
    (writeKeyValuePair (key, obj)).written = [typeByte obj] ∨
      (writeString key).fault = none ∧ (body obj).fault ≠ none ∧
        (writeKeyValuePair (key, obj)).written =
          typeByte obj :: ((writeString key).written ++ (body obj).written) := by
  rw [writeKeyValuePair_eq, Emit.put_append] at h ⊢
  rcases Emit.append_stops h with ⟨hkey, hwritten⟩ | ⟨hkey, hbody, hwritten⟩
  · rw [hwritten, writeString_stops hkey]
    exact Or.inl rfl
  · rw [hwritten]
    exact Or.inr ⟨hkey, hbody, rfl⟩

/-! ## What the loader makes of it -/

theorem readString_end : readString [] = .error unexpectedEOF := rfl

/-- The field loop goes on behind the fields that are there. -/
theorem readFields_add (count more : Nat) (hashObj : HashObject) (s : Bytes) :
    readFields hash (count + more) hashObj s =
      readFields hash count hashObj s >>= fun r => readFields hash more r.1 r.2 := by
  induction count generalizing hashObj s with
  | zero => rw [Nat.zero_add]; rfl
  | succ count ih =>
    rw [Nat.succ_add, readFields, readFields]
    cases readString s with
    | error e => rfl
    | ok field =>
      simp only [Exec.ok_bind]
      cases readString field.2 with
      | error e => rfl
      | ok value =>
        simp only [Exec.ok_bind]
        cases hashObj.setField hash field.1 value.1 with
        | error e => rfl
        | ok o => exact ih o value.2

/-- The field loop does not get past a pair that was not written whole. -/
theorem readFields_torn {done : List HashEntry} {kv : HashEntry}
    (hok : ∀ e ∈ done, (writeField e).fault = none) (hdone : ∀ e ∈ done, ReadableField e)
    (hkv : Readable kv.1.length) (hstop : (writeField kv).fault ≠ none) (more : Nat)
    (hashObj : HashObject) (r : HashObject × Bytes) :
    readFields hash (done.length + (more + 1)) hashObj
      (done.flatMap (fun e => (writeField e).written) ++ (writeField kv).written) ≠ .ok r := by
  rw [readFields_add, readFields_written hash hok hdone]
  intro h
  obtain ⟨⟨o, s⟩, hset, h⟩ := Exec.bind_eq_ok.mp h
  obtain ⟨o', _, hs⟩ := Exec.bind_eq_ok.mp hset
  cases hs
  rcases writeField_stops hstop with hnone | ⟨hfield, hfirst⟩
  · rw [hnone, readFields, readString_end] at h
    cases h
  · have hread := readString_writeString hfield hkv []
    rw [List.append_nil] at hread
    rw [hfirst, readFields, hread] at h
    cases h

/-- A hash that stops has stopped at its count, or at one of its pairs. -/
theorem body_hash_stops {o : HashObject} {l : List HashEntry} (hsize : o.size = .ok l.length)
    (hall : o.getAllFields = .ok l) (h : (body (.hash o)).fault ≠ none) :
    (body (.hash o)).written = [] ∨ (writeLen l.length).fault = none ∧
      ∃ done kv rest, l = done ++ kv :: rest ∧ (∀ e ∈ done, (writeField e).fault = none) ∧
        (writeField kv).fault ≠ none ∧ (body (.hash o)).written =
          (writeLen l.length).written ++
            (done.flatMap (fun e => (writeField e).written) ++ (writeField kv).written) := by
  simp only [body, hsize, hall, Emit.call] at h ⊢
  rcases Emit.append_stops h with ⟨hlen, hwritten⟩ | ⟨hlen, hpairs, hwritten⟩
  · rw [hwritten, writeLen_stops hlen]
    exact Or.inl rfl
  · obtain ⟨e, he⟩ := Option.ne_none_iff_exists'.mp hpairs
    obtain ⟨done, kv, rest, hl, hdone, hkv, hpart⟩ := Emit.forEach_stops he
    rw [hwritten, hpart]
    exact Or.inr ⟨hlen, done, kv, rest, hl, hdone, by simp [hkv], rfl⟩

/-- Nor does the loop over the pairs of a store. -/
theorem keyValuesLoop_torn {key : Bytes} {obj : RedisObject} {ref : RefObject}
    (hrep : Represents hash (some obj) (some ref)) (hread : ReadableEntry hash (key, obj))
    (hstop : (writeKeyValuePair (key, obj)).fault ≠ none) (fuel : Nat) (data r : Database) :
    keyValuesLoop hash fuel data (writeKeyValuePair (key, obj)).written ≠ .ok r := by
  obtain ⟨hkey, hobj⟩ := hread
  cases fuel with
  | zero => rintro ⟨⟩
  | succ fuel =>
    have htype := typeByte_ne obj
    rcases writeKeyValuePair_stops hstop with hwritten | ⟨hwkey, hbody, hwritten⟩
    · rw [hwritten, keyValuesLoop]
      simp only [readByte, Exec.pure_eq, Exec.ok_bind, htype, ↓reduceIte, readString_end,
        Exec.error_bind]
      rintro ⟨⟩
    · rw [hwritten, keyValuesLoop]
      simp only [readByte, Exec.pure_eq, Exec.ok_bind, htype, ↓reduceIte,
        readString_writeString hwkey hkey]
      cases hrep with
      | string value =>
        rw [show (body (.string value)).written = [] from writeString_stops hbody]
        simp only [typeByte, ↓reduceIte, readString_end, Exec.error_bind]
        rintro ⟨⟩
      | @hash o m ho =>
        obtain ⟨hcount, hfields, _⟩ := hobj
        have hstring : RDB_TYPE_HASH ≠ RDB_TYPE_STRING := by decide
        simp only [typeByte, hstring, ↓reduceIte]
        rcases body_hash_stops ho.size ho.safe.getAllFields hbody with hnone |
          ⟨hlen, done, kv, rest, hl, hdone, hkv, hpart⟩
        · rw [hnone]
          rintro ⟨⟩
        · rw [hpart, readLen_writeLen (writeLen_ok_iff.mp hlen) hcount]
          simp only [Exec.ok_bind]
          intro h
          obtain ⟨x, hx, _⟩ := Exec.bind_eq_ok.mp h
          have hsplit : o.fields.length = done.length + (rest.length + 1) := by
            rw [hl, List.length_append, List.length_cons]
          rw [hsplit] at hx
          have hreadable : ∀ e ∈ done ++ kv :: rest, ReadableField e := hl ▸ hfields
          exact readFields_torn hdone (fun e he => hreadable e (List.mem_append_left _ he))
            (hreadable kv (by simp)).1 hkv rest.length .new x hx

/-- The pairs in front are read, whatever comes behind them. -/
theorem keyValuesLoop_whole {entries : List (Bytes × RedisObject)}
    (hrep : ∀ entry ∈ entries, ∃ ref, Represents hash (some entry.2) (some ref))
    (hok : ∀ entry ∈ entries, (writeKeyValuePair entry).fault = none)
    (hread : ∀ entry ∈ entries, ReadableEntry hash entry) (fuel : Nat) (data : Database)
    (t : Bytes) :
    ∃ data', keyValuesLoop hash (entries.length + fuel) data
      (entries.flatMap (fun entry => (writeKeyValuePair entry).written) ++ t) =
        keyValuesLoop hash fuel data' t := by
  induction entries generalizing data with
  | nil => exact ⟨data, by simp⟩
  | cons entry entries ih =>
    obtain ⟨⟨ref, hobj⟩, hrep⟩ := List.forall_mem_cons.mp hrep
    obtain ⟨hokobj, hok⟩ := List.forall_mem_cons.mp hok
    obtain ⟨hreadobj, hread⟩ := List.forall_mem_cons.mp hread
    obtain ⟨obj', _, hpair⟩ := keyValuesLoop_pair hobj hokobj hreadobj (entries.length + fuel) data
      (entries.flatMap (fun entry => (writeKeyValuePair entry).written) ++ t)
    obtain ⟨data', hrest⟩ := ih hrep hok hread (emplace entry.1 obj' data)
    refine ⟨data', ?_⟩
    rw [List.flatMap_cons, List.append_assoc, List.length_cons, Nat.succ_add, hpair, hrest]

/-- What a failed save leaves does not decode. -/
theorem decode_torn {db : Database} {s : RefStore} (h : Stores hash db s) {order : Iteration}
    (hread : ReadableStore hash db) {before after : List (Bytes × RedisObject)}
    {entry : Bytes × RedisObject} (hvisit : order.visit db = before ++ entry :: after)
    (hbefore : ∀ pair ∈ before, (writeKeyValuePair pair).fault = none)
    (hstop : (writeKeyValuePair entry).fault ≠ none) (r : Database) :
    decodeAll hash (header ++ before.flatMap (fun pair => (writeKeyValuePair pair).written) ++
      (writeKeyValuePair entry).written) ≠ .ok r := by
  have hlists := db.lists_visit order
  have hrep : ∀ pair ∈ order.visit db, ∃ ref, Represents hash (some pair.2) (some ref) := by
    rintro ⟨key, obj⟩ hmem
    have hobj := h key
    have hlook : db.lookupKey key = some obj := (hlists.2 key obj).mp hmem
    rw [hlook] at hobj
    cases hs : s key with
    | none =>
      rw [hs] at hobj
      cases hobj
    | some ref => exact ⟨ref, hs ▸ hobj⟩
  have hreadable := hread.visited order
  rw [hvisit] at hrep hreadable
  obtain ⟨ref, hentry⟩ := hrep entry (by simp)
  intro hdecode
  have hfile : header ++ before.flatMap (fun pair => (writeKeyValuePair pair).written) ++
      (writeKeyValuePair entry).written = bytes "REDIS" ++ bytes "0009" ++ (RDB_OPCODE_DB :: 0 ::
        (before.flatMap (fun pair => (writeKeyValuePair pair).written) ++
          (writeKeyValuePair entry).written)) := by
    simp only [header, List.append_assoc, List.cons_append, List.nil_append]
  rw [hfile, decodeAll, readMagic_written] at hdecode
  simp only [Exec.ok_bind, skipToDatabase_header, readKeyValues] at hdecode
  have hlen := length_le_flatMap before
  obtain ⟨fuel, hfuel⟩ : ∃ fuel, (before.flatMap (fun pair => (writeKeyValuePair pair).written) ++
      (writeKeyValuePair entry).written).length + 1 = before.length + fuel :=
    ⟨_, (Nat.add_sub_of_le (by rw [List.length_append]; omega)).symm⟩
  obtain ⟨data', hwhole⟩ := keyValuesLoop_whole
    (fun pair hp => hrep pair (by simp [hp])) hbefore
    (fun pair hp => hreadable pair (by simp [hp])) fuel ∅ (writeKeyValuePair entry).written
  rw [hfuel, hwhole] at hdecode
  exact keyValuesLoop_torn hentry (hreadable entry (by simp)) hstop fuel data' r hdecode

end MiniRedis.RdbEncoder
