import MiniRedis.RdbRoundTrip

/-!
Whole snapshots.  A store written by `saveToFile` is loaded back as the same
store when every length in it is one that comes back and its hashes are inserted
behind no migration.  A failed save leaves what it wrote, and nothing of what
was there before.
-/

namespace MiniRedis

namespace RdbEncoder

open RdbDecoder Database

variable {hash : Bytes → Nat}

/-! ## The pairs of a store -/

theorem keyValuesLoop_written {s : RefStore} {entries : List (Bytes × RedisObject)}
    (hrep : ∀ entry ∈ entries, Represents hash (some entry.2) (s entry.1))
    (hok : ∀ entry ∈ entries, (writeKeyValuePair entry).fault = none)
    (hread : ∀ entry ∈ entries, ReadableEntry hash entry)
    (hn : (AssocList.keys entries).Nodup) {data : Database}
    (hnew : ∀ key ∈ AssocList.keys entries, key ∉ data) {fuel : Nat}
    (hfuel : entries.length < fuel) (t : Bytes) :
    ∃ data', keyValuesLoop hash fuel data
        (entries.flatMap (fun entry => (writeKeyValuePair entry).written) ++
          RDB_OPCODE_EOF :: t) = .ok data' ∧
      (∀ key ∈ AssocList.keys entries, Represents hash (data'.lookupKey key) (s key)) ∧
      ∀ key ∉ AssocList.keys entries, data'.lookupKey key = data.lookupKey key := by
  induction entries generalizing data fuel with
  | nil =>
    obtain ⟨fuel, rfl⟩ := Nat.exists_eq_succ_of_ne_zero (Nat.ne_of_gt hfuel)
    exact ⟨data, by simp [keyValuesLoop, readByte], by simp, fun _ _ => rfl⟩
  | cons entry entries ih =>
    obtain ⟨key, obj⟩ := entry
    obtain ⟨fuel, rfl⟩ := Nat.exists_eq_succ_of_ne_zero (Nat.ne_zero_of_lt hfuel)
    obtain ⟨hobj, hrep⟩ := List.forall_mem_cons.mp hrep
    obtain ⟨hokobj, hok⟩ := List.forall_mem_cons.mp hok
    obtain ⟨hreadobj, hread⟩ := List.forall_mem_cons.mp hread
    obtain ⟨hnkey, hn⟩ := List.nodup_cons.mp hn
    have hkeynew : key ∉ data := hnew key (List.mem_cons_self ..)
    obtain ⟨ref, href⟩ : ∃ ref, s key = some ref := by
      cases hs : s key with
      | none =>
        rw [hs] at hobj
        cases hobj
      | some ref => exact ⟨ref, rfl⟩
    rw [href] at hobj
    obtain ⟨obj', hrep', hpair⟩ := keyValuesLoop_pair hobj hokobj hreadobj fuel data
      (entries.flatMap (fun entry => (writeKeyValuePair entry).written) ++ RDB_OPCODE_EOF :: t)
    have hplaced : emplace key obj' data = data.storeKey key obj' := if_neg hkeynew
    have hnew' : ∀ k ∈ AssocList.keys entries, k ∉ data.storeKey key obj' := by
      intro k hk hmem
      have hne : k ≠ key := fun h => hnkey (h ▸ hk)
      rcases (AList.mem_insert data).mp hmem with h | h
      · exact hne h
      · exact hnew k (List.mem_cons_of_mem key hk) h
    obtain ⟨data', hrun, hin, hout⟩ :=
      ih hrep hok hread hn hnew' (Nat.lt_of_succ_lt_succ hfuel)
    refine ⟨data', ?_, fun k hk => ?_, fun k hk => ?_⟩
    · rw [List.flatMap_cons, List.append_assoc, hpair, hplaced, hrun]
    · rcases List.mem_cons.mp hk with hkey | hk
      · have hlook := hout key hnkey
        rw [lookupKey_storeKey, if_pos rfl] at hlook
        rw [show k = key from hkey, hlook, href]
        exact hrep'
      · exact hin k hk
    · obtain ⟨hne, hk⟩ := not_or.mp (List.mem_cons.not.mp hk)
      rw [hout k hk, lookupKey_storeKey, if_neg hne]

/-! ## The file -/

theorem readExact_append (a s : Bytes) : readExact a.length (a ++ s) = .ok (a, s) := by
  have hfit : ¬ (a ++ s).length < a.length := by
    rw [List.length_append]
    omega
  simp only [readExact, hfit, ↓reduceIte, List.take_left, List.drop_left, Exec.pure_eq]

theorem readMagic_written (s : Bytes) :
    readMagic (bytes "REDIS" ++ bytes "0009" ++ s) = .ok (bytes "0009", s) := by
  have hexact : readExact 9 (bytes "REDIS" ++ bytes "0009" ++ s) =
      .ok (bytes "REDIS" ++ bytes "0009", s) :=
    readExact_append (bytes "REDIS" ++ bytes "0009") s
  have hmagic : (bytes "REDIS" ++ bytes "0009").take 5 = bytes "REDIS" := by decide
  have hversion : (bytes "REDIS" ++ bytes "0009").drop 5 = bytes "0009" := by decide
  simp only [readMagic, hexact, Exec.ok_bind, hmagic, hversion, ne_eq, not_true_eq_false,
    ↓reduceIte, Exec.pure_eq]

/-- What every snapshot starts with. -/
def header : Bytes := bytes "REDIS" ++ bytes "0009" ++ [RDB_OPCODE_DB, 0]

/-- What a complete snapshot ends with. -/
def trailer : Bytes := RDB_OPCODE_EOF :: List.replicate 8 0

theorem writeAll_ok {entries : List (Bytes × RedisObject)}
    (h : (Emit.forEach writeKeyValuePair entries).fault = none) :
    writeAll entries =
      ⟨header ++ (Emit.forEach writeKeyValuePair entries).written ++ trailer, none⟩ := by
  have hheader : writeMagic ++ writeDatabaseHeader 0 = (⟨header, none⟩ : Writer) := rfl
  have htrailer : trailer = [RDB_OPCODE_EOF] ++ List.replicate 8 0 := rfl
  have hpairs : (⟨header, none⟩ ++ Emit.forEach writeKeyValuePair entries : Writer) =
      ⟨header ++ (Emit.forEach writeKeyValuePair entries).written, none⟩ := by
    rw [Emit.append_of_ok rfl, h]
  rw [writeAll, hheader, hpairs, Emit.append_of_ok rfl, Emit.append_of_ok rfl, htrailer]
  simp only [writeEOF, writeChecksum, Emit.put, List.append_assoc]

theorem writeAll_stops {entries : List (Bytes × RedisObject)} {e : Fault}
    (h : (Emit.forEach writeKeyValuePair entries).fault = some e) :
    writeAll entries = ⟨header ++ (Emit.forEach writeKeyValuePair entries).written, some e⟩ := by
  have hheader : writeMagic ++ writeDatabaseHeader 0 = (⟨header, none⟩ : Writer) := rfl
  have hpairs : (⟨header, none⟩ ++ Emit.forEach writeKeyValuePair entries : Writer) =
      ⟨header ++ (Emit.forEach writeKeyValuePair entries).written, some e⟩ := by
    rw [Emit.append_of_ok rfl, h]
  rw [writeAll, hheader, hpairs, Emit.append_of_fault rfl, Emit.append_of_fault rfl]

/-- Everything `saveToFile` can do to the file of a safe store: leave it when it
cannot be opened, hold the whole snapshot, or hold what was written up to the
length that is too large.  The previous content plays no part in the last two. -/
theorem saveToFile_cases {db : Database} (hs : db.Safe) (order : Iteration) (canOpen : Bool)
    (file : Option Bytes) :
    (canOpen = false ∧ saveToFile order canOpen db file = .ok (false, file)) ∨
      (canOpen = true ∧ (∀ entry ∈ order.visit db, (writeKeyValuePair entry).fault = none) ∧
        saveToFile order canOpen db file = .ok (true, some (header ++
          (order.visit db).flatMap (fun entry => (writeKeyValuePair entry).written) ++ trailer))) ∨
      (canOpen = true ∧ ∃ before entry after, order.visit db = before ++ entry :: after ∧
        (∀ pair ∈ before, (writeKeyValuePair pair).fault = none) ∧
        (writeKeyValuePair entry).fault = some largeString ∧
        saveToFile order canOpen db file = .ok (false, some (header ++
          before.flatMap (fun pair => (writeKeyValuePair pair).written) ++
            (writeKeyValuePair entry).written))) := by
  cases canOpen with
  | false => exact Or.inl ⟨rfl, rfl⟩
  | true =>
    right
    simp only [saveToFile, Bool.true_eq_false, ↓reduceIte, true_and]
    cases hpairs : (Emit.forEach writeKeyValuePair (order.visit db)).fault with
    | none =>
      left
      have hok := Emit.forEach_ok_iff.mp hpairs
      rw [writeAll_ok hpairs, Emit.forEach_written hok]
      exact ⟨hok, rfl⟩
    | some e =>
      right
      obtain ⟨before, entry, after, hvisit, hbefore, hentry, hwritten⟩ := Emit.forEach_stops hpairs
      have hlarge : e = largeString :=
        writeKeyValuePair_fault (hs.visited order entry (by simp [hvisit])) hentry
      subst hlarge
      rw [writeAll_stops hpairs, hwritten, ← List.append_assoc]
      exact ⟨before, entry, after, hvisit, hbefore, hentry, rfl⟩

/-! ## Loading what was saved -/

/-- Every entry of the store comes back from a snapshot. -/
def ReadableStore (hash : Bytes → Nat) (db : Database) : Prop :=
  ∀ entry ∈ db.entries, ReadableEntry hash (entry.1, entry.2)

instance (db : Database) : Decidable (ReadableStore hash db) :=
  inferInstanceAs (Decidable (∀ entry ∈ db.entries, ReadableEntry hash (entry.1, entry.2)))

theorem writeKeyValuePair_pos (entry : Bytes × RedisObject) :
    1 ≤ (writeKeyValuePair entry).written.length := by
  obtain ⟨key, obj⟩ := entry
  cases obj with
  | string value =>
    exact (Emit.length_le_append (.put [RDB_TYPE_STRING]) (writeString key)).trans
      (Emit.length_le_append _ _)
  | hash o =>
    exact ((Emit.length_le_append (.put [RDB_TYPE_HASH]) (writeString key)).trans
      (Emit.length_le_append _ _)).trans (Emit.length_le_append _ _)

theorem length_le_flatMap (entries : List (Bytes × RedisObject)) :
    entries.length ≤ (entries.flatMap fun entry => (writeKeyValuePair entry).written).length := by
  induction entries with
  | nil => exact Nat.le_refl 0
  | cons entry entries ih =>
    have hpos := writeKeyValuePair_pos entry
    rw [List.flatMap_cons, List.length_append, List.length_cons]
    omega

theorem skipToDatabase_header (s : Bytes) : skipToDatabase (RDB_OPCODE_DB :: 0 :: s) = .ok s := by
  have hzero : readLen (0 :: s) = .ok (0, s) := rfl
  simp only [skipToDatabase, skipLoop, readByte, Exec.pure_eq, Exec.ok_bind, ↓reduceIte, hzero]

theorem ReadableStore.visited {db : Database} (h : ReadableStore hash db) (order : Iteration) :
    ∀ entry ∈ order.visit db, ReadableEntry hash entry := by
  rintro entry hmem
  obtain ⟨stored, hstored, rfl⟩ := List.mem_map.mp ((order.perm db).mem_iff.mp hmem)
  exact h stored hstored

theorem decodeAll_written {db : Database} {s : RefStore} (h : Stores hash db s) (order : Iteration)
    (hok : ∀ entry ∈ order.visit db, (writeKeyValuePair entry).fault = none)
    (hread : ReadableStore hash db) :
    ∃ db', decodeAll hash (header ++
        (order.visit db).flatMap (fun entry => (writeKeyValuePair entry).written) ++ trailer) =
          .ok db' ∧ Stores hash db' s := by
  have hlists := db.lists_visit order
  have hrep : ∀ entry ∈ order.visit db, Represents hash (some entry.2) (s entry.1) := by
    rintro ⟨key, obj⟩ hmem
    rw [← (hlists.2 key obj).mp hmem]
    exact h key
  generalize hpairs : (order.visit db).flatMap (fun entry => (writeKeyValuePair entry).written) =
    pairs
  have hfuel : (order.visit db).length < (pairs ++ trailer).length + 1 := by
    have := length_le_flatMap (order.visit db)
    rw [hpairs] at this
    rw [List.length_append]
    omega
  obtain ⟨db', hloop, hin, hout⟩ := keyValuesLoop_written hrep hok (hread.visited order) hlists.1
    (fun _ _ => AList.notMem_empty _) hfuel (List.replicate 8 0)
  rw [hpairs] at hloop
  refine ⟨db', ?_, fun key => ?_⟩
  · have hfile : header ++ pairs ++ trailer =
        bytes "REDIS" ++ bytes "0009" ++ (RDB_OPCODE_DB :: 0 :: (pairs ++ trailer)) := by
      simp only [header, List.append_assoc, List.cons_append, List.nil_append]
    rw [hfile, decodeAll, readMagic_written]
    simp only [Exec.ok_bind, skipToDatabase_header, readKeyValues]
    exact hloop
  · by_cases hkey : key ∈ AssocList.keys (order.visit db)
    · exact hin key hkey
    · have habsent : db.lookupKey key = none := by
        cases hlook : db.lookupKey key with
        | none => rfl
        | some obj => exact absurd (AssocList.mem_keys_of_mem ((hlists.2 key obj).mpr hlook)) hkey
      have hrep := h key
      rw [habsent] at hrep
      rw [hout key hkey]
      exact hrep

theorem loadFromFile_written {db : Database} {s : RefStore} (h : Stores hash db s)
    {order : Iteration} {old file : Option Bytes}
    (hsave : saveToFile order true db old = .ok (true, file)) (hread : ReadableStore hash db) :
    ∃ db', loadFromFile hash file = .ok db' ∧ Stores hash db' s := by
  rcases saveToFile_cases h.safe order true old with ⟨hclosed, _⟩ | ⟨_, hok, hrun⟩ |
    ⟨_, _, _, _, _, _, _, hrun⟩
  · cases hclosed
  · rw [hsave] at hrun
    cases hrun
    obtain ⟨db', hdecode, hst⟩ := decodeAll_written h order hok hread
    refine ⟨db', ?_, hst⟩
    simp only [loadFromFile, open?, Exec.pure_eq, Exec.ok_bind, hdecode]
  · rw [hsave] at hrun
    cases hrun

/-! ## Runs and snapshots -/

/-- The two objects look alike to a client: the same string, or hashes with the
same fields and the same value under every field. -/
inductive SameObject (hash : Bytes → Nat) : Option RedisObject → Option RedisObject → Prop
  | absent : SameObject hash none none
  | string (value : Bytes) : SameObject hash (some (.string value)) (some (.string value))
  | hash {o o' : HashObject} {l l' : List HashEntry} :
      o.getAllFields = .ok l → o'.getAllFields = .ok l' →
      (∀ field, field ∈ AssocList.keys l ↔ field ∈ AssocList.keys l') →
      (∀ field, ∃ v, o.getField hash field = .ok v ∧ o'.getField hash field = .ok v) →
      SameObject hash (some (.hash o)) (some (.hash o'))

theorem sameObject_of_represents {obj obj' : Option RedisObject} {ref : Option RefObject}
    (h : Represents hash obj ref) (h' : Represents hash obj' ref) : SameObject hash obj obj' := by
  cases h with
  | absent =>
    cases h'
    exact .absent
  | string value =>
    cases h'
    exact .string value
  | hash ho =>
    cases h' with
    | hash ho' =>
      refine .hash ho.safe.getAllFields ho'.safe.getAllFields (fun field => ?_)
        fun field => ⟨_, ho.getField field, ho'.getField field⟩
      rw [ho.lists.mem_keys, ho'.lists.mem_keys]

/-- The two stores look alike under every key. -/
def SameStore (hash : Bytes → Nat) (db db' : Database) : Prop :=
  ∀ key, SameObject hash (db.lookupKey key) (db'.lookupKey key)

/-- Whatever the iteration order and the file before, a successful save of the
state the run ends in is loaded back as the same store. -/
def SnapshotRoundTrips (hash : Bytes → Nat) (calls : List CommandHandler.Call) : Prop :=
  ∀ resps w order old file,
    Run.run (CommandHandler.step hash) calls World.empty = .ok (resps, w) →
    saveToFile order true w.db old = .ok (true, file) →
    ∃ db', loadFromFile hash file = .ok db' ∧ SameStore hash w.db db'

/-- **Snapshot round trip** for every run whose `HSET`s write behind no migration
and that ends in a store whose entries come back. -/
theorem snapshot_round_trips (hash : Bytes → Nat) (calls : List CommandHandler.Call)
    (hu : Run.Guarded (CommandHandler.step hash) (CommandHandler.CallUnmigrated hash) World.empty
      calls)
    (hread : Run.Ends (CommandHandler.step hash) (fun w => ReadableStore hash w.db) World.empty
      calls) :
    SnapshotRoundTrips hash calls := by
  intro resps w order old file hrun hsave
  obtain ⟨resps', w', hrun', _, hst⟩ :=
    Run.simulation CommandHandler.step_refines calls World.empty RefStore.empty empty_stores hu
  rw [hrun] at hrun'
  cases hrun'
  obtain ⟨db', hload, hst'⟩ := loadFromFile_written hst hsave (hread resps w hrun)
  exact ⟨db', hload, fun key => sameObject_of_represents (hst key) (hst' key)⟩

/-- A hash with a rehash in progress and a value of a two-byte length, and a
string. -/
def tableCalls : List CommandHandler.Call := CommandHandler.plainCalls
  [[bytes "HSET", [9], [0], List.replicate 256 7], [bytes "HSET", [9], [1], [11]],
    [bytes "HSET", [9], [2], [12]], [bytes "HSET", [9], [3], [13]], [bytes "SET", [8], [1, 0, 255]]]

theorem snapshot_round_trips_table : SnapshotRoundTrips Dict.firstByte tableCalls :=
  snapshot_round_trips Dict.firstByte tableCalls (by decide +kernel) (by decide +kernel)

/-- A string of 64 bytes: its length is written with bit 6 set twice. -/
def longString : List CommandHandler.Call :=
  CommandHandler.plainCalls [[bytes "SET", [107], List.replicate 64 120]]

def longStringStore : Database := Database.set [107] (List.replicate 64 120) ∅

theorem long_string_is_lost : ¬ SnapshotRoundTrips (fun _ => 0) longString := by
  intro h
  obtain ⟨db', hload, hsame⟩ := h [RespParser.encodeSimpleString (bytes "OK")]
    ⟨longStringStore, none⟩ .stored none _ rfl rfl
  have hempty : (loadFromFile (fun _ => 0) (some (writeAll
      (Iteration.stored.visit longStringStore)).written)).map (Database.lookupKey [107]) =
        .ok none := by decide
  rw [hload] at hempty
  have hnone : db'.lookupKey [107] = none := Except.ok.inj hempty
  have hkey := hsame [107]
  rw [hnone] at hkey
  generalize hlook : longStringStore.lookupKey [107] = obj at hkey
  cases hkey with
  | absent => exact absurd hlook (by decide)

/-! ## Failed saves -/

/-- Every length of the pair is one that can be written. -/
def Admissible (entry : Bytes × RedisObject) : Prop :=
  entry.1.length < 2 ^ 14 ∧
    match entry.2 with
    | .string value => value.length < 2 ^ 14
    | .hash o => (∀ n, o.size = .ok n → n < 2 ^ 14) ∧
        ∀ kv ∈ o.fields, kv.1.length < 2 ^ 14 ∧ kv.2.length < 2 ^ 14

theorem writeKeyValuePair_ok_iff {entry : Bytes × RedisObject} (hs : SafeObject entry.2) :
    (writeKeyValuePair entry).fault = none ↔ Admissible entry := by
  obtain ⟨key, obj⟩ := entry
  have htype : ∀ b, (Emit.put [b] : Writer).fault = none := fun _ => rfl
  cases obj with
  | string value =>
    simp only [writeKeyValuePair, Admissible, Emit.append_ok_iff, htype, true_and,
      writeString_ok_iff]
  | hash o =>
    have hsafe := hs o rfl
    obtain ⟨n, hn⟩ := hsafe.size
    simp only [writeKeyValuePair, Admissible, hn, hsafe.getAllFields, Emit.call,
      Emit.append_ok_iff, htype, true_and, writeString_ok_iff, writeLen_ok_iff,
      Emit.forEach_ok_iff, writeField_ok_iff, Except.ok.injEq, forall_eq', and_assoc]

/-- **What a save leaves.**  A save that cannot open the file leaves it alone.
One that meets a length it cannot write leaves what it wrote until then, the
same whatever the file held before. -/
theorem save_leaves (db : Database) (hs : db.Safe) (order : Iteration) (canOpen : Bool)
    (old : Option Bytes) :
    ∃ saved new, saveToFile order canOpen db old = .ok (saved, new) ∧
      ((canOpen = false ∧ saved = false ∧ new = old) ∨
        (canOpen = true ∧ saved = true ∧ ∀ pair ∈ order.visit db, Admissible pair) ∨
        (canOpen = true ∧ saved = false ∧ ∃ before entry after,
          order.visit db = before ++ entry :: after ∧ (∀ pair ∈ before, Admissible pair) ∧
          ¬ Admissible entry ∧
          new = some (header ++ before.flatMap (fun pair => (writeKeyValuePair pair).written) ++
            (writeKeyValuePair entry).written) ∧
          ∀ other, saveToFile order canOpen db other = .ok (false, new))) := by
  have hobj := hs.visited order
  rcases saveToFile_cases hs order canOpen old with ⟨hclosed, hrun⟩ | ⟨hopen, hok, hrun⟩ |
    ⟨hopen, before, entry, after, hvisit, hbefore, hentry, hrun⟩
  · exact ⟨_, _, hrun, Or.inl ⟨hclosed, rfl, rfl⟩⟩
  · exact ⟨_, _, hrun, Or.inr (Or.inl ⟨hopen, rfl,
      fun pair hp => (writeKeyValuePair_ok_iff (hobj pair hp)).mp (hok pair hp)⟩)⟩
  · refine ⟨_, _, hrun, Or.inr (Or.inr ⟨hopen, rfl, before, entry, after, hvisit, fun pair hp => ?_,
      fun hadm => ?_, rfl, fun other => ?_⟩)⟩
    · exact (writeKeyValuePair_ok_iff (hobj pair (by simp [hvisit, hp]))).mp (hbefore pair hp)
    · have hnone := (writeKeyValuePair_ok_iff (hobj entry (by simp [hvisit]))).mpr hadm
      rw [hentry] at hnone
      cases hnone
    · subst hopen
      rw [← hrun]
      rfl

/-- One value that is a byte too long. -/
def tooLongStore : Database := Database.set [1] (List.replicate (2 ^ 14) 0) ∅

theorem save_leaves_too_long :
    ∃ saved new, saveToFile .stored true tooLongStore (some [7]) = .ok (saved, new) ∧
      ((true = false ∧ saved = false ∧ new = some [7]) ∨
        (true = true ∧ saved = true ∧
          ∀ pair ∈ Iteration.stored.visit tooLongStore, Admissible pair) ∨
        (true = true ∧ saved = false ∧ ∃ before entry after,
          Iteration.stored.visit tooLongStore = before ++ entry :: after ∧
          (∀ pair ∈ before, Admissible pair) ∧ ¬ Admissible entry ∧
          new = some (header ++ before.flatMap (fun pair => (writeKeyValuePair pair).written) ++
            (writeKeyValuePair entry).written) ∧
          ∀ other, saveToFile .stored true tooLongStore other = .ok (false, new))) :=
  save_leaves tooLongStore (Database.empty_safe.set _ _) .stored true (some [7])

/-- The failed save has replaced the previous content. -/
theorem failed_save_loses_content : ¬ ∀ new,
    saveToFile .stored true tooLongStore (some [7]) = .ok (false, new) → new = some [7] := by
  intro h
  have hsafe : tooLongStore.Safe := Database.empty_safe.set _ _
  rcases saveToFile_cases hsafe .stored true (some [7]) with ⟨hclosed, _⟩ | ⟨_, hok, _⟩ |
    ⟨_, before, entry, _, _, _, _, hrun⟩
  · cases hclosed
  · have hpair := hok ([1], .string (List.replicate (2 ^ 14) 0)) (List.mem_cons_self ..)
    have hadm := (writeKeyValuePair_ok_iff (by rintro _ ⟨⟩)).mp hpair
    have hlen : (List.replicate (2 ^ 14) (0 : UInt8)).length < 2 ^ 14 := hadm.2
    rw [List.length_replicate] at hlen
    exact absurd hlen (Nat.lt_irrefl _)
  · have hcontent := Option.some.inj (h _ hrun)
    rw [List.append_assoc] at hcontent
    exact absurd (List.cons.inj hcontent).1 (by decide)

end RdbEncoder

end MiniRedis
