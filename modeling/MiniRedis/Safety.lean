import MiniRedis.ProtocolSuffix
import MiniRedis.Request

/-!
Nothing a client sends ends the process.  What a fresh hash object satisfies and
`set_field` keeps holds of every hash object that the commands and the loader
build; in particular all of them are safe, on safe objects no command faults, and
the faults that reading a snapshot can meet are exceptions that the loader catches.
-/

namespace MiniRedis

/-! ## Saving -/

namespace RdbEncoder

theorem writeLen_fault {len : Nat} {e : Fault} (h : (writeLen len).fault = some e) :
    e = largeString := by
  unfold writeLen at h
  split at h
  · cases h
  · split at h
    · cases h
    · exact (Option.some.inj h).symm

theorem writeString_fault {s : Bytes} {e : Fault} (h : (writeString s).fault = some e) :
    e = largeString := by
  rcases Emit.append_fault h with h | ⟨_, h⟩
  · exact writeLen_fault h
  · cases h

theorem writeField_fault {kv : HashEntry} {e : Fault} (h : (writeField kv).fault = some e) :
    e = largeString := by
  rcases Emit.append_fault h with h | ⟨_, h⟩ <;> exact writeString_fault h

/-- The object is a string or a safe hash. -/
def SafeObject (obj : RedisObject) : Prop := ∀ hashObj, obj = .hash hashObj → hashObj.Safe

/-- The only fault of writing a safe pair is a length that is too large. -/
theorem writeKeyValuePair_fault {entry : Bytes × RedisObject} (hs : SafeObject entry.2) {e : Fault}
    (h : (writeKeyValuePair entry).fault = some e) : e = largeString := by
  obtain ⟨key, obj⟩ := entry
  cases obj with
  | string value =>
    rcases Emit.append_fault h with h | ⟨_, h⟩
    · rcases Emit.append_fault h with h | ⟨_, h⟩
      · cases h
      · exact writeString_fault h
    · exact writeString_fault h
  | hash hashObj =>
    have hsafe := hs hashObj rfl
    obtain ⟨n, hn⟩ := hsafe.size
    simp only [writeKeyValuePair, hn, hsafe.getAllFields, Emit.call] at h
    rcases Emit.append_fault h with h | ⟨_, h⟩
    · rcases Emit.append_fault h with h | ⟨_, h⟩
      · rcases Emit.append_fault h with h | ⟨_, h⟩
        · cases h
        · exact writeString_fault h
      · exact writeLen_fault h
    · obtain ⟨_, kv, _, _, _, hkv, _⟩ := Emit.forEach_stops h
      exact writeField_fault hkv

theorem writeAll_fault {entries : List (Bytes × RedisObject)}
    (hs : ∀ entry ∈ entries, SafeObject entry.2) {e : Fault}
    (h : (writeAll entries).fault = some e) : e = largeString := by
  rcases Emit.append_fault h with h | ⟨_, h⟩
  · rcases Emit.append_fault h with h | ⟨_, h⟩
    · rcases Emit.append_fault h with h | ⟨_, h⟩
      · cases h
      · obtain ⟨_, entry, _, hl, _, hentry, _⟩ := Emit.forEach_stops h
        exact writeKeyValuePair_fault (hs entry (by simp [hl])) hentry
    · cases h
  · cases h

end RdbEncoder

theorem Database.Safe.visited {db : Database} (hs : db.Safe) (order : Iteration) :
    ∀ entry ∈ order.visit db, RdbEncoder.SafeObject entry.2 := by
  rintro ⟨key, obj⟩ hmem hashObj rfl
  exact hs key hashObj (((db.lists_visit order).2 key _).mp hmem)

theorem RdbEncoder.saveToFile_returns {db : Database} (hs : db.Safe) (order : Iteration)
    (canOpen : Bool) (file : Option Bytes) :
    ∃ saved file', saveToFile order canOpen db file = .ok (saved, file') := by
  cases canOpen with
  | false => exact ⟨false, file, rfl⟩
  | true =>
    simp only [saveToFile, Bool.true_eq_false, ↓reduceIte]
    cases hf : (writeAll (order.visit db)).fault with
    | none => exact ⟨true, _, rfl⟩
    | some e =>
      rw [writeAll_fault (hs.visited order) hf]
      exact ⟨false, _, rfl⟩

/-! ## Loading -/

namespace RdbDecoder

theorem readExact_sound (len : Nat) (s : Bytes) : Exec.Sound (readExact len s) fun _ => True := by
  unfold readExact
  split
  · exact Exec.sound_exception
  · exact Exec.sound_ok trivial

theorem readByte_sound (s : Bytes) : Exec.Sound (readByte s) fun _ => True := by
  cases s with
  | nil => exact Exec.sound_exception
  | cons byte s => exact Exec.sound_ok trivial

theorem readLen_sound (s : Bytes) : Exec.Sound (readLen s) fun _ => True := by
  refine Exec.sound_bind (readByte_sound s) ?_
  rintro ⟨byte, s⟩ _
  dsimp only
  split
  · exact Exec.sound_ok trivial
  · split
    · exact Exec.sound_bind (readByte_sound s) fun _ _ => Exec.sound_ok trivial
    · exact Exec.sound_exception

theorem readString_sound (s : Bytes) : Exec.Sound (readString s) fun _ => True := by
  refine Exec.sound_bind (readLen_sound s) ?_
  rintro ⟨len, s⟩ _
  dsimp only
  split
  · exact readExact_sound len s
  · exact Exec.sound_ok trivial

theorem readMagic_sound (s : Bytes) : Exec.Sound (readMagic s) fun _ => True := by
  refine Exec.sound_bind (readExact_sound 9 s) ?_
  rintro ⟨magic, s⟩ _
  dsimp only
  split
  · exact Exec.sound_exception
  · split
    · exact Exec.sound_exception
    · exact Exec.sound_ok trivial

theorem skipLoop_sound (fuel : Nat) (s : Bytes) : Exec.Sound (skipLoop fuel s) fun _ => True := by
  induction fuel generalizing s with
  | zero => exact Exec.sound_exception
  | succ fuel ih =>
    refine Exec.sound_bind (readByte_sound s) ?_
    rintro ⟨opcode, rest⟩ _
    dsimp only
    split
    · refine Exec.sound_bind (readLen_sound rest) ?_
      rintro ⟨dbNum, rest⟩ _
      dsimp only
      split
      · exact Exec.sound_ok trivial
      · exact ih rest
    · exact Exec.sound_ok trivial

variable {hash : Bytes → Nat} {P : HashObject → Prop}

theorem readFields_sound (hP : HashObject.Kept hash P) (count : Nat) {hashObj : HashObject}
    (hobj : P hashObj) (s : Bytes) :
    Exec.Sound (readFields hash count hashObj s) fun r => P r.1 := by
  induction count generalizing hashObj s with
  | zero => exact Exec.sound_ok hobj
  | succ count ih =>
    refine Exec.sound_bind (readString_sound s) ?_
    rintro ⟨field, s⟩ _
    refine Exec.sound_bind (readString_sound s) ?_
    rintro ⟨value, s⟩ _
    obtain ⟨hashObj', hset, hobj'⟩ := hP.set hashObj field value hobj
    simp only [hset, Exec.ok_bind]
    exact ih hobj' s

theorem emplace_all {data : Database} (hs : data.All P) {obj : RedisObject}
    (hobj : ∀ hashObj, obj = .hash hashObj → P hashObj) (key : Bytes) :
    Database.All P (emplace key obj data) := by
  unfold emplace
  split
  · exact hs
  · exact hs.storeKey hobj key

/-- Whatever the bytes are, the loop builds such objects or throws. -/
theorem keyValuesLoop_sound (hP : HashObject.Kept hash P) (fuel : Nat) {data : Database}
    (hs : data.All P) (s : Bytes) :
    Exec.Sound (keyValuesLoop hash fuel data s) (Database.All P) := by
  induction fuel generalizing data s with
  | zero => exact Exec.sound_exception
  | succ fuel ih =>
    refine Exec.sound_bind (readByte_sound s) ?_
    rintro ⟨type, s⟩ _
    dsimp only
    split
    · exact Exec.sound_ok hs
    · refine Exec.sound_bind (readString_sound s) ?_
      rintro ⟨key, s⟩ _
      dsimp only
      split
      · refine Exec.sound_bind (readString_sound s) ?_
        rintro ⟨value, s⟩ _
        exact ih (emplace_all hs (by rintro _ ⟨⟩) key) s
      · split
        · refine Exec.sound_bind (readLen_sound s) ?_
          rintro ⟨fieldCount, s⟩ _
          refine Exec.sound_bind (readFields_sound hP fieldCount hP.fresh s) ?_
          rintro ⟨hashObj, s⟩ hobj
          refine ih (emplace_all hs ?_ key) s
          rintro _ ⟨⟩
          exact hobj
        · exact Exec.sound_exception

theorem decodeAll_sound (hP : HashObject.Kept hash P) (s : Bytes) :
    Exec.Sound (decodeAll hash s) (Database.All P) := by
  refine Exec.sound_bind (readMagic_sound s) ?_
  rintro ⟨_, s⟩ _
  refine Exec.sound_bind (skipLoop_sound (s.length + 1) s) fun s _ => ?_
  exact keyValuesLoop_sound hP (s.length + 1) Database.all_empty s

end RdbDecoder

/-- Any file, or none, is loaded into a store of such objects. -/
theorem RdbEncoder.loadFromFile_all {hash : Bytes → Nat} {P : HashObject → Prop}
    (hP : HashObject.Kept hash P) (file : Option Bytes) :
    ∃ db, loadFromFile hash file = .ok db ∧ db.All P := by
  have hsound : Exec.Sound (RdbDecoder.open? file >>= RdbDecoder.decodeAll hash)
      (Database.All P) := by
    cases file with
    | none => exact Exec.sound_exception
    | some s => exact RdbDecoder.decodeAll_sound hP s
  unfold loadFromFile
  cases h : RdbDecoder.open? file >>= RdbDecoder.decodeAll hash with
  | ok db => exact ⟨db, rfl, hsound.2 db h⟩
  | error e =>
    cases e with
    | undefined => exact absurd h hsound.1
    | exception what => exact ⟨∅, rfl, Database.all_empty⟩

/-- A file that does not decode is loaded as the empty store. -/
theorem RdbEncoder.load_failed {hash : Bytes → Nat} {file : Bytes}
    (h : ∀ db, RdbDecoder.decodeAll hash file ≠ .ok db) :
    loadFromFile hash (some file) = .ok ∅ := by
  obtain ⟨db, hload, _⟩ := loadFromFile_all (HashObject.safe_kept hash) (some file)
  rw [hload]
  simp only [loadFromFile, RdbDecoder.open?, Exec.pure_eq, Exec.ok_bind] at hload
  split at hload
  · next data hdecode => exact absurd hdecode (h data)
  · exact hload.symm
  · cases hload

/-! ## Commands -/

namespace CommandHandler

variable {hash : Bytes → Nat}

theorem perform_all {P : HashObject → Prop} (hP : HashObject.Kept hash P) (env : Surroundings)
    (r : Request) {w : World} (hs : w.db.All P) :
    ∃ reply w', perform hash env r w = .ok (reply, w') ∧ w'.db.All P := by
  cases r with
  | ping => exact ⟨_, w, rfl, hs⟩
  | set key value => exact ⟨_, _, rfl, hs.set key value⟩
  | get key => exact ⟨_, w, rfl, hs⟩
  | hset key field value =>
    rcases hs.hset hP key field value with ⟨s, _, hset⟩ | ⟨hashObj, hobj, hset⟩
    · exact ⟨.error Database.WRONGTYPE, w, by simp [perform, hset], hs⟩
    · refine ⟨.integer 1, { w with db := w.db.storeKey key (.hash hashObj) },
        by simp [perform, hset], hs.storeKey ?_ key⟩
      rintro _ ⟨⟩
      exact hobj
  | hget key field =>
    obtain ⟨v, hv⟩ := (hs.safe hP).hget hash key field
    exact ⟨.ofOption v, w, by simp [perform, hv], hs⟩
  | del keys => exact ⟨_, _, rfl, hs.del keys⟩
  | exist keys => exact ⟨_, w, rfl, hs⟩
  | keys pattern => exact ⟨_, w, rfl, hs⟩
  | save =>
    obtain ⟨saved, dump, hsave⟩ :=
      RdbEncoder.saveToFile_returns (hs.safe hP) env.order env.canOpen w.dump
    exact ⟨if saved then .ok else .error (bytes "ERR Failed to save RDB"), { w with dump },
      by simp [perform, hsave], hs⟩
  | refused msg => exact ⟨_, w, rfl, hs⟩

theorem execute_all {P : HashObject → Prop} (hP : HashObject.Kept hash P) (env : Surroundings)
    (args : List Bytes) {w : World} (hs : w.db.All P) :
    ∃ resp w', execute hash env args w = .ok (resp, w') ∧ w'.db.All P := by
  obtain ⟨reply, w', hrun, hs'⟩ := perform_all hP env (request args) hs
  exact ⟨reply.encode, w', by simp [execute_eq, encodeReply, hrun], hs'⟩

theorem execute_safe (hash : Bytes → Nat) (env : Surroundings) (args : List Bytes) {w : World}
    (hs : w.db.Safe) :
    ∃ resp w', execute hash env args w = .ok (resp, w') ∧ w'.db.Safe :=
  execute_all (HashObject.safe_kept hash) env args hs

/-- A process that started from some snapshot file, or none, and has executed
commands since. -/
inductive Reachable (hash : Bytes → Nat) : World → Prop
  | start {file : Option Bytes} {db : Database} :
      RdbEncoder.loadFromFile hash file = .ok db → Reachable hash ⟨db, file⟩
  | step {w w' : World} {env : Surroundings} {args : List Bytes} {resp : Bytes} :
      Reachable hash w → execute hash env args w = .ok (resp, w') → Reachable hash w'

theorem Reachable.all {P : HashObject → Prop} (hP : HashObject.Kept hash P) {w : World}
    (h : Reachable hash w) : w.db.All P := by
  induction h with
  | @start file db hload =>
    obtain ⟨db', hload', hs⟩ := RdbEncoder.loadFromFile_all hP file
    rw [hload] at hload'
    cases hload'
    exact hs
  | @step w w' env args resp _ hrun ih =>
    obtain ⟨resp', w'', hrun', hs⟩ := execute_all hP env args ih
    rw [hrun] at hrun'
    cases hrun'
    exact hs

theorem Reachable.safe {w : World} (h : Reachable hash w) : w.db.Safe :=
  h.all (HashObject.safe_kept hash)

/-- No call on this hash object faults. -/
def NoFault (hash : Bytes → Nat) (hashObj : HashObject) : Prop :=
  (∀ field value, ∃ o, hashObj.setField hash field value = .ok o) ∧
    (∀ field, ∃ v, hashObj.getField hash field = .ok v) ∧
    (∃ n, hashObj.size = .ok n) ∧ ∃ l, hashObj.getAllFields = .ok l

theorem noFault_of_safe {hashObj : HashObject} (hs : hashObj.Safe) : NoFault hash hashObj := by
  refine ⟨fun field value => ?_, hs.getField hash, hs.size, _, hs.getAllFields⟩
  obtain ⟨o, hset, _⟩ := hs.setField hash field value
  exact ⟨o, hset⟩

/-- **No client can crash the server.**  In every reachable process the parser
returns on every buffer, what it accepts is executed and answered, and no call on
a stored hash object reads the wrong variant or a bucket that is not there. -/
theorem no_client_crashes_the_server (hash : Bytes → Nat) (w : World) (hw : Reachable hash w)
    (buffer : Bytes) :
    (∃ verdict args, RespParser.parse buffer = .ok (verdict, args) ∧
      (verdict = .COMPLETE → ∀ env, ∃ resp w', execute hash env args w = .ok (resp, w'))) ∧
    NoFault hash HashObject.new ∧
    ∀ key hashObj, w.db.lookupKey key = some (.hash hashObj) → NoFault hash hashObj := by
  refine ⟨⟨_, _, RespParser.parse_eq buffer, fun _ env => ?_⟩, noFault_of_safe HashObject.new_safe,
    fun key hashObj h => noFault_of_safe (hw.safe key hashObj h)⟩
  obtain ⟨resp, w', hrun, _⟩ := execute_safe hash env _ hw.safe
  exact ⟨resp, w', hrun⟩

theorem empty_reachable {hash : Bytes → Nat} : Reachable hash World.empty := .start rfl

/-- One command after another, in the same surroundings. -/
theorem Reachable.commands {env : Surroundings} {cmds : List (List Bytes)} {w w' : World}
    (h : Reachable hash w)
    (hrun : cmds.foldlM (fun w args => (execute hash env args w).map (·.2)) w = .ok w') :
    Reachable hash w' := by
  induction cmds generalizing w with
  | nil =>
    cases hrun
    exact h
  | cons args cmds ih =>
    rw [List.foldlM_cons] at hrun
    cases hexec : execute hash env args w with
    | error fault =>
      rw [hexec] at hrun
      cases hrun
    | ok result =>
      rw [hexec] at hrun
      exact ih (.step h hexec) hrun

def bigValue : Bytes := List.replicate 65 7

/-- Four fields: the large value promotes the hash, the last one starts a rehash. -/
def fourFields : List (List Bytes) :=
  [[bytes "HSET", [9], [0], bigValue], [bytes "HSET", [9], [1], [11]],
    [bytes "HSET", [9], [2], [12]], [bytes "HSET", [9], [3], [13]]]

def migrating : Dict where
  ht0 := [[([0], bigValue)], [([1], [11])], [([2], [12])], [([3], [13])]]
  ht1 := List.replicate 8 []
  used := 4
  rehashidx := 0

/-- What the four fields leave. -/
def midRehash : World :=
  ⟨(∅ : Database).storeKey [9] (.hash ⟨.HASHTABLE, .hashtable migrating⟩), none⟩

theorem midRehash_reachable : Reachable Dict.firstByte midRehash :=
  have hrun : fourFields.foldlM (fun w args =>
      (execute Dict.firstByte ⟨.stored, true⟩ args w).map (·.2)) World.empty = .ok midRehash := rfl
  empty_reachable.commands hrun

/-- A command on a hash whose table is in mid-rehash. -/
theorem no_client_crashes_the_rehashing_server :
    (∀ env, ∃ resp w',
      execute Dict.firstByte env [bytes "HGET", [9], [3]] midRehash = .ok (resp, w')) ∧
    NoFault Dict.firstByte ⟨.HASHTABLE, .hashtable migrating⟩ := by
  have hparse : RespParser.parse (RespParser.encodeArray [bytes "HGET", [9], [3]]) =
      .ok (.COMPLETE, [bytes "HGET", [9], [3]]) := by decide
  obtain ⟨⟨_, _, hread, hexec⟩, _, hobj⟩ := no_client_crashes_the_server Dict.firstByte midRehash
    midRehash_reachable (RespParser.encodeArray [bytes "HGET", [9], [3]])
  rw [hparse] at hread
  cases hread
  exact ⟨hexec rfl, hobj [9] _ rfl⟩

end CommandHandler

end MiniRedis
