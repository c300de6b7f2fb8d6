import MiniRedis.ReferenceStore

/-!
Runs of commands against the reference store.  A run on a fresh process is
answered as the reference store answers when every `HSET` of the run writes
behind no migration, whatever the hash function and the iteration orders; a run
that does write there loses a field.
-/

namespace MiniRedis

namespace Database

variable {hash : Bytes → Nat}

/-! ## Operations -/

/-- The condition on one request: the `set_field` of an `HSET` writes behind no
migration. -/
def Unmigrated (hash : Bytes → Nat) (db : Database) : Request → Prop
  | .hset key field value =>
      match db.lookupKey key with
      | none => HashObject.SetUnmigrated hash .new field value
      | some (.hash o) => HashObject.SetUnmigrated hash o field value
      | some (.string _) => True
  | _ => True

instance (db : Database) : (r : Request) → Decidable (Unmigrated hash db r)
  | .hset key field value =>
      match h : db.lookupKey key with
      | none => decidable_of_iff (HashObject.SetUnmigrated hash .new field value)
          (by simp [Unmigrated, h])
      | some (.hash o) => decidable_of_iff (HashObject.SetUnmigrated hash o field value)
          (by simp [Unmigrated, h])
      | some (.string _) => .isTrue (by simp [Unmigrated, h])
  | .ping | .set .. | .get _ | .hget .. | .del _ | .exist _ | .keys _ | .save | .refused _ =>
      .isTrue trivial

/-- An unmigrated `hset` binds the field, or finds a string. -/
theorem Stores.hset {db : Database} {s : RefStore} (h : Stores hash db s) {key field value : Bytes}
    (hu : Unmigrated hash db (.hset key field value)) :
    (∃ v, s key = some (.string v) ∧
        db.hset hash key field value = .error (.exception WRONGTYPE)) ∨
      ∃ db', db.hset hash key field value = .ok db' ∧
        s.Answers (.hset key field value) (.integer 1) ∧
        Stores hash db' (s.next (.hset key field value)) := by
  have hkey := h key
  simp only [Unmigrated] at hu
  simp only [Database.hset, RefStore.Answers, RefStore.next]
  generalize db.lookupKey key = obj at hkey hu
  generalize hs : s key = ref at hkey
  cases hkey with
  | absent =>
    right
    obtain ⟨o, hset, ho⟩ := HashObject.new_stores.setField hu
    exact ⟨_, by simp only [hset]; rfl, trivial, h.storeKey (.hash ho) key⟩
  | string v => exact Or.inl ⟨v, rfl, rfl⟩
  | @hash o m ho =>
    right
    obtain ⟨o', hset, ho'⟩ := ho.setField hu
    exact ⟨_, by simp only [hset]; rfl, trivial, h.storeKey (.hash ho') key⟩

theorem Stores.get {db : Database} {s : RefStore} (h : Stores hash db s) (key : Bytes) :
    db.get key = s.string? key := by
  have hkey := h key
  simp only [Database.get, RefStore.string?]
  generalize db.lookupKey key = obj at hkey
  generalize s key = ref at hkey
  cases hkey <;> rfl

theorem Stores.hget {db : Database} {s : RefStore} (h : Stores hash db s) (key field : Bytes) :
    db.hget hash key field = .ok (s.field? key field) := by
  have hkey := h key
  simp only [Database.hget, RefStore.field?]
  generalize db.lookupKey key = obj at hkey
  generalize s key = ref at hkey
  cases hkey with
  | absent => rfl
  | string v => rfl
  | hash ho => exact ho.getField field

theorem Stores.del {db : Database} {s : RefStore} (h : Stores hash db s) (keys : List Bytes) :
    Stores hash (del keys db).2 (s.next (.del keys)) := by
  intro k
  rw [lookupKey_del]
  simp only [RefStore.next]
  split
  · exact .absent
  · exact h k

end Database

namespace CommandHandler

open Database

variable {hash : Bytes → Nat}

/-- A command together with its surroundings. -/
abbrev Call := List Bytes × Surroundings

def step (hash : Bytes → Nat) (call : Call) (w : World) : Exec (Bytes × World) :=
  execute hash call.2 call.1 w

def refNext (s : RefStore) (call : Call) : RefStore := s.next (request call.1)

def refAnswers (s : RefStore) (call : Call) (resp : Bytes) : Prop :=
  ∃ reply, s.Answers (request call.1) reply ∧ reply.encode = resp

/-- The run of the commands on a fresh process is answered as the reference
store answers. -/
def RefinesStore (hash : Bytes → Nat) (calls : List Call) : Prop :=
  ∃ resps w, Run.run (step hash) calls World.empty = .ok (resps, w) ∧
    Run.Admits refNext refAnswers RefStore.empty calls resps

def CallUnmigrated (hash : Bytes → Nat) (w : World) (call : Call) : Prop :=
  Unmigrated hash w.db (request call.1)

instance (w : World) (call : Call) : Decidable (CallUnmigrated hash w call) :=
  inferInstanceAs (Decidable (Unmigrated ..))

/-! ## One request -/

/-- One unmigrated request is answered as the reference store answers it. -/
theorem perform_refines {w : World} {s : RefStore} {r : Request} (env : Surroundings)
    (h : Stores hash w.db s) (hu : Unmigrated hash w.db r) :
    ∃ reply w', perform hash env r w = .ok (reply, w') ∧ s.Answers r reply ∧
      Stores hash w'.db (s.next r) := by
  cases r with
  | ping => exact ⟨_, w, rfl, rfl, h⟩
  | set key value => exact ⟨_, _, rfl, rfl, h.storeKey (.string value) key⟩
  | get key => exact ⟨_, w, rfl, by rw [h.get]; rfl, h⟩
  | hset key field value =>
    rcases h.hset hu with ⟨v, hs, hset⟩ | ⟨db', hset, hans, hst⟩
    · refine ⟨.error WRONGTYPE, w, by simp [perform, hset], ?_, ?_⟩
      · simp only [RefStore.Answers, hs]
      · simpa only [RefStore.next, hs] using h
    · exact ⟨.integer 1, { w with db := db' }, by simp [perform, hset], hans, hst⟩
  | hget key field =>
    exact ⟨.ofOption (s.field? key field), w, by simp [perform, h.hget], rfl, h⟩
  | del keys =>
    refine ⟨_, _, rfl, ?_, h.del keys⟩
    simp only [RefStore.Answers, del_count, h.isSome]
  | exist keys =>
    have hpresent : (fun k => (s k).isSome) = fun k => decide (k ∈ w.db) := by
      funext k
      rw [Bool.eq_iff_iff, h.isSome, decide_eq_true_iff]
    refine ⟨_, w, rfl, ?_, h⟩
    simp only [RefStore.Answers, exists_count, hpresent]
  | keys pattern =>
    obtain ⟨hn, hmem⟩ := getAllKeys_lists env.order pattern w.db
    refine ⟨_, w, rfl, ⟨_, rfl, hn, fun k => ?_⟩, h⟩
    rw [hmem, ← h.isSome, Option.isSome_iff_ne_none]
  | save =>
    obtain ⟨saved, dump, hsave⟩ :=
      RdbEncoder.saveToFile_returns h.safe env.order env.canOpen w.dump
    refine ⟨if saved then .ok else .error (bytes "ERR Failed to save RDB"), { w with dump },
      by simp [perform, hsave], ?_, h⟩
    cases saved with
    | false => exact Or.inr rfl
    | true => exact Or.inl rfl
  | refused msg => exact ⟨_, w, rfl, rfl, h⟩

/-! ## Runs -/

theorem step_refines (w : World) (s : RefStore) (call : Call) (h : Stores hash w.db s)
    (hu : CallUnmigrated hash w call) :
    ∃ resp w', step hash call w = .ok (resp, w') ∧ refAnswers s call resp ∧
      Stores hash w'.db (refNext s call) := by
  obtain ⟨reply, w', hrun, hans, hst⟩ := perform_refines call.2 h hu
  exact ⟨reply.encode, w', by simp [step, execute_eq, encodeReply, hrun], ⟨reply, hans, rfl⟩, hst⟩

/-- **The commands are a map of strings and maps** on every run whose `HSET`s all
write behind no migration, for every hash function. -/
theorem run_refines_store (hash : Bytes → Nat) (calls : List Call)
    (hu : Run.Guarded (step hash) (CallUnmigrated hash) World.empty calls) :
    RefinesStore hash calls := by
  obtain ⟨resps, w, hrun, hadm, _⟩ :=
    Run.simulation (R := fun w s => Stores hash w.db s) step_refines calls World.empty
      RefStore.empty empty_stores hu
  exact ⟨resps, w, hrun, hadm⟩

/-- The commands in surroundings where the file opens and the map is visited as
it is stored. -/
def plainCalls (cmds : List (List Bytes)) : List Call :=
  cmds.map fun args => (args, ⟨.stored, true⟩)

/-- A value too large for a ziplist. -/
def largeValue : Bytes := List.replicate 65 7

/-- A hash that becomes a table at once, a rehash started by its fourth field, a
write ahead of the migration, and a string beside it. -/
def aheadCalls : List Call := plainCalls
  [[bytes "HSET", [9], [0], largeValue], [bytes "HSET", [9], [1], [11]],
    [bytes "HSET", [9], [2], [12]], [bytes "HSET", [9], [3], [13]], [bytes "HSET", [9], [3], [14]],
    [bytes "SET", [8], [1]], [bytes "HGET", [9], [3]], [bytes "DEL", [8], [8]],
    [bytes "KEYS", bytes "*"]]

theorem run_refines_store_ahead : RefinesStore Dict.firstByte aheadCalls :=
  run_refines_store Dict.firstByte aheadCalls (by decide)

/-- Nine fields of one bucket: the fifth is written behind the migration, and
gone when the tables are swapped. -/
def nineFields : List Call := plainCalls
  ([bytes "HSET", [9], [0], largeValue] ::
    ([1, 2, 3, 4, 5, 6, 7, 8].map fun i => [bytes "HSET", [9], [i], [1]]))

def lostCall : Call := ([bytes "HGET", [9], [4]], ⟨.stored, true⟩)

theorem lost_field_is_no_store : ¬ RefinesStore (fun _ => 0) (nineFields ++ [lostCall]) := by
  rintro ⟨resps, w, hrun, hadm⟩
  have hnull : (Run.run (step fun _ => 0) (nineFields ++ [lostCall]) World.empty).map
      (fun r => r.1.getLast?) = .ok (some RespParser.encodeNullBulkString) := by decide
  rw [hrun] at hnull
  obtain ⟨resp, hlast, reply, hans, henc⟩ := Run.admits_last hadm
  have hvalue : (nineFields.foldl refNext RefStore.empty).field? [9] [4] = some [1] := by rfl
  have hreply : reply = .ofOption (some [1]) := by
    rw [← hvalue]
    exact hans
  have hget : resps.getLast? = some RespParser.encodeNullBulkString := Except.ok.inj hnull
  rw [hlast, ← henc, hreply] at hget
  exact absurd hget (by decide)

end CommandHandler

end MiniRedis
