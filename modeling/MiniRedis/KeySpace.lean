import MiniRedis.StoreRefinement

/-!
What holds in every run, writes behind a migration included.  The keys, their
types and the strings are those of a plain store.  A hash shows the pair that
was written to it last, and any other pair that it shows was written to it
since it is there.
-/

namespace MiniRedis

namespace Dict

open AssocList BucketTable

variable {hash : Bytes → Nat}

/-- A rehash brings in nothing; at the swap it drops what is left in the old
table. -/
theorem Outcome.mem_entries {n v : Nat} {d : Dict} {r : Int × Dict} (h : Outcome hash n v d r)
    {e : HashEntry} (he : e ∈ r.2.entries) : e ∈ d.entries := by
  cases h with
  | idle _ => exact he
  | exhausted _ _ hm _ => exact hm.entries.mem_iff.mp he
  | spent _ _ _ hm _ => exact hm.entries.mem_iff.mp he
  | @swapped _ _ d' _ _ hm _ _ =>
    refine hm.entries.mem_iff.mp ?_
    simp only [swapTables, entries, List.flatten_nil, List.append_nil] at he
    exact List.mem_append_right _ he

theorem mem_flatten_set {t : Table} {i : Nat} {c : Chain} {e : HashEntry}
    (he : e ∈ (t.set i c).flatten) : e ∈ c ∨ e ∈ t.flatten := by
  obtain ⟨chain, hchain, hin⟩ := List.mem_flatten.mp he
  rcases List.mem_or_eq_of_mem_set hchain with hold | rfl
  · exact Or.inr (List.mem_flatten.mpr ⟨chain, hold, hin⟩)
  · exact Or.inl hin

/-- `get_field` finds what stands in the searched bucket of the main table. -/
theorem getField_main {d : Dict} {key value : Bytes} {c : Chain}
    (hc : d.ht0[hash key % d.ht0.length]? = some c) (hlook : c.lookup key = some value) :
    Dict.getField hash key d = .ok (some value) := by
  have hlt : hash key % d.ht0.length < d.ht0.length := (List.getElem?_eq_some_iff.mp hc).1
  have hpos : 0 < d.ht0.length := Nat.zero_lt_of_lt hlt
  have hne : d.ht0 ≠ [] := List.ne_nil_of_length_pos hpos
  simp only [Dict.getField, lookupIn, hne, ↓reduceIte, modSize_ok hpos, at?_ok hc, Exec.ok_bind,
    hlook, Exec.pure_eq]

/-- A bucket that is written with the pair shows it, and no other that was not
there. -/
theorem write_shows {d d' : Dict} (hs : Sane d) {key value : Bytes} {c : Chain}
    (hlook : c.lookup key = some value) (hc : ∀ e ∈ c, e = (key, value) ∨ e ∈ d.ht0.flatten)
    (h0 : d'.ht0 = d.ht0.set (hash key % d.ht0.length) c)
    (hentries : d'.entries = (d.ht0.set (hash key % d.ht0.length) c).flatten ++ d.ht1.flatten) :
    (∀ e ∈ d'.entries, e = (key, value) ∨ e ∈ d.entries) ∧
      Dict.getField hash key d' = .ok (some value) := by
  constructor
  · intro e he
    rw [hentries] at he
    rcases List.mem_append.mp he with he | he
    · rcases mem_flatten_set he with he | he
      · exact (hc e he).imp id fun h => List.mem_append_left _ h
      · exact Or.inr (List.mem_append_left _ he)
    · exact Or.inr (List.mem_append_right _ he)
  · have hlt : hash key % d.ht0.length < d.ht0.length := Nat.mod_lt _ hs.main
    refine getField_main ?_ hlook
    rw [h0, List.length_set, List.getElem?_set_self hlt]

/-- The embedded step of a rehash brings in nothing. -/
theorem advance_mem {d d' : Dict} (hs : Sane d) (hrun : advance hash d = .ok d') {e : HashEntry}
    (he : e ∈ d'.entries) : e ∈ d.entries := by
  rcases advance_outcome hash hs with ⟨_, h⟩ | ⟨_, r, h, hout⟩
  · rw [hrun] at h
    cases h
    exact he
  · rw [hrun] at h
    cases h
    exact hout.mem_entries he

/-- `set_field` brings in one pair, and the next `get_field` finds it. -/
theorem Sane.setField_shows {d : Dict} (hs : Sane d) (hash : Bytes → Nat) (key value : Bytes) :
    ∃ d', Dict.setField hash key value d = .ok d' ∧ Sane d' ∧
      (∀ e ∈ d'.entries, e = (key, value) ∨ e ∈ d.entries) ∧
      Dict.getField hash key d' = .ok (some value) := by
  obtain ⟨d', hrun', hs'⟩ := hs.setField hash key value
  obtain ⟨d₁, hrun, hs₁⟩ := hs.advance hash
  suffices hshows : (∀ e ∈ d'.entries, e = (key, value) ∨ e ∈ d₁.entries) ∧
      Dict.getField hash key d' = .ok (some value) from
    ⟨d', hrun', hs', fun e he => (hshows.1 e he).imp id (advance_mem hs hrun), hshows.2⟩
  obtain ⟨head, hh, hcases⟩ := setField_cases key value hrun hs₁
  have hhead : ∀ e ∈ head, e ∈ d₁.ht0.flatten := fun e he =>
    List.mem_flatten.mpr ⟨head, List.mem_of_getElem? hh, he⟩
  rcases hcases with ⟨head', hassign, hset⟩ | ⟨_, hset⟩
  · rw [hrun'] at hset
    cases hset
    refine write_shows hs₁ (by rw [lookup_assign hassign, if_pos rfl]) (fun e he => ?_) rfl rfl
    exact (mem_assign hassign he).imp id (hhead e)
  · rw [hrun'] at hset
    cases hset
    have hs₂ := hs₁.write hh (c := (key, value) :: head) (u := d₁.used + 1)
      (by rw [List.length_cons]; omega)
    have hresized := expandIfNeeded_resized hs₂.main
    refine write_shows hs₁ List.lookup_cons_self (fun e he => ?_) hresized.ht0
      (hresized.entries hs₂)
    exact (List.mem_cons.mp he).imp id (hhead e)

/-- What `get_field` finds is an entry. -/
theorem mem_of_getField {d : Dict} {key value : Bytes}
    (h : Dict.getField hash key d = .ok (some value)) : (key, value) ∈ d.entries := by
  have hlookup : ∀ t : Table, lookupIn hash key t = .ok (some value) →
      (key, value) ∈ t.flatten := by
    intro t ht
    unfold lookupIn at ht
    split at ht
    · cases ht
    · obtain ⟨idx, _, ht⟩ := Exec.bind_eq_ok.mp ht
      obtain ⟨head, hhead, ht⟩ := Exec.bind_eq_ok.mp ht
      unfold at? at hhead
      split at hhead
      · next c hc =>
        cases hhead
        have hmem := AssocList.mem_of_lookup (Except.ok.inj ht)
        exact List.mem_flatten.mpr ⟨_, List.mem_of_getElem? hc, hmem⟩
      · cases hhead
  obtain ⟨v₀, hv₀, h⟩ := Exec.bind_eq_ok.mp h
  cases v₀ with
  | some v =>
    cases h
    exact List.mem_append_left _ (hlookup d.ht0 hv₀)
  | none =>
    simp only at h
    split at h
    · exact List.mem_append_right _ (hlookup d.ht1 h)
    · cases h

end Dict

namespace HashObject

open AssocList

variable {hash : Bytes → Nat}

theorem insertAll_entries (hash : Bytes → Nat) (zl : Ziplist) {d : Dict} (hs : Dict.Sane d) :
    ∃ d', insertAll hash zl d = .ok d' ∧ Dict.Sane d' ∧
      ∀ e ∈ d'.entries, e ∈ zl ∨ e ∈ d.entries := by
  induction zl generalizing d with
  | nil => exact ⟨d, rfl, hs, fun _ he => Or.inr he⟩
  | cons kv zl ih =>
    obtain ⟨d₁, hset, hs₁, hmem₁, _⟩ := hs.setField_shows hash kv.1 kv.2
    obtain ⟨d₂, hrest, hs₂, hmem₂⟩ := ih hs₁
    refine ⟨d₂, by simp [insertAll, hset, hrest], hs₂, fun e he => ?_⟩
    rcases hmem₂ e he with he | he
    · exact Or.inl (List.mem_cons_of_mem kv he)
    · rcases hmem₁ e he with rfl | he
      · exact Or.inl (List.mem_cons_self ..)
      · exact Or.inr he

/-- Behind `set_field` the pair is there, and no other that was not. -/
theorem Safe.setField_shows {o : HashObject} (hs : Safe o) (hash : Bytes → Nat)
    (field value : Bytes) :
    ∃ o', HashObject.setField hash field value o = .ok o' ∧ Safe o' ∧
      (∀ e ∈ o'.fields, e = (field, value) ∨ e ∈ o.fields) ∧
      HashObject.getField hash field o' = .ok (some value) := by
  cases hs with
  | ziplist zl =>
    rcases setField_ziplist hash zl field value with ⟨_, hrun⟩ | ⟨_, zl', hrun, hzl⟩
    · obtain ⟨d₁, hins, hs₁, hmem₁⟩ := insertAll_entries hash zl Dict.new_sane
      obtain ⟨d, hset, hd, hmem, hget⟩ := hs₁.setField_shows hash field value
      rw [insertAll_append, hins, Exec.ok_bind, hset] at hrun
      refine ⟨_, hrun, .hashtable hd, fun e he => ?_,
        by simp [HashObject.getField, getHashtable, hget]⟩
      rcases hmem e he with rfl | he
      · exact Or.inl rfl
      · rcases hmem₁ e he with he | he
        · exact Or.inr he
        · cases he
    · rcases hzl with hassign | ⟨hnew, rfl⟩
      · refine ⟨_, hrun, .ziplist zl', fun e he => mem_assign hassign he, ?_⟩
        simp only [HashObject.getField, getZiplist, ↓reduceIte, Exec.pure_eq, Exec.ok_bind,
          lookup_assign hassign]
      · have hnone := lookup_eq_none.mpr (assign_eq_none.mp hnew)
        refine ⟨_, hrun, .ziplist _, fun e he => ?_, ?_⟩
        · rcases List.mem_append.mp he with he | he
          · exact Or.inr he
          · exact Or.inl (List.mem_singleton.mp he)
        · simp only [HashObject.getField, getZiplist, ↓reduceIte, Exec.pure_eq, Exec.ok_bind,
            List.lookup_append, hnone, List.lookup_cons_self, Option.none_or]
  | hashtable hd =>
    obtain ⟨d', hset, hd', hmem, hget⟩ := hd.setField_shows hash field value
    exact ⟨⟨.HASHTABLE, .hashtable d'⟩, by simp [HashObject.setField, getHashtable, hset],
      .hashtable hd', hmem, by simp [HashObject.getField, getHashtable, hget]⟩

theorem Safe.mem_of_getField {o : HashObject} (hs : Safe o) {field value : Bytes}
    (h : HashObject.getField hash field o = .ok (some value)) : (field, value) ∈ o.fields := by
  cases hs with
  | ziplist zl => exact AssocList.mem_of_lookup (Except.ok.inj h)
  | @hashtable d _ =>
    have hget : Dict.getField hash field d = .ok (some value) := by
      simpa [HashObject.getField, getHashtable] using h
    exact Dict.mem_of_getField hget

end HashObject

/-- What is known under a key: a string, or of a hash the last pair written and
every pair written since it is there. -/
inductive KeyObject where
  | string (value : Bytes)
  | hash (last : HashEntry) (written : Set HashEntry)

abbrev KeySpace := Bytes → Option KeyObject

namespace KeySpace

def empty : KeySpace := fun _ => none

/-- The store with the keys and strings, and hashes without fields. -/
def plain (s : KeySpace) : RefStore := fun key =>
  (s key).map fun obj =>
    match obj with
    | .string value => .string value
    | .hash _ _ => .hash fun _ => none

def next (s : KeySpace) (r : Request) : KeySpace :=
  match r with
  | .set key value => Function.update s key (some (.string value))
  | .hset key field value =>
      match s key with
      | none => Function.update s key (some (.hash (field, value) {(field, value)}))
      | some (.hash _ written) =>
          Function.update s key (some (.hash (field, value) (insert (field, value) written)))
      | some (.string _) => s
  | .del keys => fun k => if keys.contains k then none else s k
  | _ => s

/-- An `HGET` is answered with what was written last when it asks for that field,
and otherwise with nothing or with something written to the field. -/
def Answers (s : KeySpace) (r : Request) (reply : Reply) : Prop :=
  match r with
  | .hget key field =>
      match s key with
      | some (.hash last written) =>
          (field = last.1 → reply = .bulk last.2) ∧
            (reply = .null ∨ ∃ value, reply = .bulk value ∧ (field, value) ∈ written)
      | _ => reply = .null
  | r => s.plain.Answers r reply

end KeySpace

namespace Database

variable {hash : Bytes → Nat}

/-- The object shows the last pair, and only pairs written to it. -/
structure Remembers (hash : Bytes → Nat) (o : HashObject) (last : HashEntry)
    (written : Set HashEntry) : Prop where
  safe : o.Safe
  last : o.getField hash last.1 = .ok (some last.2)
  fields : ∀ e ∈ o.fields, e ∈ written

inductive Shown (hash : Bytes → Nat) : Option RedisObject → Option KeyObject → Prop
  | absent : Shown hash none none
  | string (value : Bytes) : Shown hash (some (.string value)) (some (.string value))
  | hash {o : HashObject} {last : HashEntry} {written : Set HashEntry} :
      Remembers hash o last written → Shown hash (some (.hash o)) (some (.hash last written))

def Shows (hash : Bytes → Nat) (db : Database) (s : KeySpace) : Prop :=
  ∀ key, Shown hash (db.lookupKey key) (s key)

theorem empty_shows : Shows hash ∅ KeySpace.empty := fun _ => .absent

theorem Shown.isSome {obj : Option RedisObject} {k : Option KeyObject} (h : Shown hash obj k) :
    obj.isSome = k.isSome := by
  cases h <;> rfl

theorem Shows.isSome {db : Database} {s : KeySpace} (h : Shows hash db s) (key : Bytes) :
    (s.plain key).isSome ↔ key ∈ db := by
  rw [mem_iff_lookupKey, (h key).isSome, KeySpace.plain, Option.isSome_map]

theorem Shows.safe {db : Database} {s : KeySpace} (h : Shows hash db s) : db.Safe := by
  intro key hashObj hlook
  have hkey := h key
  rw [hlook] at hkey
  generalize s key = k at hkey
  cases hkey with
  | hash ho => exact ho.safe

theorem Shows.storeKey {db : Database} {s : KeySpace} (h : Shows hash db s) {obj : RedisObject}
    {k : KeyObject} (hobj : Shown hash (some obj) (some k)) (key : Bytes) :
    Shows hash (db.storeKey key obj) (Function.update s key (some k)) := by
  intro a
  rw [lookupKey_storeKey, Function.update_apply]
  split
  · exact hobj
  · exact h a

/-- A hash that is written to shows the new pair. -/
theorem Shown.write (hash : Bytes → Nat) {o : HashObject} {written : Set HashEntry}
    (hs : o.Safe) (hfields : ∀ e ∈ o.fields, e ∈ written) (field value : Bytes) :
    ∃ o', o.setField hash field value = .ok o' ∧
      Shown hash (some (.hash o'))
        (some (.hash (field, value) (insert (field, value) written))) := by
  obtain ⟨o', hset, hs', hmem, hget⟩ := hs.setField_shows hash field value
  exact ⟨o', hset, .hash ⟨hs', hget, fun e he => (hmem e he).imp id (hfields e)⟩⟩

theorem Shows.hset {db : Database} {s : KeySpace} (h : Shows hash db s) (key field value : Bytes) :
    (∃ v, s key = some (.string v) ∧
        db.hset hash key field value = .error (.exception WRONGTYPE)) ∨
      ∃ db', db.hset hash key field value = .ok db' ∧
        s.Answers (.hset key field value) (.integer 1) ∧
        Shows hash db' (s.next (.hset key field value)) := by
  have hkey := h key
  simp only [Database.hset, KeySpace.Answers, RefStore.Answers, KeySpace.plain, KeySpace.next]
  generalize db.lookupKey key = obj at hkey
  generalize s key = k at hkey
  cases hkey with
  | absent =>
    right
    have hnone : ∀ e ∈ HashObject.new.fields, e ∈ (∅ : Set HashEntry) := fun e he => by cases he
    obtain ⟨o, hset, ho⟩ := Shown.write hash HashObject.new_safe hnone field value
    rw [insert_empty_eq] at ho
    exact ⟨_, by simp only [hset]; rfl, trivial, h.storeKey ho key⟩
  | string v => exact Or.inl ⟨v, rfl, rfl⟩
  | hash ho =>
    right
    obtain ⟨o', hset, ho'⟩ := Shown.write hash ho.safe ho.fields field value
    exact ⟨_, by simp only [hset]; rfl, trivial, h.storeKey ho' key⟩

theorem Shows.get {db : Database} {s : KeySpace} (h : Shows hash db s) (key : Bytes) :
    db.get key = s.plain.string? key := by
  have hkey := h key
  simp only [Database.get, RefStore.string?, KeySpace.plain]
  generalize db.lookupKey key = obj at hkey
  generalize s key = k at hkey
  cases hkey <;> rfl

theorem Shows.hget {db : Database} {s : KeySpace} (h : Shows hash db s) (key field : Bytes) :
    ∃ v, db.hget hash key field = .ok v ∧ s.Answers (.hget key field) (.ofOption v) := by
  have hkey := h key
  simp only [Database.hget, KeySpace.Answers]
  generalize db.lookupKey key = obj at hkey
  generalize s key = k at hkey
  cases hkey with
  | absent => exact ⟨none, rfl, rfl⟩
  | string v => exact ⟨none, rfl, rfl⟩
  | hash ho =>
    obtain ⟨v, hget⟩ := ho.safe.getField hash field
    refine ⟨v, hget, ?_, ?_⟩
    · rintro rfl
      rw [ho.last] at hget
      cases hget
      rfl
    · cases v with
      | none => exact Or.inl rfl
      | some value => exact Or.inr ⟨value, rfl, ho.fields _ (ho.safe.mem_of_getField hget)⟩

theorem Shows.del {db : Database} {s : KeySpace} (h : Shows hash db s) (keys : List Bytes) :
    Shows hash (del keys db).2 (s.next (.del keys)) := by
  intro k
  rw [lookupKey_del]
  simp only [KeySpace.next, List.contains_iff_mem]
  split
  · exact .absent
  · exact h k

end Database

namespace CommandHandler

open Database

variable {hash : Bytes → Nat}

/-- What the key space answers to a command, and what it becomes. -/
def shownNext (s : KeySpace) (call : Call) : KeySpace := s.next (request call.1)

def shownAnswers (s : KeySpace) (call : Call) (resp : Bytes) : Prop :=
  ∃ reply, s.Answers (request call.1) reply ∧ reply.encode = resp

/-- Any request is answered as the key space answers it. -/
theorem perform_shows {w : World} {s : KeySpace} (r : Request) (env : Surroundings)
    (h : Shows hash w.db s) :
    ∃ reply w', perform hash env r w = .ok (reply, w') ∧ s.Answers r reply ∧
      Shows hash w'.db (s.next r) := by
  cases r with
  | ping => exact ⟨_, w, rfl, rfl, h⟩
  | set key value => exact ⟨_, _, rfl, rfl, h.storeKey (.string value) key⟩
  | get key => exact ⟨_, w, rfl, by rw [h.get]; rfl, h⟩
  | hset key field value =>
    rcases h.hset key field value with ⟨v, hs, hset⟩ | ⟨db', hset, hans, hst⟩
    · refine ⟨.error WRONGTYPE, w, by simp [perform, hset], ?_, ?_⟩
      · simp only [KeySpace.Answers, RefStore.Answers, KeySpace.plain, hs, Option.map_some]
      · simpa only [KeySpace.next, hs] using h
    · exact ⟨.integer 1, { w with db := db' }, by simp [perform, hset], hans, hst⟩
  | hget key field =>
    obtain ⟨v, hget, hans⟩ := h.hget key field
    exact ⟨.ofOption v, w, by simp [perform, hget], hans, h⟩
  | del keys =>
    refine ⟨_, _, rfl, ?_, h.del keys⟩
    simp only [KeySpace.Answers, RefStore.Answers, del_count, h.isSome]
  | exist keys =>
    have hpresent : (fun k => (s.plain k).isSome) = fun k => decide (k ∈ w.db) := by
      funext k
      rw [Bool.eq_iff_iff, h.isSome, decide_eq_true_iff]
    refine ⟨_, w, rfl, ?_, h⟩
    simp only [KeySpace.Answers, RefStore.Answers, exists_count, hpresent]
  | keys pattern =>
    obtain ⟨hn, hmem⟩ := getAllKeys_lists env.order pattern w.db
    refine ⟨_, w, rfl, ⟨_, rfl, hn, fun k => ?_⟩, h⟩
    rw [hmem, ← h.isSome, Option.isSome_iff_ne_none]
  | save =>
    obtain ⟨saved, dump, hsave⟩ :=
      RdbEncoder.saveToFile_returns h.safe env.order env.canOpen w.dump
    refine ⟨if saved then .ok else .error (bytes "ERR Failed to save RDB"), { w with dump },
      by simp [perform, hsave], ?_, h⟩
    cases saved with
    | false => exact Or.inr rfl
    | true => exact Or.inl rfl
  | refused msg => exact ⟨_, w, rfl, rfl, h⟩

theorem step_shows (w : World) (s : KeySpace) (call : Call) (h : Shows hash w.db s)
    (_ : True) :
    ∃ resp w', step hash call w = .ok (resp, w') ∧ shownAnswers s call resp ∧
      Shows hash w'.db (shownNext s call) := by
  obtain ⟨reply, w', hrun, hans, hst⟩ := perform_shows (request call.1) call.2 h
  exact ⟨reply.encode, w', by simp [step, execute_eq, encodeReply, hrun], ⟨reply, hans, rfl⟩, hst⟩

/-- **No value is invented**, whatever the hash function and the commands: keys,
types and strings are exact, a hash shows what was written to it last, and
every other value that is read was once written to that field. -/
theorem run_invents_nothing (hash : Bytes → Nat) (calls : List Call) :
    ∃ resps w, Run.run (step hash) calls World.empty = .ok (resps, w) ∧
      Run.Admits shownNext shownAnswers KeySpace.empty calls resps ∧
      Shows hash w.db (calls.foldl shownNext KeySpace.empty) :=
  Run.simulation step_shows calls World.empty KeySpace.empty empty_shows (Run.guarded_true _ _)

end CommandHandler

end MiniRedis
