import MiniRedis.DictProgress
import MiniRedis.StoreRefinement

/-!
Rehashing between commands.  `get_rehashing_dicts` hands out a pointer to every
Dict in mid-rehash, and `try_rehash_for_ms` can be called through them at any
time.  No reply tells whether it was, and a call that is given the time for it
ends the rehash.
-/

namespace MiniRedis

namespace Database

/-- The loop of `get_rehashing_dicts`; a pointer is the key and what is there. -/
def rehashingDicts : List (Bytes × RedisObject) → Exec (List (Bytes × Dict))
  | [] => pure []
  | (_, .string _) :: objs => rehashingDicts objs
  | (key, .hash hashObj) :: objs =>
      if hashObj.encoding = .HASHTABLE then do
        let d ← hashObj.getHashtable
        let result ← rehashingDicts objs
        if d.isRehashing then pure ((key, d) :: result) else pure result
      else rehashingDicts objs

def getRehashingDicts (order : Iteration) (db : Database) : Exec (List (Bytes × Dict)) :=
  rehashingDicts (order.visit db)

/-- `try_rehash_for_ms` through each of the pointers, with a deadline for each. -/
def rehashThrough (hash : Bytes → Nat) (deadline : Bytes → Nat) :
    List (Bytes × Dict) → Database → Exec Database
  | [], db => pure db
  | (key, d) :: dicts, db => do
      let d ← d.tryRehashForMs hash (deadline key)
      rehashThrough hash deadline dicts (db.storeKey key (.hash ⟨.HASHTABLE, .hashtable d⟩))

def rehashRound (hash : Bytes → Nat) (order : Iteration) (deadline : Bytes → Nat)
    (db : Database) : Exec Database := do
  let dicts ← db.getRehashingDicts order
  rehashThrough hash deadline dicts db

variable {hash : Bytes → Nat}

/-! ## One round -/

/-- The object of a table. -/
abbrev table (d : Dict) : RedisObject := .hash ⟨.HASHTABLE, .hashtable d⟩

/-- On safe objects exactly the tables in mid-rehash are handed out. -/
theorem rehashingDicts_ok {objs : List (Bytes × RedisObject)}
    (hs : ∀ obj ∈ objs, RdbEncoder.SafeObject obj.2) :
    ∃ dicts, rehashingDicts objs = .ok dicts ∧
      (AssocList.keys dicts).Sublist (AssocList.keys objs) ∧
      ∀ key d, (key, d) ∈ dicts ↔ (key, table d) ∈ objs ∧ d.isRehashing = true := by
  induction objs with
  | nil => exact ⟨[], rfl, .slnil, by simp⟩
  | cons obj objs ih =>
    obtain ⟨hobj, hs⟩ := List.forall_mem_cons.mp hs
    obtain ⟨dicts, hrun, hsub, hmem⟩ := ih hs
    obtain ⟨name, obj⟩ := obj
    cases obj with
    | string value =>
      exact ⟨dicts, hrun, hsub.trans (List.sublist_cons_self ..), fun key d => by simp [hmem]⟩
    | hash o =>
      cases hobj o rfl with
      | ziplist zl =>
        exact ⟨dicts, hrun, hsub.trans (List.sublist_cons_self ..), fun key d => by simp [hmem]⟩
      | @hashtable d₀ _ =>
        cases hr : d₀.isRehashing with
        | true =>
          refine ⟨(name, d₀) :: dicts, ?_, hsub.cons_cons name, fun key d => ?_⟩
          · simp [rehashingDicts, HashObject.getHashtable, hrun, hr]
          · simp only [List.mem_cons, Prod.mk.injEq, hmem, RedisObject.hash.injEq,
              HashObject.mk.injEq, Storage.hashtable.injEq, true_and]
            constructor
            · rintro (⟨rfl, rfl⟩ | ⟨hin, hd⟩)
              · exact ⟨Or.inl ⟨rfl, rfl⟩, hr⟩
              · exact ⟨Or.inr hin, hd⟩
            · rintro ⟨⟨rfl, rfl⟩ | hin, hd⟩
              · exact Or.inl ⟨rfl, rfl⟩
              · exact Or.inr ⟨hin, hd⟩
        | false =>
          refine ⟨dicts, ?_, hsub.trans (List.sublist_cons_self ..), fun key d => ?_⟩
          · simp [rehashingDicts, HashObject.getHashtable, hrun, hr]
          · simp only [List.mem_cons, Prod.mk.injEq, hmem, RedisObject.hash.injEq,
              HashObject.mk.injEq, Storage.hashtable.injEq, true_and]
            constructor
            · rintro ⟨hin, hd⟩
              exact ⟨Or.inr hin, hd⟩
            · rintro ⟨⟨rfl, rfl⟩ | hin, hd⟩
              · rw [hr] at hd
                cases hd
              · exact ⟨hin, hd⟩

theorem Safe.getRehashingDicts {db : Database} (hs : db.Safe) (order : Iteration) :
    ∃ dicts, db.getRehashingDicts order = .ok dicts ∧ (AssocList.keys dicts).Nodup ∧
      ∀ key d, (key, d) ∈ dicts ↔
        db.lookupKey key = some (table d) ∧ d.isRehashing = true := by
  obtain ⟨dicts, hrun, hsub, hmem⟩ := rehashingDicts_ok (hs.visited order)
  have hlists := db.lists_visit order
  exact ⟨dicts, hrun, hsub.nodup hlists.1, fun key d => by rw [hmem, hlists.2]⟩

theorem Safe.getRehashingDicts_idle {db : Database} (hs : db.Safe)
    (hidle : ∀ key d, db.lookupKey key = some (table d) → d.isRehashing = false)
    (order : Iteration) : db.getRehashingDicts order = .ok [] := by
  obtain ⟨dicts, hget, _, hmem⟩ := hs.getRehashingDicts order
  have hnone : ∀ dict, dict ∉ dicts := by
    intro dict hdict
    obtain ⟨hlook, hr⟩ := (hmem dict.1 dict.2).mp hdict
    rw [hidle dict.1 dict.2 hlook] at hr
    cases hr
  rw [hget, List.eq_nil_iff_forall_not_mem.mpr hnone]

/-- Every Dict that is pointed to is put back as the call leaves it, and nothing
else changes. -/
theorem rehashThrough_ok {deadline : Bytes → Nat} {P : Bytes → Dict → Prop}
    {dicts : List (Bytes × Dict)} (hn : (AssocList.keys dicts).Nodup)
    (hcall : ∀ key d, (key, d) ∈ dicts →
      ∃ d', d.tryRehashForMs hash (deadline key) = .ok d' ∧ P key d') (db : Database) :
    ∃ db', rehashThrough hash deadline dicts db = .ok db' ∧
      (∀ key ∉ AssocList.keys dicts, db'.lookupKey key = db.lookupKey key) ∧
      ∀ key ∈ AssocList.keys dicts, ∃ d', db'.lookupKey key = some (table d') ∧ P key d' := by
  induction dicts generalizing db with
  | nil => exact ⟨db, rfl, fun _ _ => rfl, by simp [AssocList.keys]⟩
  | cons dict dicts ih =>
    obtain ⟨name, d⟩ := dict
    obtain ⟨hname, hn⟩ := List.nodup_cons.mp hn
    obtain ⟨d', hd', hP⟩ := hcall name d (List.mem_cons_self ..)
    obtain ⟨db', hrun, hout, hin⟩ := ih hn
      (fun key d hmem => hcall key d (List.mem_cons_of_mem _ hmem)) (db.storeKey name (table d'))
    refine ⟨db', by simp only [rehashThrough, hd', Exec.ok_bind, hrun], fun key hkey => ?_,
      fun key hkey => ?_⟩
    · obtain ⟨hne, hkey⟩ := not_or.mp (List.mem_cons.not.mp hkey)
      rw [hout key hkey, lookupKey_storeKey, if_neg hne]
    · rcases List.mem_cons.mp hkey with heq | hkey
      · rw [show key = name from heq]
        exact ⟨d', by rw [hout name hname, lookupKey_storeKey, if_pos rfl], hP⟩
      · exact hin key hkey

/-- A round on safe objects: the tables in mid-rehash are rehashed as far as
their deadlines allow. -/
theorem Safe.rehashRound {db : Database} (hs : db.Safe) (order : Iteration)
    (deadline : Bytes → Nat) {P : Bytes → Dict → Prop}
    (hcall : ∀ key d, db.lookupKey key = some (table d) → d.isRehashing = true →
      ∃ d', d.tryRehashForMs hash (deadline key) = .ok d' ∧ P key d') :
    ∃ db', db.rehashRound hash order deadline = .ok db' ∧
      ∀ key, (db'.lookupKey key = db.lookupKey key ∧
          ∀ d, db.lookupKey key = some (table d) → d.isRehashing = false) ∨
        ∃ d d', db.lookupKey key = some (table d) ∧
          db'.lookupKey key = some (table d') ∧ P key d' := by
  obtain ⟨dicts, hget, hn, hmem⟩ := hs.getRehashingDicts order
  obtain ⟨db', hrun, hout, hin⟩ := rehashThrough_ok hn (fun key d hd =>
    hcall key d ((hmem key d).mp hd).1 ((hmem key d).mp hd).2) db
  refine ⟨db', by simp only [Database.rehashRound, hget, Exec.ok_bind, hrun], fun key => ?_⟩
  by_cases hkey : key ∈ AssocList.keys dicts
  · right
    obtain ⟨dict, hdict, hname⟩ := List.mem_map.mp hkey
    obtain ⟨d', hd', hP⟩ := hin key hkey
    obtain ⟨hlook, _⟩ := (hmem dict.1 dict.2).mp hdict
    rw [hname] at hlook
    exact ⟨dict.2, d', hlook, hd', hP⟩
  · left
    refine ⟨hout key hkey, fun d hlook => ?_⟩
    rw [← Bool.not_eq_true]
    intro hr
    exact hkey (AssocList.mem_keys_of_mem ((hmem key d).mpr ⟨hlook, hr⟩))

/-- A round is nothing to the store that the database stands for. -/
theorem Stores.rehashRound {db : Database} {s : RefStore} (h : Stores hash db s)
    (order : Iteration) (deadline : Bytes → Nat) :
    ∃ db', db.rehashRound hash order deadline = .ok db' ∧ Stores hash db' s := by
  obtain ⟨db', hrun, hkeys⟩ := h.safe.rehashRound order deadline
    (P := fun key d' => Represents hash (some (table d')) (s key)) fun key d hlook _ => by
      have hrep := h key
      rw [hlook] at hrep
      generalize s key = ref at hrep
      cases hrep with
      | hash ho =>
        cases ho with
        | hashtable hd =>
          obtain ⟨d', hrun, hd'⟩ := hd.tryRehashForMs (deadline key)
          exact ⟨d', hrun, .hash (.hashtable hd')⟩
  refine ⟨db', hrun, fun key => ?_⟩
  rcases hkeys key with ⟨hsame, _⟩ | ⟨_, d', _, hlook, hrep⟩
  · rw [hsame]
    exact h key
  · rw [hlook]
    exact hrep

end Database

namespace Maintenance

open Database

variable {hash : Bytes → Nat}

/-! ## Rounds between commands -/

inductive Event where
  | command (call : CommandHandler.Call)
  | round (order : Iteration) (deadline : Bytes → Nat)

/-- The reply to a command; a round has none. -/
def step (hash : Bytes → Nat) : Event → World → Exec (Option Bytes × World)
  | .command call, w => do
      let (resp, w) ← CommandHandler.step hash call w
      pure (some resp, w)
  | .round order deadline, w => do
      let db ← w.db.rehashRound hash order deadline
      pure (none, { w with db })

def refNext (s : RefStore) : Event → RefStore
  | .command call => CommandHandler.refNext s call
  | .round .. => s

def refAnswers (s : RefStore) : Event → Option Bytes → Prop
  | .command call, a => ∃ resp, a = some resp ∧ CommandHandler.refAnswers s call resp
  | .round .., a => a = none

/-- The condition on one event: an `HSET` writes behind no migration. -/
def EventUnmigrated (hash : Bytes → Nat) (w : World) : Event → Prop
  | .command call => CommandHandler.CallUnmigrated hash w call
  | .round .. => True

instance (w : World) : (event : Event) → Decidable (EventUnmigrated hash w event)
  | .command call => inferInstanceAs (Decidable (CommandHandler.CallUnmigrated hash w call))
  | .round .. => .isTrue trivial

theorem step_refines (w : World) (s : RefStore) (event : Event) (h : Stores hash w.db s)
    (hu : EventUnmigrated hash w event) :
    ∃ a w', step hash event w = .ok (a, w') ∧ refAnswers s event a ∧
      Stores hash w'.db (refNext s event) := by
  cases event with
  | command call =>
    obtain ⟨resp, w', hrun, hans, hst⟩ := CommandHandler.step_refines w s call h hu
    exact ⟨some resp, w', by simp only [step, hrun, Exec.ok_bind, Exec.pure_eq], ⟨resp, rfl, hans⟩,
      hst⟩
  | round order deadline =>
    obtain ⟨db', hrun, hst⟩ := h.rehashRound order deadline
    exact ⟨none, { w with db := db' }, by simp only [step, hrun, Exec.ok_bind, Exec.pure_eq], rfl,
      hst⟩

/-- **Rehashing is invisible.**  Commands with rounds between them, wherever they
come and however long they last, are answered as the reference store answers
the commands alone. -/
theorem maintenance_is_invisible (hash : Bytes → Nat) (events : List Event)
    (hu : Run.Guarded (step hash) (EventUnmigrated hash) World.empty events) :
    ∃ answers w, Run.run (step hash) events World.empty = .ok (answers, w) ∧
      Run.Admits refNext refAnswers RefStore.empty events answers ∧
      Stores hash w.db (events.foldl refNext RefStore.empty) :=
  Run.simulation step_refines events World.empty RefStore.empty empty_stores hu

/-- A rehash that a round ends, and a field that is read afterwards. -/
def roundsBetween : List Event :=
  (CommandHandler.aheadCalls.take 4).map .command ++ [.round .stored fun _ => 0] ++
    (CommandHandler.aheadCalls.drop 4).map .command

theorem maintenance_is_invisible_between :
    ∃ answers w, Run.run (step Dict.firstByte) roundsBetween World.empty = .ok (answers, w) ∧
      Run.Admits refNext refAnswers RefStore.empty roundsBetween answers ∧
      Stores Dict.firstByte w.db (roundsBetween.foldl refNext RefStore.empty) :=
  maintenance_is_invisible Dict.firstByte roundsBetween (by decide +kernel)

end Maintenance

/-! ## What a round ends -/

namespace Dict

variable {hash : Bytes → Nat}

/-- A Dict that counts something; its rehash can go on. -/
structure Busy (d : Dict) : Prop extends Sane d where
  positive : 0 < d.used

theorem Busy.rehashStep {d : Dict} (h : Busy d) (n : Nat) :
    ∃ r d', Dict.rehashStep hash n d = .ok (r, d') ∧ Busy d' := by
  cases hr : d.isRehashing with
  | false => exact ⟨0, d, rehashStep_idle hr, h⟩
  | true =>
    obtain ⟨⟨r, d'⟩, hrun, hout⟩ := rehashStep_outcome hash n h.toSane hr
    exact ⟨r, d', hrun, hout.sane h.toSane, by rw [hout.used]; exact h.positive⟩

theorem Busy.tryRehashForMs {d : Dict} (h : Busy d) (hash : Bytes → Nat) (deadline : Nat) :
    ∃ d', Dict.tryRehashForMs hash deadline d = .ok d' ∧ Busy d' :=
  tryRehashForMs_keeps (fun _ h => h.rehashStep 100) deadline h

/-- Behind `set_field` something is counted: the entry is new, or it is there. -/
theorem Sane.setField_busy {d : Dict} (hs : Sane d) (hash : Bytes → Nat) (key value : Bytes) :
    ∃ d', Dict.setField hash key value d = .ok d' ∧ Busy d' := by
  obtain ⟨d', hrun', hs'⟩ := hs.setField hash key value
  obtain ⟨d₁, hrun, hs₁⟩ := hs.advance hash
  have hcounted := hs₁.counted
  obtain ⟨head, hh, ⟨head', hassign, hset⟩ | ⟨_, hset⟩⟩ := setField_cases key value hrun hs₁
  · rw [hrun'] at hset
    cases hset
    refine ⟨_, hrun', hs', ?_⟩
    have hhead : head ≠ [] := by
      rintro rfl
      cases hassign
    have hpos := List.length_pos_of_ne_nil hhead
    have hin := (List.sublist_flatten_of_mem (List.mem_of_getElem? hh)).length_le
    rw [entries, List.length_append] at hcounted
    change 0 < d₁.used
    omega
  · rw [hrun'] at hset
    cases hset
    refine ⟨_, hrun', hs', ?_⟩
    have hmain : 0 < (d₁.ht0.set (hash key % d₁.ht0.length) ((key, value) :: head)).length := by
      simpa using hs₁.main
    rw [(expandIfNeeded_resized hmain).used]
    change 0 < d₁.used + 1
    omega

end Dict

namespace HashObject

variable {hash : Bytes → Nat}

/-- A ziplist, or a table that counts something. -/
inductive Busy : HashObject → Prop
  | ziplist (zl : Ziplist) : Busy ⟨.ZIPLIST, .ziplist zl⟩
  | hashtable {d : Dict} : Dict.Busy d → Busy ⟨.HASHTABLE, .hashtable d⟩

/-- Every object that is only ever written to is busy. -/
theorem busy_kept (hash : Bytes → Nat) : Kept hash Busy where
  fresh := .ziplist []
  safe := fun o h => by
    cases h with
    | ziplist zl => exact .ziplist zl
    | hashtable hd => exact .hashtable hd.toSane
  set := fun o field value h => by
    cases h with
    | ziplist zl =>
      rcases setField_ziplist hash zl field value with ⟨_, hrun⟩ | ⟨_, zl', hrun, _⟩
      · obtain ⟨d₁, hins, hs₁⟩ := insertAll_sane hash zl Dict.new_sane
        obtain ⟨d, hset, hd⟩ := hs₁.setField_busy hash field value
        rw [insertAll_append, hins, Exec.ok_bind, hset] at hrun
        exact ⟨_, hrun, .hashtable hd⟩
      · exact ⟨_, hrun, .ziplist zl'⟩
    | hashtable hd =>
      obtain ⟨d', hset, hd'⟩ := hd.toSane.setField_busy hash field value
      exact ⟨_, by simp [setField, getHashtable, hset], .hashtable hd'⟩

end HashObject

namespace Maintenance

open Database

variable {hash : Bytes → Nat}

/-- Every Dict in mid-rehash is given a batch for each of its old buckets. -/
def Late (deadline : Bytes → Nat) (db : Database) : Prop :=
  ∀ key d, db.lookupKey key = some (table d) → d.isRehashing = true → d.ht0.length ≤ deadline key

/-- A round leaves busy objects busy, and a late one none in mid-rehash. -/
theorem round_busy (hash : Bytes → Nat) {db : Database} (h : db.All HashObject.Busy)
    (order : Iteration) (deadline : Bytes → Nat) :
    ∃ db', db.rehashRound hash order deadline = .ok db' ∧ db'.All HashObject.Busy ∧
      (Late deadline db → ∀ order', db'.getRehashingDicts order' = .ok []) := by
  have hsafe : db.Safe := h.safe (HashObject.busy_kept hash)
  obtain ⟨db', hrun, hkeys⟩ := hsafe.rehashRound order deadline
    (P := fun _ d' => d'.Busy ∧ (Late deadline db → d'.isRehashing = false))
    fun key d hlook hr => by
      cases h key _ hlook with
      | hashtable hd =>
        obtain ⟨d', hrun, hd'⟩ := hd.tryRehashForMs hash (deadline key)
        refine ⟨d', hrun, hd', fun hlate => ?_⟩
        have hbatches := hlate key d hlook hr
        obtain ⟨d'', hrun', hdone⟩ : ∃ d', d.tryRehashForMs hash (deadline key) = .ok d' ∧
            d'.isRehashing = false :=
          Dict.tryRehashForMs_complete hash hd.toSane hd.positive fun hr => by
            have hnonneg := hd.nonneg hr
            omega
        rw [hrun] at hrun'
        cases hrun'
        exact hdone
  have hbusy : db'.All HashObject.Busy := by
    intro key o hlook
    rcases hkeys key with ⟨hsame, _⟩ | ⟨_, d', _, htable, hd', _⟩
    · rw [hsame] at hlook
      exact h key o hlook
    · rw [htable] at hlook
      cases hlook
      exact .hashtable hd'
  have hsafe' : db'.Safe := hbusy.safe (HashObject.busy_kept hash)
  refine ⟨db', hrun, hbusy, fun hlate => hsafe'.getRehashingDicts_idle fun key d hlook => ?_⟩
  rcases hkeys key with ⟨hsame, hidle⟩ | ⟨_, d', _, htable, _, hdone⟩
  · rw [hsame] at hlook
    exact hidle d hlook
  · rw [htable] at hlook
    cases hlook
    exact hdone hlate

theorem step_busy (w : World) (event : Event) (h : w.db.All HashObject.Busy) :
    ∃ a w', step hash event w = .ok (a, w') ∧ w'.db.All HashObject.Busy := by
  cases event with
  | command call =>
    obtain ⟨resp, w', hrun, h'⟩ :=
      CommandHandler.execute_all (HashObject.busy_kept hash) call.2 call.1 h
    exact ⟨some resp, w', by simp only [step, CommandHandler.step, hrun, Exec.ok_bind,
      Exec.pure_eq], h'⟩
  | round order deadline =>
    obtain ⟨db', hrun, h', _⟩ := round_busy hash h order deadline
    exact ⟨none, { w with db := db' }, by simp only [step, hrun, Exec.ok_bind, Exec.pure_eq], h'⟩

end Maintenance

end MiniRedis
