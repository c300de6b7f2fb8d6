import MiniRedis.Lib.Footprint
import MiniRedis.Safety

/-!
Clients that name different keys do not notice each other.  Every command other
than `KEYS` and `SAVE` reads and writes only under the keys it names, so a crowd
of clients is answered as if each were alone.
-/

namespace MiniRedis

/-- The keys a request names. -/
def Request.keysNamed : Request → List Bytes
  | .set key _ => [key]
  | .get key => [key]
  | .hset key _ _ => [key]
  | .hget key _ => [key]
  | .del ks => ks
  | .exist ks => ks
  | _ => []

namespace Database

variable {hash : Bytes → Nat} {db db' : Database}

/-! ## Reading under named keys -/

/-- The two stores hold the same under the keys. -/
def AgreeOn (keys : List Bytes) (db db' : Database) : Prop :=
  ∀ k ∈ keys, db.lookupKey k = db'.lookupKey k

theorem AgreeOn.mem_iff {keys : List Bytes} (h : AgreeOn keys db db') {key : Bytes}
    (hk : key ∈ keys) : key ∈ db ↔ key ∈ db' := by
  rw [mem_iff_lookupKey, mem_iff_lookupKey, h key hk]

theorem AgreeOn.erase {keys : List Bytes} (h : AgreeOn keys db db') (key : Bytes) :
    AgreeOn keys (db.erase key) (db'.erase key) := by
  intro k hk
  rw [lookupKey_erase, lookupKey_erase, h k hk]

theorem AgreeOn.tail {key : Bytes} {keys : List Bytes} (h : AgreeOn (key :: keys) db db') :
    AgreeOn keys db db' := fun k hk => h k (List.mem_cons_of_mem key hk)

theorem AgreeOn.del_count {keys : List Bytes} (h : AgreeOn keys db db') :
    (del keys db).1 = (del keys db').1 := by
  induction keys generalizing db db' with
  | nil => rfl
  | cons key keys ih =>
    have hmem := h.mem_iff (List.mem_cons_self ..)
    simp only [del, hmem, ih (h.tail.erase key)]

theorem AgreeOn.exists_count {keys : List Bytes} (h : AgreeOn keys db db') :
    Database.exists keys db = Database.exists keys db' := by
  induction keys with
  | nil => rfl
  | cons key keys ih =>
    have hmem := h.mem_iff (List.mem_cons_self ..)
    simp only [Database.exists, hmem, ih h.tail]

end Database

namespace CommandHandler

open Database

variable {hash : Bytes → Nat} {env : Surroundings} {r : Request}

/-! ## Requests -/

/-- What `hset` finds under its key decides its outcome. -/
theorem hset_depends (hash : Bytes → Nat) {db db' : Database} {key : Bytes}
    (h : db.lookupKey key = db'.lookupKey key) (field value : Bytes) :
    (∃ e, db.hset hash key field value = .error e ∧ db'.hset hash key field value = .error e) ∨
      ∃ obj, db.hset hash key field value = .ok (db.storeKey key obj) ∧
        db'.hset hash key field value = .ok (db'.storeKey key obj) := by
  simp only [hset, h]
  cases db'.lookupKey key with
  | none =>
    cases hset : HashObject.new.setField hash field value with
    | error e => exact Or.inl ⟨e, rfl, rfl⟩
    | ok o => exact Or.inr ⟨.hash o, rfl, rfl⟩
  | some obj =>
    cases obj with
    | string s => exact Or.inl ⟨_, rfl, rfl⟩
    | hash o =>
      cases hset : o.setField hash field value with
      | error e => exact Or.inl ⟨e, by simp only [hset]; rfl, by simp only [hset]; rfl⟩
      | ok o' =>
        exact Or.inr ⟨.hash o', by simp only [hset]; rfl, by simp only [hset]; rfl⟩

/-- A request leaves every key it does not name alone. -/
theorem perform_frame {w w' : World} {reply : Reply}
    (h : perform hash env r w = .ok (reply, w')) {k : Bytes} (hk : k ∉ r.keysNamed) :
    w'.db.lookupKey k = w.db.lookupKey k := by
  cases r with
  | ping | get _ | exist _ | keys _ | refused _ =>
    cases h
    rfl
  | set key value =>
    cases h
    have hne : k ≠ key := by simpa [Request.keysNamed] using hk
    simp [Database.set, lookupKey_storeKey, hne]
  | hset key field value =>
    have hne : k ≠ key := by simpa [Request.keysNamed] using hk
    simp only [perform] at h
    rcases hset_depends hash (rfl : w.db.lookupKey key = w.db.lookupKey key) field value
      with ⟨e, hset, _⟩ | ⟨obj, hset, _⟩
    · rw [hset] at h
      cases e with
      | undefined => cases h
      | exception what =>
        cases h
        rfl
    · rw [hset] at h
      cases h
      simp [lookupKey_storeKey, hne]
  | hget key field =>
    obtain ⟨v, _, hv⟩ := Exec.bind_eq_ok.mp h
    cases hv
    rfl
  | del keys =>
    cases h
    have hne : k ∉ keys := hk
    simp [lookupKey_del, hne]
  | save =>
    obtain ⟨⟨saved, dump⟩, _, hv⟩ := Exec.bind_eq_ok.mp h
    cases hv
    rfl

/-- A request that names its keys is answered by what is under them. -/
theorem perform_depends {w t w' t' : World} {reply reply' : Reply}
    (hkeys : ∀ pattern, r ≠ .keys pattern) (hsave : r ≠ .save)
    (ha : AgreeOn r.keysNamed w.db t.db) (hw : perform hash env r w = .ok (reply, w'))
    (ht : perform hash env r t = .ok (reply', t')) :
    reply = reply' ∧ AgreeOn r.keysNamed w'.db t'.db := by
  cases r with
  | keys pattern => exact absurd rfl (hkeys pattern)
  | save => exact absurd rfl hsave
  | ping | refused _ =>
    cases hw
    cases ht
    exact ⟨rfl, ha⟩
  | set key value =>
    cases hw
    cases ht
    refine ⟨rfl, fun k hk => ?_⟩
    rw [List.mem_singleton.mp hk]
    simp [Database.set, lookupKey_storeKey]
  | get key =>
    cases hw
    cases ht
    have hl := ha key (List.mem_singleton.mpr rfl)
    exact ⟨by simp only [Database.get, hl], ha⟩
  | hset key field value =>
    simp only [perform] at hw ht
    rcases hset_depends hash (ha key (List.mem_singleton.mpr rfl)) field value
      with ⟨e, h, h'⟩ | ⟨obj, h, h'⟩
    · rw [h] at hw
      rw [h'] at ht
      cases e with
      | undefined => cases hw
      | exception what =>
        cases hw
        cases ht
        exact ⟨rfl, ha⟩
    · rw [h] at hw
      rw [h'] at ht
      cases hw
      cases ht
      refine ⟨rfl, fun k hk => ?_⟩
      rw [List.mem_singleton.mp hk]
      simp [lookupKey_storeKey]
  | hget key field =>
    have hl := ha key (List.mem_singleton.mpr rfl)
    simp only [perform, hget, hl] at hw
    simp only [perform, hget] at ht
    obtain ⟨v, hv, hw⟩ := Exec.bind_eq_ok.mp hw
    obtain ⟨v', hv', ht⟩ := Exec.bind_eq_ok.mp ht
    rw [hv] at hv'
    cases hv'
    cases hw
    cases ht
    exact ⟨rfl, ha⟩
  | del keys =>
    cases hw
    cases ht
    have hcount : (del keys w.db).1 = (del keys t.db).1 := AgreeOn.del_count ha
    refine ⟨by rw [hcount], fun k hk => ?_⟩
    have hmem : k ∈ keys := hk
    simp [lookupKey_del, hmem]
  | exist keys =>
    cases hw
    cases ht
    have hcount : Database.exists keys w.db = Database.exists keys t.db :=
      AgreeOn.exists_count ha
    exact ⟨by rw [hcount], ha⟩

/-! ## Commands -/

/-- The command is neither `KEYS` nor `SAVE`. -/
def Keyed (args : List Bytes) : Prop := ∀ name rest, args = name :: rest →
  toUpper name ≠ bytes "KEYS" ∧ toUpper name ≠ bytes "SAVE"

instance : (args : List Bytes) → Decidable (Keyed args)
  | [] => .isTrue (by rintro _ _ ⟨⟩)
  | name :: rest => decidable_of_iff
      (toUpper name ≠ bytes "KEYS" ∧ toUpper name ≠ bytes "SAVE")
      ⟨by rintro h _ _ ⟨⟩; exact h, fun h => h name rest rfl⟩

/-- The keys a command names. -/
def keysNamed (args : List Bytes) : Set Bytes := {k | k ∈ (request args).keysNamed}

theorem Keyed.request {args : List Bytes} (h : Keyed args) :
    (∀ pattern, CommandHandler.request args ≠ .keys pattern) ∧
      CommandHandler.request args ≠ .save := by
  cases args with
  | nil => exact ⟨fun _ => by rintro ⟨⟩, by rintro ⟨⟩⟩
  | cons name args =>
    obtain ⟨hkeys, hsave⟩ := h name args rfl
    simp only [CommandHandler.request]
    cases hcmd : commands.lookup (toUpper name) with
    | none => exact ⟨fun _ => by rintro ⟨⟩, by rintro ⟨⟩⟩
    | some pick =>
      have hpick := commands_pick (AssocList.mem_of_lookup hcmd) (name :: args)
      show (∀ pattern, pick (name :: args) ≠ .keys pattern) ∧ pick (name :: args) ≠ .save
      generalize toUpper name = cmd at hpick hkeys hsave
      generalize pick (name :: args) = r at hpick
      cases hpick with
      | keys => exact absurd rfl hkeys
      | save => exact absurd rfl hsave
      | _ => exact ⟨fun _ => by rintro ⟨⟩, by rintro ⟨⟩⟩

theorem execute_local {args : List Bytes} (hk : Keyed args) :
    Footprint.Local (execute hash env) (fun w key => w.db.lookupKey key) keysNamed
      (fun w => w.db.Safe) args where
  returns _ hs := execute_safe hash env args hs
  frame _ hrun _ hk := by
    obtain ⟨_, hperform, _⟩ := execute_ok hrun
    exact perform_frame hperform hk
  depends _ _ ha hrun hrun' := by
    obtain ⟨_, hperform, rfl⟩ := execute_ok hrun
    obtain ⟨_, hperform', rfl⟩ := execute_ok hrun'
    obtain ⟨hreply, hagree⟩ := perform_depends hk.request.1 hk.request.2 ha hperform hperform'
    exact ⟨by rw [hreply], hagree⟩

/-- **Client isolation by key.**  Clients that name disjoint keys get the replies
they would get alone, and every interleaving of their commands ends with the
same object under every key. -/
theorem clients_isolated {ι : Type} [DecidableEq ι] (hash : Bytes → Nat) (env : Surroundings)
    (schedule : List (ι × List Bytes)) (w : World) (hs : w.db.Safe)
    (hkeyed : ∀ e ∈ schedule, Keyed e.2) (hsep : Footprint.Separate keysNamed schedule) :
    ∃ replies w', Run.run (Footprint.tagged (execute hash env)) schedule w = .ok (replies, w') ∧
      (∀ client, ∃ w₁, Run.run (execute hash env) (Footprint.own client schedule) w =
        .ok (Footprint.own client replies, w₁)) ∧
      ∀ schedule', (∀ client, Footprint.own client schedule' = Footprint.own client schedule) →
        ∃ replies' w'', Run.run (Footprint.tagged (execute hash env)) schedule' w =
          .ok (replies', w'') ∧ ∀ key, w''.db.lookupKey key = w'.db.lookupKey key :=
  Footprint.isolation (fun e he => execute_local (hkeyed e he)) hsep hs

/-- Two clients on two keys; the first deletes a key twice and sends nonsense. -/
def twoClients : List (Bool × List Bytes) :=
  [(true, [bytes "SET", [1], [5]]), (false, [bytes "HSET", [2], [3], [4]]),
    (true, [bytes "DEL", [1], [1]]), (false, [bytes "GET", [2]]), (true, [bytes "nonsense"])]

theorem clients_isolated_two :
    ∃ replies w', Run.run (Footprint.tagged (execute (fun _ => 0) ⟨.stored, true⟩)) twoClients
        World.empty = .ok (replies, w') ∧
      (∀ client, ∃ w₁, Run.run (execute (fun _ => 0) ⟨.stored, true⟩)
        (Footprint.own client twoClients) World.empty =
          .ok (Footprint.own client replies, w₁)) ∧
      ∀ schedule', (∀ client, Footprint.own client schedule' = Footprint.own client twoClients) →
        ∃ replies' w'', Run.run (Footprint.tagged (execute (fun _ => 0) ⟨.stored, true⟩)) schedule'
          World.empty = .ok (replies', w'') ∧
            ∀ key, w''.db.lookupKey key = w'.db.lookupKey key := by
  refine clients_isolated (fun _ => 0) ⟨.stored, true⟩ twoClients World.empty Database.empty_safe
    (by decide) ?_
  show ∀ e ∈ twoClients, ∀ e' ∈ twoClients, e.1 ≠ e'.1 →
    ∀ k ∈ (request e.2).keysNamed, k ∉ (request e'.2).keysNamed
  decide

end CommandHandler

end MiniRedis
