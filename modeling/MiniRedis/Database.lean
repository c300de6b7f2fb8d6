import Mathlib.Data.List.AList
import MiniRedis.HashObject

/-!
`Database`: the objects behind the commands, in an unordered map.  Replacing an
object under its key stands for changing it through the shared pointer; no
object is shared between keys.
-/

namespace MiniRedis

/-- The objects that commands and the loader create; the constructor is what
`type()` returns. -/
inductive RedisObject where
  | string (value : Bytes)
  | hash (o : HashObject)
  deriving DecidableEq, Repr

/-- `data_`, a `std::unordered_map<std::string, std::shared_ptr<RedisObject>>`. -/
abbrev Database := AList fun _ : Bytes => RedisObject

/-- One order in which a range-for over an unordered map visits it. -/
structure Iteration where
  visit : Database → List (Bytes × RedisObject)
  perm : ∀ db, (visit db).Perm (db.entries.map fun e => (e.1, e.2))

/-- The order in which the model keeps the entries. -/
def Iteration.stored : Iteration := ⟨fun db => db.entries.map fun e => (e.1, e.2), fun _ => .refl _⟩

namespace Database

def lookupKey (key : Bytes) (db : Database) : Option RedisObject := db.lookup key

def storeKey (key : Bytes) (obj : RedisObject) (db : Database) : Database := db.insert key obj

/-! ## Strings -/

def set (key value : Bytes) (db : Database) : Database := db.storeKey key (.string value)

def get (key : Bytes) (db : Database) : Option Bytes :=
  match db.lookupKey key with
  | some (.string value) => some value
  | _ => none

/-! ## Hashes -/

def WRONGTYPE : Bytes :=
  bytes "WRONGTYPE Operation against a key holding the wrong kind of value"

def hset (hash : Bytes → Nat) (key field value : Bytes) (db : Database) : Exec Database :=
  match db.lookupKey key with
  | none => do
      let hashObj ← HashObject.new.setField hash field value
      pure (db.storeKey key (.hash hashObj))
  | some (.hash hashObj) => do
      let hashObj ← hashObj.setField hash field value
      pure (db.storeKey key (.hash hashObj))
  | some (.string _) => throw (.exception WRONGTYPE)

def hget (hash : Bytes → Nat) (key field : Bytes) (db : Database) : Exec (Option Bytes) :=
  match db.lookupKey key with
  | some (.hash hashObj) => hashObj.getField hash field
  | _ => pure none

/-! ## Keys -/

/-- `Database::del`: a key that occurs twice is erased, and counted, once. -/
def del : List Bytes → Database → Nat × Database
  | [], db => (0, db)
  | key :: keys, db =>
      let (count, db') := del keys (db.erase key)
      (if key ∈ db then count + 1 else count, db')

def getAllKeys (order : Iteration) (pattern : Bytes) (db : Database) : List Bytes :=
  if pattern ≠ bytes "*" then [] else (order.visit db).map Prod.fst

end Database

/-- `Database::exists`: a key that occurs twice is counted twice. -/
def Database.exists : List Bytes → Database → Nat
  | [], _ => 0
  | key :: keys, db => if key ∈ db then Database.exists keys db + 1 else Database.exists keys db

namespace Database

/-! ## Reading the map -/

variable {hash : Bytes → Nat}

theorem lookupKey_storeKey (key : Bytes) (obj : RedisObject) (db : Database) (k : Bytes) :
    (db.storeKey key obj).lookupKey k = if k = key then some obj else db.lookupKey k := by
  by_cases hk : k = key
  · subst hk
    simp [lookupKey, storeKey]
  · simp [lookupKey, storeKey, hk, AList.lookup_insert_ne hk]

theorem lookupKey_erase (key : Bytes) (db : Database) (k : Bytes) :
    lookupKey k (db.erase key) = if k = key then none else db.lookupKey k := by
  by_cases hk : k = key
  · subst hk
    simp [lookupKey]
  · simp [lookupKey, hk, AList.lookup_erase_ne hk]

theorem mem_iff_lookupKey {key : Bytes} {db : Database} :
    key ∈ db ↔ (db.lookupKey key).isSome := AList.lookup_isSome.symm

/-- Every key of the list is gone, every other key is as it was. -/
theorem lookupKey_del (keys : List Bytes) (db : Database) (k : Bytes) :
    (del keys db).2.lookupKey k = if k ∈ keys then none else db.lookupKey k := by
  induction keys generalizing db with
  | nil => rfl
  | cons key keys ih =>
    rw [show (del (key :: keys) db).2 = (del keys (db.erase key)).2 from rfl, ih,
      lookupKey_erase]
    by_cases hk : k = key
    · simp [hk]
    · simp [hk]

/-- What a range-for visits, as a listing of the map. -/
theorem lists_visit (order : Iteration) (db : Database) :
    AssocList.Lists (fun k => db.lookupKey k) (order.visit db) := by
  have hstored : AssocList.Lists (fun k => db.lookupKey k)
      (db.entries.map fun e => (e.1, e.2)) := by
    refine ⟨?_, ?_⟩
    · have : AssocList.keys (db.entries.map fun e => (e.1, e.2)) = db.keys := by
        simp [AssocList.keys, AList.keys, List.keys, Function.comp_def]
      rw [this]
      exact db.keys_nodup
    · intro k v
      have hmem : (k, v) ∈ db.entries.map (fun e => (e.1, e.2)) ↔
          (⟨k, v⟩ : Sigma _) ∈ db.entries := by
        simp
      exact hmem.trans AList.mem_lookup_iff.symm
  exact hstored.perm (order.perm db).symm

/-! ## Safety -/

/-- Every hash object satisfies `P`. -/
def All (P : HashObject → Prop) (db : Database) : Prop := ∀ key hashObj,
  db.lookupKey key = some (.hash hashObj) → P hashObj

/-- Every hash object is safe. -/
def Safe (db : Database) : Prop := ∀ key hashObj, db.lookupKey key = some (.hash hashObj) →
  hashObj.Safe

section All

variable {P : HashObject → Prop} {db : Database}

theorem all_empty : All P ∅ := by
  intro key hashObj h
  cases h

theorem All.storeKey (hs : All P db) {obj : RedisObject}
    (hobj : ∀ hashObj, obj = .hash hashObj → P hashObj) (key : Bytes) :
    All P (db.storeKey key obj) := by
  intro k hashObj h
  rw [lookupKey_storeKey] at h
  split at h
  · exact hobj hashObj (Option.some.inj h)
  · exact hs k hashObj h

theorem All.set (hs : All P db) (key value : Bytes) : All P (db.set key value) :=
  hs.storeKey (by rintro _ ⟨⟩) key

theorem All.del (hs : All P db) (keys : List Bytes) : All P (del keys db).2 := by
  intro k hashObj h
  rw [lookupKey_del] at h
  split at h
  · cases h
  · exact hs k hashObj h

/-- `hset` either binds under its key or finds a string there. -/
theorem All.hset (hP : HashObject.Kept hash P) (hs : All P db) (key field value : Bytes) :
    (∃ s, db.lookupKey key = some (.string s) ∧
        hset hash key field value db = .error (.exception WRONGTYPE)) ∨
      ∃ hashObj, P hashObj ∧
        hset hash key field value db = .ok (db.storeKey key (.hash hashObj)) := by
  cases hk : db.lookupKey key with
  | none =>
    obtain ⟨hashObj, hset, hobj⟩ := hP.set .new field value hP.fresh
    exact Or.inr ⟨hashObj, hobj, by simp [Database.hset, hk, hset]⟩
  | some obj =>
    cases obj with
    | string s => exact Or.inl ⟨s, rfl, by simp [Database.hset, hk]⟩
    | hash o =>
      obtain ⟨hashObj, hset, hobj⟩ := hP.set o field value (hs key o hk)
      exact Or.inr ⟨hashObj, hobj, by simp [Database.hset, hk, hset]⟩

theorem All.safe (hP : HashObject.Kept hash P) (hs : All P db) : Safe db :=
  fun key hashObj h => hP.safe hashObj (hs key hashObj h)

end All

theorem empty_safe : Safe ∅ := all_empty

theorem Safe.set {db : Database} (hs : Safe db) (key value : Bytes) : Safe (db.set key value) :=
  All.set hs key value

theorem Safe.hset {db : Database} (hs : Safe db) (hash : Bytes → Nat) (key field value : Bytes) :
    (∃ s, db.lookupKey key = some (.string s) ∧
        hset hash key field value db = .error (.exception WRONGTYPE)) ∨
      ∃ hashObj, hashObj.Safe ∧
        hset hash key field value db = .ok (db.storeKey key (.hash hashObj)) :=
  All.hset (HashObject.safe_kept hash) hs key field value

theorem Safe.hget {db : Database} (hs : Safe db) (hash : Bytes → Nat) (key field : Bytes) :
    ∃ v, hget hash key field db = .ok v := by
  unfold Database.hget
  split
  · next hashObj h => exact (hs key hashObj h).getField hash field
  · exact ⟨none, rfl⟩

end Database

end MiniRedis
