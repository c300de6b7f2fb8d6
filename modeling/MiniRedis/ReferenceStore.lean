import Mathlib.Data.Finset.Card
import MiniRedis.Safety

/-!
The store the commands stand for: a finite map from keys to strings and to
finite maps from fields to values, without encodings, tables or orders, and what
it means for a database to stand for one.
-/

namespace MiniRedis

/-- What the reference store holds under a key. -/
inductive RefObject where
  | string (value : Bytes)
  | hash (m : Bytes → Option Bytes)

abbrev RefStore := Bytes → Option RefObject

namespace RefStore

def empty : RefStore := fun _ => none

/-- The string under the key. -/
def string? (s : RefStore) (key : Bytes) : Option Bytes :=
  match s key with
  | some (.string value) => some value
  | _ => none

/-- The value of the field of the hash under the key. -/
def field? (s : RefStore) (key field : Bytes) : Option Bytes :=
  match s key with
  | some (.hash m) => m field
  | _ => none

/-- The store after a request. -/
def next (s : RefStore) (r : Request) : RefStore :=
  match r with
  | .set key value => Function.update s key (some (.string value))
  | .hset key field value =>
      match s key with
      | none => Function.update s key
          (some (.hash (Function.update (fun _ => none) field (some value))))
      | some (.hash m) =>
          Function.update s key (some (.hash (Function.update m field (some value))))
      | some (.string _) => s
  | .del keys => fun k => if k ∈ keys then none else s k
  | _ => s

/-- The replies to a request. -/
def Answers (s : RefStore) (r : Request) (reply : Reply) : Prop :=
  match r with
  | .ping => reply = .simple (bytes "PONG")
  | .set _ _ => reply = .ok
  | .get key => reply = .ofOption (s.string? key)
  | .hset key _ _ =>
      match s key with
      | some (.string _) => reply = .error Database.WRONGTYPE
      | _ => reply = .integer 1
  | .hget key field => reply = .ofOption (s.field? key field)
  | .del keys => reply = .integer (keys.toFinset.filter fun k => (s k).isSome).card
  | .exist keys => reply = .integer (keys.countP fun k => (s k).isSome)
  | .keys pattern => ∃ ks, reply = .array ks ∧ ks.Nodup ∧
      ∀ k, k ∈ ks ↔ pattern = bytes "*" ∧ s k ≠ none
  | .save => reply = .ok ∨ reply = .error (bytes "ERR Failed to save RDB")
  | .refused msg => reply = .error msg

end RefStore

namespace Database

variable {hash : Bytes → Nat}

/-! ## Abstraction -/

/-- The object stands for what the reference store holds. -/
inductive Represents (hash : Bytes → Nat) : Option RedisObject → Option RefObject → Prop
  | absent : Represents hash none none
  | string (value : Bytes) : Represents hash (some (.string value)) (some (.string value))
  | hash {o : HashObject} {m : Bytes → Option Bytes} : HashObject.Stores hash o m →
      Represents hash (some (.hash o)) (some (.hash m))

/-- The database stands for the reference store. -/
def Stores (hash : Bytes → Nat) (db : Database) (s : RefStore) : Prop :=
  ∀ key, Represents hash (db.lookupKey key) (s key)

theorem empty_stores : Stores hash ∅ RefStore.empty := fun _ => .absent

theorem Represents.isSome {obj : Option RedisObject} {ref : Option RefObject}
    (h : Represents hash obj ref) : obj.isSome = ref.isSome := by
  cases h <;> rfl

theorem Stores.safe {db : Database} {s : RefStore} (h : Stores hash db s) : db.Safe := by
  intro key hashObj hlook
  have hrep := h key
  rw [hlook] at hrep
  generalize s key = ref at hrep
  cases hrep with
  | hash ho => exact ho.safe

theorem Stores.isSome {db : Database} {s : RefStore} (h : Stores hash db s) (key : Bytes) :
    (s key).isSome ↔ key ∈ db := by
  rw [mem_iff_lookupKey, (h key).isSome]

theorem Stores.storeKey {db : Database} {s : RefStore} (h : Stores hash db s) {obj : RedisObject}
    {ref : RefObject} (hobj : Represents hash (some obj) (some ref)) (key : Bytes) :
    Stores hash (db.storeKey key obj) (Function.update s key (some ref)) := by
  intro k
  rw [lookupKey_storeKey, Function.update_apply]
  split
  · exact hobj
  · exact h k

/-! ## Counting -/

/-- `del` counts the distinct keys of the list that are there. -/
theorem del_count (keys : List Bytes) (db : Database) :
    (del keys db).1 = (keys.toFinset.filter (· ∈ db)).card := by
  induction keys generalizing db with
  | nil => rfl
  | cons key keys ih =>
    have herase : keys.toFinset.filter (· ∈ db.erase key) =
        (keys.toFinset.filter (· ∈ db)).erase key := by
      ext k
      simp only [Finset.mem_filter, Finset.mem_erase, AList.mem_erase]
      tauto
    simp only [del, ih, herase, List.toFinset_cons, Finset.filter_insert]
    split
    · rw [← Finset.insert_erase (Finset.mem_insert_self key (keys.toFinset.filter (· ∈ db))),
        Finset.erase_insert_eq_erase, Finset.card_insert_of_notMem (Finset.notMem_erase _ _)]
    · next hkey =>
      rw [Finset.erase_eq_of_notMem]
      simp [hkey]

theorem exists_count (keys : List Bytes) (db : Database) :
    Database.exists keys db = keys.countP (· ∈ db) := by
  induction keys with
  | nil => rfl
  | cons key keys ih =>
    rw [List.countP_cons, Database.exists, ih]
    by_cases hkey : key ∈ db <;> simp [hkey]

/-- The keys listed are those that are there, each once. -/
theorem getAllKeys_lists (order : Iteration) (pattern : Bytes) (db : Database) :
    (db.getAllKeys order pattern).Nodup ∧
      ∀ k, k ∈ db.getAllKeys order pattern ↔ pattern = bytes "*" ∧ k ∈ db := by
  have hlists := db.lists_visit order
  unfold getAllKeys
  by_cases hp : pattern = bytes "*"
  · simp only [hp, ne_eq, not_true_eq_false, ↓reduceIte, true_and]
    refine ⟨hlists.1, fun k => ?_⟩
    rw [mem_iff_lookupKey, Option.isSome_iff_exists, List.mem_map]
    constructor
    · rintro ⟨⟨k', obj⟩, hmem, rfl⟩
      exact ⟨obj, (hlists.2 k' obj).mp hmem⟩
    · rintro ⟨obj, hlook⟩
      exact ⟨(k, obj), (hlists.2 k obj).mpr hlook, rfl⟩
  · simp [hp]

end Database

end MiniRedis
