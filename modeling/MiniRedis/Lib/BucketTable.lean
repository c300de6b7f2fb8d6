import MiniRedis.Lib.AssocList

/-!
Chained bucket tables: a list of chains, where a key lives in the bucket its
hash selects modulo the number of buckets.  The contents of a table are the
concatenation of its chains, and every operation on one bucket is described by
what it does to these contents up to permutation.  The hash function is a
parameter and nothing is assumed of it.
-/

namespace BucketTable

open AssocList

universe u v

variable {κ : Type u} {ν : Type v}

/-- Every entry sits in the bucket its hash selects. -/
def Placed (hash : κ → Nat) (t : List (List (κ × ν))) : Prop :=
  ∀ i c, t[i]? = some c → ∀ e ∈ c, hash e.1 % t.length = i

instance (hash : κ → Nat) (t : List (List (κ × ν))) : Decidable (Placed hash t) :=
  decidable_of_iff (∀ i : Fin t.length, ∀ e ∈ t[i], hash e.1 % t.length = i) <| by
    constructor
    · intro h i c hc e he
      obtain ⟨hi, rfl⟩ := List.getElem?_eq_some_iff.mp hc
      exact h ⟨i, hi⟩ e he
    · intro h i e he
      exact h i t[i] (List.getElem?_eq_getElem i.isLt) e he

/-- Everything outside bucket `i`. -/
def others (t : List (List (κ × ν))) (i : Nat) : List (κ × ν) :=
  (t.take i).flatten ++ (t.drop (i + 1)).flatten

theorem placed_replicate (hash : κ → Nat) (n : Nat) :
    Placed hash (List.replicate n ([] : List (κ × ν))) := by
  intro i c hc e he
  obtain ⟨_, rfl⟩ := List.mem_replicate.mp (List.mem_of_getElem? hc)
  simp at he

theorem flatten_replicate_nil (n : Nat) :
    (List.replicate n ([] : List (κ × ν))).flatten = [] := by
  simp

/-! ## One bucket and the rest -/

theorem split_at {t : List (List (κ × ν))} {i : Nat} {c : List (κ × ν)} (h : t[i]? = some c) :
    t = t.take i ++ c :: t.drop (i + 1) := by
  obtain ⟨hi, hc⟩ := List.getElem?_eq_some_iff.mp h
  rw [← hc, ← List.drop_eq_getElem_cons hi, List.take_append_drop]

theorem flatten_perm {t : List (List (κ × ν))} {i : Nat} {c : List (κ × ν)}
    (h : t[i]? = some c) : t.flatten.Perm (c ++ others t i) := by
  conv => lhs; rw [split_at h]
  rw [List.flatten_append, List.flatten_cons, others]
  exact List.perm_append_comm_assoc _ _ _

theorem flatten_set_perm {t : List (List (κ × ν))} {i : Nat} (hi : i < t.length)
    (c : List (κ × ν)) : (t.set i c).flatten.Perm (c ++ others t i) := by
  rw [List.set_eq_take_append_cons_drop, if_pos hi, List.flatten_append, List.flatten_cons, others]
  exact List.perm_append_comm_assoc _ _ _

theorem placed_set {hash : κ → Nat} {t : List (List (κ × ν))} (ht : Placed hash t) {i : Nat}
    {c : List (κ × ν)} (hc : ∀ e ∈ c, hash e.1 % t.length = i) : Placed hash (t.set i c) := by
  intro j d hd e he
  rw [List.length_set]
  by_cases hij : i = j
  · subst hij
    rw [List.getElem?_set_self'] at hd
    obtain ⟨_, _, hdc⟩ := Option.map_eq_some_iff.mp hd
    have hcd : c = d := hdc
    exact hc e (hcd ▸ he)
  · rw [List.getElem?_set_ne hij] at hd
    exact ht j d hd e he

/-- A chain of keys that are in the bucket already belongs there. -/
theorem chain_keys {hash : κ → Nat} {t : List (List (κ × ν))} (ht : Placed hash t) {i : Nat}
    {c c' : List (κ × ν)} (h : t[i]? = some c) (hc : ∀ k ∈ keys c', k ∈ keys c) :
    ∀ e ∈ c', hash e.1 % t.length = i := by
  intro e he
  obtain ⟨a, ha, hae⟩ := List.mem_map.mp (hc e.1 (mem_keys_of_mem he))
  rw [← hae]
  exact ht i c h a ha

/-- So does the bucket with a key in front that its hash sends there. -/
theorem chain_link {hash : κ → Nat} {t : List (List (κ × ν))} (ht : Placed hash t) {k : κ} (v : ν)
    {c : List (κ × ν)} (h : t[hash k % t.length]? = some c) :
    ∀ e ∈ (k, v) :: c, hash e.1 % t.length = hash k % t.length := by
  intro e he
  rcases List.mem_cons.mp he with rfl | he
  · rfl
  · exact ht _ c h e he

theorem placed_keys {hash : κ → Nat} {t : List (List (κ × ν))} (ht : Placed hash t) {i : Nat}
    {c c' : List (κ × ν)} (h : t[i]? = some c) (hc : ∀ k ∈ keys c', k ∈ keys c) :
    Placed hash (t.set i c') :=
  placed_set ht (chain_keys ht h hc)

theorem bucket_exists (hash : κ → Nat) (k : κ) {t : List (List (κ × ν))} (ht : 0 < t.length) :
    ∃ c, t[hash k % t.length]? = some c :=
  ⟨_, List.getElem?_eq_getElem (Nat.mod_lt _ ht)⟩

/-- A key is nowhere but in its own bucket. -/
theorem mem_bucket {hash : κ → Nat} {t : List (List (κ × ν))} (ht : Placed hash t) {k : κ}
    {c : List (κ × ν)} (h : t[hash k % t.length]? = some c) :
    k ∈ keys t.flatten ↔ k ∈ keys c := by
  constructor
  · intro hk
    obtain ⟨e, he, rfl⟩ := List.mem_map.mp hk
    obtain ⟨d, hd, hed⟩ := List.mem_flatten.mp he
    obtain ⟨j, hj⟩ := List.mem_iff_getElem?.mp hd
    have hij := ht j d hj e hed
    rw [hij, hj] at h
    cases h
    exact mem_keys_of_mem hed
  · intro hk
    obtain ⟨e, he, rfl⟩ := List.mem_map.mp hk
    exact mem_keys_of_mem (List.mem_flatten.mpr ⟨c, List.mem_of_getElem? h, he⟩)

theorem notMem_others {hash : κ → Nat} {t : List (List (κ × ν))} (ht : Placed hash t) {k : κ} :
    k ∉ keys (t.take (hash k % t.length)).flatten ∧
      k ∉ keys (t.drop (hash k % t.length + 1)).flatten := by
  constructor
  · intro hk
    obtain ⟨e, he, rfl⟩ := List.mem_map.mp hk
    obtain ⟨d, hd, hed⟩ := List.mem_flatten.mp he
    obtain ⟨j, hj⟩ := List.mem_iff_getElem?.mp hd
    rw [List.getElem?_take] at hj
    split at hj
    · have := ht j d hj e hed
      omega
    · simp at hj
  · intro hk
    obtain ⟨e, he, rfl⟩ := List.mem_map.mp hk
    obtain ⟨d, hd, hed⟩ := List.mem_flatten.mp he
    obtain ⟨j, hj⟩ := List.mem_iff_getElem?.mp hd
    rw [List.getElem?_drop] at hj
    have := ht _ d hj e hed
    omega

/-- Searching the selected bucket is searching the whole table. -/
theorem lookup_bucket [BEq κ] [LawfulBEq κ] {hash : κ → Nat} {t : List (List (κ × ν))}
    (ht : Placed hash t) {k : κ} {c : List (κ × ν)} (h : t[hash k % t.length]? = some c) :
    c.lookup k = t.flatten.lookup k := by
  obtain ⟨hpre, hpost⟩ := notMem_others ht (k := k)
  conv => rhs; rw [split_at h]
  rw [List.flatten_append, List.flatten_cons, List.lookup_append, List.lookup_append,
    lookup_eq_none.mpr hpre, lookup_eq_none.mpr hpost, Option.none_or, Option.or_none]

/-- A new chain in the bucket of `k` that differs under `k` only. -/
theorem lookup_set [DecidableEq κ] [BEq κ] [LawfulBEq κ] {hash : κ → Nat}
    {t : List (List (κ × ν))} (ht : Placed hash t) {k : κ} {c c' : List (κ × ν)}
    (h : t[hash k % t.length]? = some c)
    (hc : ∀ e ∈ c', hash e.1 % t.length = hash k % t.length)
    (hsame : ∀ a, a ≠ k → c'.lookup a = c.lookup a) (a : κ) :
    (t.set (hash k % t.length) c').flatten.lookup a =
      if a = k then c'.lookup k else t.flatten.lookup a := by
  obtain ⟨hlt, _⟩ := List.getElem?_eq_some_iff.mp h
  have ht' := placed_set ht hc
  have hself : (t.set (hash k % t.length) c')[hash k % t.length]? = some c' :=
    List.getElem?_set_self hlt
  have hlen : (t.set (hash k % t.length) c').length = t.length := List.length_set
  by_cases ha : a = k
  · subst ha
    rw [if_pos rfl, ← lookup_bucket ht' (by rw [hlen]; exact hself)]
  · rw [if_neg ha]
    by_cases hb : hash a % t.length = hash k % t.length
    · rw [← lookup_bucket ht' (by rw [hlen, hb]; exact hself),
        ← lookup_bucket ht (by rw [hb]; exact h), hsame a ha]
    · obtain ⟨d, hd⟩ := bucket_exists hash a (Nat.zero_lt_of_lt hlt)
      have hd' : (t.set (hash k % t.length) c')[hash a % t.length]? = some d := by
        rw [List.getElem?_set_ne (Ne.symm hb), hd]
      rw [← lookup_bucket ht' (by rw [hlen]; exact hd'), ← lookup_bucket ht hd]

/-! ## Moving entries into a table -/

/-- Push one entry at the head of the chain its hash selects. -/
def push (hash : κ → Nat) (e : κ × ν) (t : List (List (κ × ν))) : List (List (κ × ν)) :=
  t.modify (hash e.1 % t.length) (e :: ·)

/-- Push the entries of a chain, first entry first. -/
def spill (hash : κ → Nat) (c : List (κ × ν)) (t : List (List (κ × ν))) :
    List (List (κ × ν)) :=
  c.foldl (fun t e => push hash e t) t

@[simp] theorem length_push (hash : κ → Nat) (e : κ × ν) (t : List (List (κ × ν))) :
    (push hash e t).length = t.length := by
  simp [push]

@[simp] theorem length_spill (hash : κ → Nat) (c : List (κ × ν)) (t : List (List (κ × ν))) :
    (spill hash c t).length = t.length := by
  induction c generalizing t with
  | nil => rfl
  | cons e c ih => rw [spill, List.foldl_cons, ← spill, ih, length_push]

theorem push_eq_set {hash : κ → Nat} {e : κ × ν} {t : List (List (κ × ν))} {c : List (κ × ν)}
    (h : t[hash e.1 % t.length]? = some c) :
    push hash e t = t.set (hash e.1 % t.length) (e :: c) := by
  obtain ⟨hi, hc⟩ := List.getElem?_eq_some_iff.mp h
  rw [push, List.modify_eq_set_getElem? , h]
  rfl

theorem push_perm (hash : κ → Nat) (e : κ × ν) {t : List (List (κ × ν))} (ht : 0 < t.length) :
    (push hash e t).flatten.Perm (e :: t.flatten) := by
  obtain ⟨c, hc⟩ := bucket_exists hash e.1 ht
  rw [push_eq_set hc]
  exact (flatten_set_perm (Nat.mod_lt _ ht) _).trans ((flatten_perm hc).symm.cons e)

theorem push_placed {hash : κ → Nat} (e : κ × ν) {t : List (List (κ × ν))} (ht : 0 < t.length)
    (hp : Placed hash t) : Placed hash (push hash e t) := by
  obtain ⟨c, hc⟩ := bucket_exists hash e.1 ht
  rw [push_eq_set hc]
  apply placed_set hp
  intro a ha
  rcases List.mem_cons.mp ha with rfl | ha
  · rfl
  · exact hp _ c hc a ha

theorem spill_perm (hash : κ → Nat) (c : List (κ × ν)) {t : List (List (κ × ν))}
    (ht : 0 < t.length) : (spill hash c t).flatten.Perm (c ++ t.flatten) := by
  induction c generalizing t with
  | nil => exact List.Perm.refl _
  | cons e c ih =>
    rw [spill, List.foldl_cons, ← spill]
    have hrest := ih (t := push hash e t) (by rwa [length_push])
    exact (hrest.trans ((push_perm hash e ht).append_left c)).trans List.perm_middle

theorem spill_placed {hash : κ → Nat} (c : List (κ × ν)) {t : List (List (κ × ν))}
    (ht : 0 < t.length) (hp : Placed hash t) : Placed hash (spill hash c t) := by
  induction c generalizing t with
  | nil => exact hp
  | cons e c ih => exact ih (by rwa [length_push]) (push_placed e ht hp)

end BucketTable
