import Mathlib.Data.List.Perm.Basic
import Mathlib.Data.Set.Card

/-!
Association lists read as finite maps.  A list of pairs whose keys do not
repeat denotes the partial function `fun k => l.lookup k`; the operations below
walk the list the way a linked chain is walked, and every fact about them is
stated up to permutation, so that a caller can spread one map over several
lists.
-/

namespace AssocList

universe u v

variable {κ : Type u} {ν : Type v}

/-- The keys in list order. -/
abbrev keys (l : List (κ × ν)) : List κ := l.map Prod.fst

/-- `l` lists every binding of the partial function `m` exactly once. -/
def Lists (m : κ → Option ν) (l : List (κ × ν)) : Prop :=
  (keys l).Nodup ∧ ∀ k v, (k, v) ∈ l ↔ m k = some v

theorem mem_keys_of_mem {l : List (κ × ν)} {k : κ} {v : ν} (h : (k, v) ∈ l) : k ∈ keys l :=
  List.mem_map.mpr ⟨(k, v), h, rfl⟩

theorem keys_perm {l l' : List (κ × ν)} (h : l.Perm l') : (keys l).Perm (keys l') :=
  h.map Prod.fst

theorem Lists.perm {m : κ → Option ν} {l l' : List (κ × ν)} (h : Lists m l) (hp : l.Perm l') :
    Lists m l' :=
  ⟨(keys_perm hp).nodup_iff.mp h.1, fun k v => by rw [← hp.mem_iff]; exact h.2 k v⟩

theorem Lists.mem_keys {m : κ → Option ν} {l : List (κ × ν)} (h : Lists m l) {k : κ} :
    k ∈ keys l ↔ m k ≠ none := by
  constructor
  · intro hk
    obtain ⟨e, he, hek⟩ := List.mem_map.mp hk
    rw [← hek, (h.2 e.1 e.2).mp he]
    exact Option.some_ne_none _
  · intro hk
    obtain ⟨v, hv⟩ := Option.ne_none_iff_exists'.mp hk
    exact mem_keys_of_mem ((h.2 k v).mpr hv)

/-- The length of a listing is the number of keys the map binds. -/
theorem Lists.ncard [DecidableEq κ] {m : κ → Option ν} {l : List (κ × ν)} (h : Lists m l) :
    Set.ncard {k | m k ≠ none} = l.length := by
  have hset : {k | m k ≠ none} = ((keys l).toFinset : Set κ) := by
    ext k
    simp only [Set.mem_ofPred_eq, List.coe_toFinset]
    exact h.mem_keys.symm
  rw [hset, Set.ncard_coe_finset, List.toFinset_card_of_nodup h.1, List.length_map]

/-! ## Chain walks -/

section Walks

variable [DecidableEq κ]

/-- Overwrite the value of the first binding of `k`; `none` when there is none. -/
def assign (k : κ) (v : ν) : List (κ × ν) → Option (List (κ × ν))
  | [] => none
  | e :: l => if e.1 = k then some ((e.1, v) :: l) else (assign k v l).map (e :: ·)

/-- Unlink the first binding of `k`; `none` when there is none. -/
def unlink (k : κ) : List (κ × ν) → Option (List (κ × ν))
  | [] => none
  | e :: l => if e.1 = k then some l else (unlink k l).map (e :: ·)

theorem assign_eq_none {k : κ} {v : ν} {l : List (κ × ν)} :
    assign k v l = none ↔ k ∉ keys l := by
  induction l with
  | nil => simp [assign]
  | cons e l ih =>
    by_cases he : e.1 = k
    · simp [assign, he]
    · have hne : k ≠ e.1 := fun h => he h.symm
      simp [assign, he, ih, hne]

theorem assign_keys {k : κ} {v : ν} {l l' : List (κ × ν)} (h : assign k v l = some l') :
    keys l' = keys l := by
  induction l generalizing l' with
  | nil => simp [assign] at h
  | cons e l ih =>
    by_cases he : e.1 = k
    · simp only [assign, he, ↓reduceIte, Option.some.injEq] at h
      subst h
      simp [he]
    · simp only [assign, he, ↓reduceIte, Option.map_eq_some_iff] at h
      obtain ⟨m, hm, rfl⟩ := h
      simp only [List.map_cons, ih hm]

theorem assign_perm {k : κ} {v : ν} {l l' : List (κ × ν)} (h : assign k v l = some l') :
    ∃ v₀ rest, l.Perm ((k, v₀) :: rest) ∧ l'.Perm ((k, v) :: rest) := by
  induction l generalizing l' with
  | nil => simp [assign] at h
  | cons e l ih =>
    by_cases he : e.1 = k
    · simp only [assign, he, ↓reduceIte, Option.some.injEq] at h
      subst h he
      exact ⟨e.2, l, List.Perm.refl _, List.Perm.refl _⟩
    · simp only [assign, he, ↓reduceIte, Option.map_eq_some_iff] at h
      obtain ⟨m, hm, rfl⟩ := h
      obtain ⟨v₀, rest, hl, hl'⟩ := ih hm
      exact ⟨v₀, e :: rest, (hl.cons e).trans (List.Perm.swap ..),
        (hl'.cons e).trans (List.Perm.swap ..)⟩

/-- Overwriting brings in nothing but the new binding. -/
theorem mem_assign {k : κ} {v : ν} {l l' : List (κ × ν)} (h : assign k v l = some l')
    {e : κ × ν} (he : e ∈ l') : e = (k, v) ∨ e ∈ l := by
  obtain ⟨v₀, rest, hl, hl'⟩ := assign_perm h
  rcases List.mem_cons.mp (hl'.mem_iff.mp he) with rfl | hrest
  · exact Or.inl rfl
  · exact Or.inr (hl.mem_iff.mpr (List.mem_cons_of_mem _ hrest))

theorem unlink_eq_none {k : κ} {l : List (κ × ν)} : unlink k l = none ↔ k ∉ keys l := by
  induction l with
  | nil => simp [unlink]
  | cons e l ih =>
    by_cases he : e.1 = k
    · simp [unlink, he]
    · have hne : k ≠ e.1 := fun h => he h.symm
      simp [unlink, he, ih, hne]

theorem unlink_perm {k : κ} {l l' : List (κ × ν)} (h : unlink k l = some l') :
    ∃ v₀, l.Perm ((k, v₀) :: l') := by
  induction l generalizing l' with
  | nil => simp [unlink] at h
  | cons e l ih =>
    by_cases he : e.1 = k
    · simp only [unlink, he, ↓reduceIte, Option.some.injEq] at h
      subst h he
      exact ⟨e.2, List.Perm.refl _⟩
    · simp only [unlink, he, ↓reduceIte, Option.map_eq_some_iff] at h
      obtain ⟨m, hm, rfl⟩ := h
      obtain ⟨v₀, hl⟩ := ih hm
      exact ⟨v₀, (hl.cons e).trans (List.Perm.swap ..)⟩

theorem unlink_sublist {k : κ} {l l' : List (κ × ν)} (h : unlink k l = some l') :
    l'.Sublist l := by
  induction l generalizing l' with
  | nil => simp [unlink] at h
  | cons e l ih =>
    by_cases he : e.1 = k
    · simp only [unlink, he, ↓reduceIte, Option.some.injEq] at h
      subst h
      exact List.sublist_cons_self ..
    · simp only [unlink, he, ↓reduceIte, Option.map_eq_some_iff] at h
      obtain ⟨m, hm, rfl⟩ := h
      exact (ih hm).cons_cons e

end Walks

/-! ## Lookup -/

section Lookup

variable [BEq κ] [LawfulBEq κ]

theorem lookup_eq_none {l : List (κ × ν)} {k : κ} : l.lookup k = none ↔ k ∉ keys l := by
  rw [List.lookup_eq_none_iff]
  constructor
  · intro h hk
    obtain ⟨e, he, hek⟩ := List.mem_map.mp hk
    have := h e he
    simp [hek] at this
  · intro h e he
    have hne : k ≠ e.1 := fun heq => h (heq ▸ List.mem_map.mpr ⟨e, he, rfl⟩)
    simpa using hne

theorem mem_of_lookup {l : List (κ × ν)} {k : κ} {v : ν} (h : l.lookup k = some v) :
    (k, v) ∈ l := by
  obtain ⟨pre, post, hl, _⟩ := List.lookup_eq_some_iff.mp h
  rw [hl]
  exact List.mem_append_right _ (List.mem_cons_self ..)

theorem lookup_of_mem {l : List (κ × ν)} {k : κ} {v : ν} (hn : (keys l).Nodup)
    (h : (k, v) ∈ l) : l.lookup k = some v := by
  induction l with
  | nil => simp at h
  | cons e l ih =>
    obtain ⟨a, b⟩ := e
    obtain ⟨hnot, hn⟩ := List.nodup_cons.mp hn
    rcases List.mem_cons.mp h with h | h
    · rw [← h]
      exact List.lookup_cons_self
    · have hne : k ≠ a := fun heq => hnot (heq ▸ mem_keys_of_mem h)
      have hb : (k == a) = false := by simpa using hne
      simp only [List.lookup_cons, hb]
      exact ih hn h

theorem lookup_eq_some {l : List (κ × ν)} (hn : (keys l).Nodup) {k : κ} {v : ν} :
    l.lookup k = some v ↔ (k, v) ∈ l :=
  ⟨mem_of_lookup, lookup_of_mem hn⟩

theorem lookup_perm {l l' : List (κ × ν)} (hn : (keys l).Nodup) (h : l.Perm l') (k : κ) :
    l.lookup k = l'.lookup k := by
  have hn' : (keys l').Nodup := (keys_perm h).nodup_iff.mp hn
  apply Option.ext
  intro v
  rw [lookup_eq_some hn, lookup_eq_some hn', h.mem_iff]

theorem lookup_cons_ne {l : List (κ × ν)} {k a : κ} {v : ν} (h : a ≠ k) :
    ((k, v) :: l).lookup a = l.lookup a := by
  have hb : (a == k) = false := by simpa using h
  simp only [List.lookup_cons, hb]

theorem lists_lookup {l : List (κ × ν)} (hn : (keys l).Nodup) :
    Lists (fun k => l.lookup k) l :=
  ⟨hn, fun _ _ => (lookup_eq_some hn).symm⟩

/-! ## Updates as map updates -/

variable [DecidableEq κ]

/-- Overwriting the first binding changes what is found under its key only. -/
theorem lookup_assign {l l' : List (κ × ν)} {k : κ} {v : ν} (h : assign k v l = some l') (a : κ) :
    l'.lookup a = if a = k then some v else l.lookup a := by
  induction l generalizing l' with
  | nil => simp [assign] at h
  | cons e l ih =>
    obtain ⟨b, w⟩ := e
    by_cases hb : b = k
    · simp only [assign, hb, ↓reduceIte, Option.some.injEq] at h
      subst h hb
      by_cases ha : a = b
      · rw [if_pos ha, ha, List.lookup_cons_self]
      · rw [if_neg ha, lookup_cons_ne ha, lookup_cons_ne ha]
    · simp only [assign, hb, ↓reduceIte, Option.map_eq_some_iff] at h
      obtain ⟨m, hm, rfl⟩ := h
      by_cases ha : a = b
      · rw [ha, if_neg hb, List.lookup_cons_self, List.lookup_cons_self]
      · rw [lookup_cons_ne ha, lookup_cons_ne ha, ih hm]

theorem lookup_insert {l l' : List (κ × ν)} {k : κ} {v : ν} (hn : (keys l).Nodup)
    (hk : k ∉ keys l) (hp : l'.Perm ((k, v) :: l)) :
    (fun a => l'.lookup a) = Function.update (fun a => l.lookup a) k (some v) := by
  have hn' : (keys ((k, v) :: l)).Nodup := List.nodup_cons.mpr ⟨hk, hn⟩
  funext a
  rw [lookup_perm ((keys_perm hp).nodup_iff.mpr hn') hp a]
  by_cases ha : a = k
  · subst ha
    simp
  · rw [lookup_cons_ne ha, Function.update_of_ne ha]

theorem lookup_overwrite {l l' rest : List (κ × ν)} {k : κ} {v v₀ : ν} (hn : (keys l).Nodup)
    (hp : l.Perm ((k, v₀) :: rest)) (hp' : l'.Perm ((k, v) :: rest)) :
    (fun a => l'.lookup a) = Function.update (fun a => l.lookup a) k (some v) := by
  have hn₀ : (keys ((k, v₀) :: rest)).Nodup := (keys_perm hp).nodup_iff.mp hn
  obtain ⟨hk, hrest⟩ := List.nodup_cons.mp hn₀
  have hl : (fun a => l.lookup a) = Function.update (fun a => rest.lookup a) k (some v₀) :=
    lookup_insert hrest hk hp
  rw [hl, Function.update_idem]
  exact lookup_insert hrest hk hp'

theorem lookup_remove {l l' : List (κ × ν)} {k : κ} {v₀ : ν} (hn : (keys l).Nodup)
    (hp : l.Perm ((k, v₀) :: l')) :
    (fun a => l'.lookup a) = Function.update (fun a => l.lookup a) k none := by
  have hn₀ : (keys ((k, v₀) :: l')).Nodup := (keys_perm hp).nodup_iff.mp hn
  obtain ⟨hk, _⟩ := List.nodup_cons.mp hn₀
  funext a
  by_cases ha : a = k
  · subst ha
    rw [Function.update_self]
    exact lookup_eq_none.mpr hk
  · rw [Function.update_of_ne ha]
    simp only [lookup_perm hn hp a, lookup_cons_ne ha]

/-- Bind the pairs of a list one after the other; a later pair wins. -/
def bindAll (m : κ → Option ν) (l : List (κ × ν)) : κ → Option ν :=
  l.foldl (fun m e => Function.update m e.1 (some e.2)) m

omit [BEq κ] [LawfulBEq κ] in
theorem bindAll_append (m : κ → Option ν) (l : List (κ × ν)) (k : κ) (v : ν) :
    bindAll m (l ++ [(k, v)]) = Function.update (bindAll m l) k (some v) := by
  simp [bindAll]

theorem bindAll_nodup (m : κ → Option ν) {l : List (κ × ν)} (hn : (keys l).Nodup) (a : κ) :
    bindAll m l a = (l.lookup a).or (m a) := by
  induction l generalizing m with
  | nil => rfl
  | cons e l ih =>
    obtain ⟨k, v⟩ := e
    obtain ⟨hnot, hn⟩ := List.nodup_cons.mp hn
    rw [bindAll, List.foldl_cons, ← bindAll, ih _ hn]
    by_cases ha : a = k
    · subst ha
      rw [Function.update_self, lookup_eq_none.mpr hnot]
      simp
    · rw [Function.update_of_ne ha, lookup_cons_ne ha]

/-- Binding the pairs of a list without repeated keys in the empty map. -/
theorem bindAll_empty {l : List (κ × ν)} (hn : (keys l).Nodup) :
    bindAll (fun _ => none) l = fun k => l.lookup k := by
  funext a
  rw [bindAll_nodup _ hn, Option.or_none]

end Lookup

end AssocList
