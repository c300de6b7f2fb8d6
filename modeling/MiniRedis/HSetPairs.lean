import MiniRedis.HashObjectRuns
import MiniRedis.Safety

/-!
What `HSET` stores.  The handler takes the first pair of its arguments and leaves
the others alone.  A pair put into a ziplist changes that field only; when the
command turns the ziplist into a table the fields are all there as long as no
swap of tables drops an entry on the way.
-/

namespace MiniRedis

namespace Dict

open AssocList BucketTable

variable {hash : Bytes → Nat}

/-- The step that `set_field` takes first swaps the tables and drops what the old
one still holds. -/
def Drops (d : Dict) : Prop :=
  0 < d.used ∧ d.rehashidx = d.ht0.length ∧ d.ht0.flatten ≠ []

instance (d : Dict) : Decidable (Drops d) := inferInstanceAs (Decidable (_ ∧ _))

theorem Geometry.advance_keeps {d : Dict} (hg : Geometry hash d) (hkeep : ¬ Drops d) :
    ∃ d', Dict.advance hash d = .ok d' ∧ Geometry hash d' ∧ d'.entries.Perm d.entries := by
  rcases advance_outcome hash hg.toSane with ⟨_, hrun⟩ | ⟨_, r, hrun, hout⟩
  · exact ⟨d, hrun, hg, List.Perm.refl _⟩
  · refine ⟨r.2, hrun, hout.geometry hg, ?_⟩
    cases hout with
    | idle _ => exact List.Perm.refl _
    | exhausted _ _ hm _ => exact hm.entries
    | spent _ _ _ hm _ => exact hm.entries
    | @swapped e m d' hlt hused hm hv hend =>
      -- a budget of one leaves no move before the swap
      obtain ⟨rfl, rfl⟩ : e = 0 ∧ m = 0 := by omega
      have hlen := hm.length_ht0
      have hidx := hm.rehashidx
      have hempty : d.ht0.flatten = [] := by
        by_contra hne
        exact hkeep ⟨hused, by omega, hne⟩
      have hmoved := hm.entries
      cases hm with
      | refl _ => simp only [entries, swapTables, hempty, List.nil_append, List.flatten_nil,
          List.append_nil, List.Perm.refl]

theorem expandIfNeeded_entries {d : Dict} (hs : Sane d) :
    (expandIfNeeded d).entries = d.entries := by
  have hresized := expandIfNeeded_resized hs.main
  generalize expandIfNeeded d = d' at hresized
  cases hresized with
  | same => rfl
  | @started n hr _ => exact entries_start hs hr n

/-- A `set_field` that drops nothing binds its key; a key that was not there is
linked. -/
theorem Geometry.setField_keeps {d : Dict} (hg : Geometry hash d) (hkeep : ¬ Drops d)
    (hn : (keys d.entries).Nodup) (key value : Bytes) :
    ∃ d', Dict.setField hash key value d = .ok d' ∧ Geometry hash d' ∧
      (∀ a, d'.entries.lookup a = if a = key then some value else d.entries.lookup a) ∧
      (key ∉ keys d.entries → d'.entries.Perm ((key, value) :: d.entries)) := by
  obtain ⟨d₁, hrun, hg₁, hp₁⟩ := hg.advance_keeps hkeep
  have hlook : ∀ a, d₁.entries.lookup a = d.entries.lookup a :=
    lookup_perm ((keys_perm hp₁).nodup_iff.mpr hn) hp₁
  obtain ⟨head, hh, hcases⟩ := setField_cases key value hrun hg₁.toSane
  obtain ⟨hlt, _⟩ := List.getElem?_eq_some_iff.mp hh
  -- what a new chain in the searched bucket does to what is found
  have hfound : ∀ (c : Chain) (u : Int), (∀ e ∈ c, hash e.1 % d₁.ht0.length =
      hash key % d₁.ht0.length) → c.lookup key = some value →
      (∀ a, a ≠ key → c.lookup a = head.lookup a) → ∀ a,
      (entries { d₁ with ht0 := d₁.ht0.set (hash key % d₁.ht0.length) c, used := u }).lookup a =
        if a = key then some value else d.entries.lookup a := by
    intro c u hc hself hsame a
    rw [← hlook, entries, entries, List.lookup_append, List.lookup_append,
      lookup_set hg₁.placed0 hh hc hsame]
    by_cases ha : a = key
    · simp only [ha, ↓reduceIte, hself, Option.some_or]
    · simp only [ha, ↓reduceIte]
  rcases hcases with ⟨head', hassign, hset⟩ | ⟨hassign, hset⟩
  · have hkeys := assign_keys hassign
    have hlen := congrArg List.length hkeys
    simp only [keys, List.length_map] at hlen
    have hplaced := chain_keys hg₁.placed0 hh fun k hk => hkeys ▸ hk
    refine ⟨_, hset, hg₁.write hh hplaced (by omega), ?_, fun hnew => ?_⟩
    · refine hfound head' d₁.used hplaced ?_ fun a ha => ?_
      · rw [lookup_assign hassign, if_pos rfl]
      · rw [lookup_assign hassign, if_neg ha]
    · -- the key is in the chain, so it was there
      have hin : key ∈ keys head := by
        by_contra hnot
        rw [assign_eq_none.mpr hnot] at hassign
        cases hassign
      have hmem := (mem_bucket hg₁.placed0 hh).mpr hin
      refine absurd ((keys_perm hp₁).mem_iff.mp ?_) hnew
      rw [entries, keys, List.map_append, List.mem_append]
      exact Or.inl hmem
  · have hplaced := chain_link hg₁.placed0 value hh
    have hg₂ := hg₁.write (u := d₁.used + 1) hh hplaced
      (by rw [List.length_cons]; push_cast; omega)
    refine ⟨_, hset, hg₂.expandIfNeeded, ?_, fun _ => ?_⟩
    · intro a
      rw [expandIfNeeded_entries hg₂.toSane]
      exact hfound _ _ hplaced List.lookup_cons_self (fun a ha => lookup_cons_ne ha) a
    · rw [expandIfNeeded_entries hg₂.toSane]
      have hlinked : (entries { d₁ with
          ht0 := d₁.ht0.set (hash key % d₁.ht0.length) ((key, value) :: head)
          used := d₁.used + 1 }).Perm ((key, value) :: d₁.entries) := by
        refine ((flatten_set_perm hlt _).append_right d₁.ht1.flatten).trans ?_
        exact ((flatten_perm hh).append_right d₁.ht1.flatten).symm.cons (key, value)
      exact hlinked.trans (hp₁.cons _)

end Dict

namespace HashObject

open AssocList

variable {hash : Bytes → Nat}

/-- None of the insertions, one after the other, drops an entry. -/
def InsertsKeep (hash : Bytes → Nat) (d : Dict) (zl : Ziplist) : Prop :=
  Run.Guarded (Dict.step hash) (fun d _ => ¬ d.Drops) d (zl.map fun kv => .set kv.1 kv.2)

/-- If `set_field(field, value)` turns the ziplist into a table, none of the
insertions into the table drops an entry. -/
def SetKeeps (hash : Bytes → Nat) (zl : Ziplist) (field value : Bytes) : Prop :=
  Promotes zl field value → InsertsKeep hash Dict.new (zl ++ [(field, value)])

instance (d : Dict) (zl : Ziplist) : Decidable (InsertsKeep hash d zl) :=
  inferInstanceAs (Decidable (Run.Guarded ..))

instance (zl : Ziplist) (field value : Bytes) : Decidable (SetKeeps hash zl field value) :=
  inferInstanceAs (Decidable (_ → _))

/-- The pairs of a ziplist and one more pair, inserted one after the other. -/
theorem insertAll_keeps {zl : Ziplist} {field value : Bytes} {d : Dict}
    (hg : Dict.Geometry hash d) (hn : (keys (zl ++ d.entries)).Nodup)
    (hkeep : InsertsKeep hash d (zl ++ [(field, value)])) :
    ∃ d', insertAll hash (zl ++ [(field, value)]) d = .ok d' ∧ Dict.Geometry hash d' ∧
      ∀ a, d'.entries.lookup a =
        if a = field then some value else (zl ++ d.entries).lookup a := by
  induction zl generalizing d with
  | nil =>
    obtain ⟨d', hset, hg', hlook, _⟩ := hg.setField_keeps hkeep.1 hn field value
    exact ⟨d', by simp [insertAll, hset], hg', hlook⟩
  | cons kv zl ih =>
    obtain ⟨hfirst, hrest⟩ := hkeep
    rw [List.cons_append, keys, List.map_cons, List.nodup_cons] at hn
    obtain ⟨hnew, hn⟩ := hn
    rw [List.map_append, List.mem_append, not_or] at hnew
    have hnd : (keys d.entries).Nodup := by
      rw [List.map_append] at hn
      exact hn.of_append_right
    obtain ⟨d₁, hset, hg₁, _, hlink⟩ := hg.setField_keeps hfirst hnd kv.1 kv.2
    have hp : (zl ++ d₁.entries).Perm (kv :: (zl ++ d.entries)) :=
      ((hlink hnew.2).append_left zl).trans List.perm_middle
    have hn₁ : (keys (zl ++ d₁.entries)).Nodup := by
      refine (keys_perm hp).nodup_iff.mpr (List.nodup_cons.mpr ⟨?_, hn⟩)
      rw [List.map_append, List.mem_append]
      exact fun h => h.elim hnew.1 hnew.2
    obtain ⟨d', hall, hg', hlook⟩ := ih hg₁ hn₁ (hrest .done d₁ (by simp [Dict.step, hset]))
    refine ⟨d', by simp [insertAll, hset, hall], hg', fun a => ?_⟩
    rw [hlook, lookup_perm hn₁ hp, List.cons_append]

/-- A pair put into a ziplist binds its field and no other, also when it turns
the ziplist into a table that drops nothing. -/
theorem setField_keeps {zl : Ziplist} (hn : (keys zl).Nodup) {field value : Bytes}
    (hkeep : SetKeeps hash zl field value) :
    ∃ o', setField hash field value ⟨.ZIPLIST, .ziplist zl⟩ = .ok o' ∧ ∀ a,
      getField hash a o' = .ok (if a = field then some value else zl.lookup a) := by
  rcases setField_ziplist hash zl field value with ⟨hp, hrun⟩ | ⟨_, zl', hrun, hzl⟩
  · have hnil : zl ++ Dict.new.entries = zl := List.append_nil zl
    obtain ⟨d, hins, hg, hlook⟩ :=
      insertAll_keeps Dict.new_geometry (by rw [hnil]; exact hn) (hkeep hp)
    refine ⟨⟨.HASHTABLE, .hashtable d⟩, by rw [hrun, hins]; rfl, fun a => ?_⟩
    rw [hnil] at hlook
    have hget := Dict.getField_ok hg.placed0 hg.placed1 hg.toSane a
    simp [getField, getHashtable, hget, hlook]
  · refine ⟨_, hrun, fun a => ?_⟩
    have hlook : zl'.lookup a = if a = field then some value else zl.lookup a := by
      rcases hzl with hassign | ⟨hassign, rfl⟩
      · exact lookup_assign hassign a
      · have hnew := lookup_eq_none.mpr (assign_eq_none.mp hassign)
        rw [List.lookup_append]
        by_cases ha : a = field
        · rw [if_pos ha, ha, hnew, Option.none_or, List.lookup_cons_self]
        · rw [if_neg ha, lookup_cons_ne ha, List.lookup_nil, Option.or_none]
    exact congrArg Except.ok hlook

end HashObject

namespace CommandHandler

open AssocList RespParser

variable {hash : Bytes → Nat}

/-- Between the two states the fields of `key` that are listed have got the last
value listed, and nothing else has changed. -/
structure HoldsPairs (hash : Bytes → Nat) (key : Bytes) (pairs : List HashEntry)
    (w w' : World) : Prop where
  listed : ∀ field value, bindAll (fun _ => none) pairs field = some value →
    w'.db.hget hash key field = .ok (some value)
  unlisted : ∀ field, field ∉ keys pairs →
    w'.db.hget hash key field = w.db.hget hash key field
  others : ∀ k, k ≠ key → w'.db.lookupKey k = w.db.lookupKey k

/-- The key is not there, or holds a ziplist that keeps its fields if the pair
turns it into a table. -/
def TakesPair (hash : Bytes → Nat) (w : World) (key field value : Bytes) : Prop :=
  ∀ obj, w.db.lookupKey key = some obj →
    ∃ zl, obj = .hash ⟨.ZIPLIST, .ziplist zl⟩ ∧ HashObject.SetKeeps hash zl field value

/-- A fresh object takes any pair. -/
theorem setKeeps_nil (field value : Bytes) : HashObject.SetKeeps hash [] field value :=
  fun _ => ⟨fun hdrops => Int.lt_irrefl 0 hdrops.1, fun _ _ _ => trivial⟩

theorem hset_keeps {w : World} (hw : Reachable hash w) {key field value : Bytes}
    (htakes : TakesPair hash w key field value) :
    ∃ o, w.db.hset hash key field value = .ok (w.db.storeKey key (.hash o)) ∧ ∀ a, ∃ before,
      w.db.hget hash key a = .ok before ∧
      HashObject.getField hash a o = .ok (if a = field then some value else before) := by
  cases hobj : w.db.lookupKey key with
  | none =>
    obtain ⟨o, hset, hget⟩ :=
      @HashObject.setField_keeps hash [] List.nodup_nil field value (setKeeps_nil field value)
    refine ⟨o, ?_, fun a => ⟨none, by simp [Database.hget, hobj], hget a⟩⟩
    simp only [Database.hset, hobj, HashObject.new, hset, Exec.ok_bind, Exec.pure_eq]
  | some obj =>
    obtain ⟨zl, rfl, hkeep⟩ := htakes obj hobj
    obtain ⟨h, ht⟩ := hw.all (HashObject.tracked_kept hash) key _ hobj
    cases ht with
    | ziplist ht =>
      obtain ⟨o, hset, hget⟩ := HashObject.setField_keeps ht.nodup hkeep
      refine ⟨o, ?_, fun a => ⟨zl.lookup a, by simp only [Database.hget, hobj]; rfl, hget a⟩⟩
      simp only [Database.hset, hobj, hset, Exec.ok_bind, Exec.pure_eq]

/-- The arguments of an `HSET` of these pairs. -/
def hsetArgs (name key : Bytes) (pairs : List HashEntry) : List Bytes :=
  name :: key :: pairs.flatMap fun kv => [kv.1, kv.2]

theorem request_hset {name : Bytes} (hname : toUpper name = bytes "HSET")
    (key field value : Bytes) (more : List HashEntry) :
    request (hsetArgs name key ((field, value) :: more)) = .hset key field value := by
  have hpick : commands.lookup (toUpper name) = some requestHSet := by
    rw [hname]
    rfl
  have heven : (hsetArgs name key ((field, value) :: more)).length - 2 =
      2 * (more.length + 1) := by
    have hlen : (more.flatMap fun kv => [kv.1, kv.2]).length = 2 * more.length := by
      induction more with
      | nil => rfl
      | cons kv more ih =>
        simp only [List.flatMap_cons, List.length_append, List.length_cons, List.length_nil, ih]
        omega
    simp only [hsetArgs, List.flatMap_cons, List.cons_append, List.length_cons, List.nil_append,
      hlen]
    omega
  have hpairs : ¬ ((hsetArgs name key ((field, value) :: more)).length - 2) % 2 ≠ 0 := by
    rw [heven]
    omega
  have hrequest : request (hsetArgs name key ((field, value) :: more)) =
      requestHSet (hsetArgs name key ((field, value) :: more)) := by
    simp only [request, hsetArgs, hpick]
  rw [hrequest]
  exact if_neg hpairs

/-- **`HSET` stores its first pair.**  In every reachable process, under a key
that is not there or holds a ziplist, the first field holds its value after the
command, and every other field and key is as it was. -/
theorem hset_stores_first_pair (hash : Bytes → Nat) (env : Surroundings) (w : World)
    (hw : Reachable hash w) (name key field value : Bytes) (more : List HashEntry)
    (hname : toUpper name = bytes "HSET") (htakes : TakesPair hash w key field value) :
    ∃ n w', execute hash env (hsetArgs name key ((field, value) :: more)) w =
        .ok (encodeInteger n, w') ∧ HoldsPairs hash key [(field, value)] w w' ∧
      (w.db.hget hash key field = .ok none → n = 1) := by
  obtain ⟨o, hset, hget⟩ := hset_keeps hw htakes
  refine ⟨1, { w with db := w.db.storeKey key (.hash o) }, ?_, ?_, fun _ => rfl⟩
  · rw [execute_eq, request_hset hname]
    simp only [perform, hset]
    rfl
  · have hstored : ∀ a, Database.hget hash key a (w.db.storeKey key (.hash o)) =
        HashObject.getField hash a o := by
      intro a
      simp only [Database.hget, Database.lookupKey_storeKey, ↓reduceIte]
    refine ⟨fun a v hlisted => ?_, fun a hnot => ?_, fun k hk => ?_⟩
    · obtain ⟨before, _, hafter⟩ := hget a
      simp only [bindAll, List.foldl_cons, List.foldl_nil, Function.update_apply] at hlisted
      rw [hstored, hafter]
      split at hlisted
      · next ha => rw [if_pos ha, hlisted]
      · cases hlisted
    · obtain ⟨before, hbefore, hafter⟩ := hget a
      have hne : a ≠ field := fun ha => hnot (by simp [ha])
      rw [hstored, hafter, if_neg hne, hbefore]
    · rw [Database.lookupKey_storeKey, if_neg hk]

/-- A hash of one field, promoted by a large value for a second one. -/
def oneField : World :=
  ⟨(∅ : Database).storeKey [104] (.hash ⟨.ZIPLIST, .ziplist [([97], [1])]⟩), none⟩

theorem oneField_reachable : Reachable Dict.firstByte oneField :=
  have hrun : execute Dict.firstByte ⟨.stored, true⟩ (hsetArgs (bytes "hset") [104] [([97], [1])])
      World.empty = .ok (encodeInteger 1, oneField) := rfl
  .step empty_reachable hrun

theorem hset_stores_first_pair_promoting : ∃ n w',
    execute Dict.firstByte ⟨.stored, true⟩
        (hsetArgs (bytes "HSET") [104] [([98], bigValue), ([99], [3])]) oneField =
      .ok (encodeInteger n, w') ∧
    w'.db.hget Dict.firstByte [104] [98] = .ok (some bigValue) ∧
    w'.db.hget Dict.firstByte [104] [97] = .ok (some [1]) ∧ n = 1 := by
  have htakes : TakesPair Dict.firstByte oneField [104] [98] bigValue := by
    intro obj hobj
    cases hobj
    exact ⟨_, rfl, by decide +kernel⟩
  obtain ⟨n, w', hrun, hpairs, hn⟩ := hset_stores_first_pair Dict.firstByte ⟨.stored, true⟩
    oneField oneField_reachable (bytes "HSET") [104] [98] bigValue [([99], [3])] (by decide) htakes
  exact ⟨n, w', hrun, hpairs.listed _ _ (by decide +kernel), hpairs.unlisted [97] (by decide),
    hn rfl⟩

/-- The second pair of an `HSET` on an empty store is accepted and not stored. -/
theorem hset_drops_second_pair :
    ¬ ∀ (hash : Bytes → Nat) (env : Surroundings) (w : World) (name key : Bytes)
      (pairs : List HashEntry), Reachable hash w → toUpper name = bytes "HSET" → pairs ≠ [] →
      (∀ obj, w.db.lookupKey key = some obj → ∃ zl, obj = .hash ⟨.ZIPLIST, .ziplist zl⟩) →
      ∃ w', execute hash env (hsetArgs name key pairs) w =
        .ok (encodeInteger (((keys pairs).dedup.filter
          fun field => w.db.hget hash key field = .ok none).length), w') ∧
        HoldsPairs hash key pairs w w' := by
  intro h
  obtain ⟨w', hrun, hpairs⟩ := h (fun _ => 0) ⟨.stored, true⟩ World.empty (bytes "HSET") [104]
    [([97], [1]), ([98], [2])] empty_reachable (by decide) (by simp)
    (fun obj hobj => (by cases hobj))
  have hmissing : (execute (fun _ => 0) ⟨.stored, true⟩
      (hsetArgs (bytes "HSET") [104] [([97], [1]), ([98], [2])]) World.empty >>=
        fun r => r.2.db.hget (fun _ => 0) [104] [98]) = .ok none := rfl
  rw [hrun, Exec.ok_bind, hpairs.listed [98] [2] (by decide)] at hmissing
  cases hmissing

end CommandHandler

end MiniRedis
