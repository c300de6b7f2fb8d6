import MiniRedis.DictRehash

/-!
Well-formed Dicts: every entry in its bucket, no key twice in the two tables
together, and nothing left behind the migration.  `rehash_step` keeps a
well-formed Dict well-formed and loses nothing, the swap included.
-/

namespace MiniRedis.Dict

open AssocList BucketTable
open scoped List

variable {hash : Bytes → Nat}

structure WellFormed (hash : Bytes → Nat) (d : Dict) : Prop extends Sane d where
  placed0 : Placed hash d.ht0
  placed1 : Placed hash d.ht1
  nodup : (keys d.entries).Nodup
  used_eq : d.used = d.entries.length
  /-- Buckets below `rehashidx` are empty. -/
  drained : ∀ c ∈ d.ht0.take d.rehashidx.toNat, c = []

instance (d : Dict) : Decidable (Sane d) :=
  decidable_of_iff (0 < d.ht0.length ∧ (d.isRehashing = false → d.ht1 = []) ∧
      (d.isRehashing = true → 0 < d.ht1.length ∧ 0 ≤ d.rehashidx ∧ d.rehashidx ≤ d.ht0.length) ∧
      d.entries.length ≤ d.used)
    ⟨fun ⟨h1, h2, h3, h4⟩ =>
        ⟨h1, h2, fun h => (h3 h).1, fun h => (h3 h).2.1, fun h => (h3 h).2.2, h4⟩,
      fun h => ⟨h.main, h.idle, fun hr => ⟨h.aux hr, h.nonneg hr, h.bound hr⟩, h.counted⟩⟩

instance (d : Dict) : Decidable (WellFormed hash d) :=
  decidable_of_iff (Sane d ∧ Placed hash d.ht0 ∧ Placed hash d.ht1 ∧ (keys d.entries).Nodup ∧
      d.used = d.entries.length ∧ ∀ c ∈ d.ht0.take d.rehashidx.toNat, c = [])
    ⟨fun ⟨h1, h2, h3, h4, h5, h6⟩ => ⟨h1, h2, h3, h4, h5, h6⟩,
      fun h => ⟨h.toSane, h.placed0, h.placed1, h.nodup, h.used_eq, h.drained⟩⟩

theorem new_sane : Sane new := by decide

theorem new_wellFormed : WellFormed hash new where
  toSane := new_sane
  placed0 := placed_replicate hash INIT_HT_SIZE
  placed1 := placed_replicate hash 0
  nodup := by decide
  used_eq := rfl
  drained := by decide

/-! ## Reading -/

theorem lookupIn_ok {t : Table} (ht : Placed hash t) (key : Bytes) :
    lookupIn hash key t = .ok (t.flatten.lookup key) := by
  unfold lookupIn
  split
  · next h => subst h; rfl
  · next h =>
    have hpos := List.length_pos_of_ne_nil h
    obtain ⟨head, hh⟩ := bucket_exists hash key hpos
    simp only [modSize_ok hpos, at?_ok hh, Exec.ok_bind, Exec.pure_eq, lookup_bucket ht hh]

theorem getField_ok {d : Dict} (h0 : Placed hash d.ht0) (h1 : Placed hash d.ht1)
    (hs : Sane d) (key : Bytes) : getField hash key d = .ok (d.entries.lookup key) := by
  have hne : d.ht0 ≠ [] := List.ne_nil_of_length_pos hs.main
  rw [getField, lookupIn_ok h0, Exec.ok_bind, entries, List.lookup_append]
  cases hfirst : d.ht0.flatten.lookup key with
  | some value => rfl
  | none =>
    cases hr : d.isRehashing with
    | true => simp [hne, lookupIn_ok h1]
    | false => simp [hne, hs.idle hr]

theorem WellFormed.getField {d : Dict} (hw : WellFormed hash d) (key : Bytes) :
    getField hash key d = .ok (d.entries.lookup key) :=
  getField_ok hw.placed0 hw.placed1 hw.toSane key

theorem getAll_ok {d : Dict} (hs : Sane d) : getAll d = .ok d.entries := by
  have := hs.counted
  have hu : ¬ d.used < 0 := by omega
  simp [getAll, hu, entries]

theorem WellFormed.size_eq {d : Dict} (hw : WellFormed hash d) : d.size = d.entries.length := by
  rw [size, hw.used_eq, toSizeT_natCast]

/-! ## One move and the swap -/

theorem Moves.wellFormed {e m : Nat} {d d' : Dict} (h : Moves hash e m d d')
    (hw : WellFormed hash d) : WellFormed hash d' := by
  have hd : Placed hash d'.ht0 ∧ Placed hash d'.ht1 ∧
      ∀ c ∈ d'.ht0.take d'.rehashidx.toNat, c = [] := by
    apply h.preserves
      (P := fun x => Placed hash x.ht0 ∧ Placed hash x.ht1 ∧
        ∀ c ∈ x.ht0.take x.rehashidx.toNat, c = []) _ _ ⟨hw.placed0, hw.placed1, hw.drained⟩
    · rintro x i hi hb ⟨h0, h1, hdr⟩
      refine ⟨h0, h1, ?_⟩
      intro c hc
      simp only [hi, Int.toNat_natCast] at hdr
      have hi' : ((i : Int) + 1).toNat = i + 1 := by omega
      simp only [hi', List.take_add_one, hb, Option.toList_some, List.mem_append,
        List.mem_singleton] at hc
      rcases hc with hc | hc
      · exact hdr c hc
      · exact hc
    · rintro x i b hi hb ha ⟨h0, h1, hdr⟩
      obtain ⟨hlt, _⟩ := List.getElem?_eq_some_iff.mp hb
      refine ⟨placed_set h0 (by simp), spill_placed b ha h1, ?_⟩
      intro c hc
      simp only [hi, Int.toNat_natCast] at hdr
      have hi' : ((i : Int) + 1).toNat = i + 1 := by omega
      simp only [hi', List.take_add_one, List.getElem?_set_self hlt, Option.toList_some,
        List.take_set_of_le (Nat.le_refl i), List.mem_append, List.mem_singleton] at hc
      rcases hc with hc | hc
      · exact hdr c hc
      · exact hc
  obtain ⟨h0, h1, hdr⟩ := hd
  exact { toSane := h.sane hw.toSane
          placed0 := h0
          placed1 := h1
          nodup := (keys_perm h.entries).nodup_iff.mpr hw.nodup
          used_eq := by rw [h.used, hw.used_eq, h.entries.length_eq]
          drained := hdr }

/-- At the end of the migration the old table holds nothing. -/
theorem WellFormed.ht0_drained {d : Dict} (hw : WellFormed hash d)
    (hend : d.rehashidx = d.ht0.length) : d.ht0.flatten = [] := by
  apply List.flatten_eq_nil_iff.mpr
  have := hw.drained
  rwa [hend, Int.toNat_natCast, List.take_length] at this

theorem swapTables_sane {d : Dict} (hs : Sane d) (hend : d.rehashidx = d.ht0.length) :
    Sane (swapTables d) := by
  have hr : d.isRehashing = true := by rw [isRehashing_iff]; omega
  have hc := hs.counted
  have hidle : (swapTables d).isRehashing = false := rfl
  exact { main := hs.aux hr
          idle := fun _ => rfl
          aux := fun h => absurd h (by simp [hidle])
          nonneg := fun h => absurd h (by simp [hidle])
          bound := fun h => absurd h (by simp [hidle])
          counted := by
            simp only [entries, List.length_append, swapTables, List.flatten_nil, List.length_nil]
              at hc ⊢
            omega }

theorem WellFormed.entries_swap {d : Dict} (hw : WellFormed hash d)
    (hend : d.rehashidx = d.ht0.length) : (swapTables d).entries = d.entries := by
  simp [entries, swapTables, hw.ht0_drained hend]

theorem WellFormed.swap {d : Dict} (hw : WellFormed hash d)
    (hend : d.rehashidx = d.ht0.length) : WellFormed hash (swapTables d) where
  toSane := swapTables_sane hw.toSane hend
  placed0 := hw.placed1
  placed1 := placed_replicate hash 0
  nodup := by rw [hw.entries_swap hend]; exact hw.nodup
  used_eq := by rw [hw.entries_swap hend]; exact hw.used_eq
  drained := by simp [swapTables]

/-! ## One call of `rehash_step` -/

theorem Outcome.sane {n v : Nat} {d : Dict} {r : Int × Dict} (h : Outcome hash n v d r)
    (hs : Sane d) : Sane r.2 := by
  cases h with
  | idle _ => exact hs
  | exhausted _ _ hm _ => exact hm.sane hs
  | spent _ _ _ hm _ => exact hm.sane hs
  | swapped _ _ hm _ hend => exact swapTables_sane (hm.sane hs) hend

theorem Outcome.used {n v : Nat} {d : Dict} {r : Int × Dict} (h : Outcome hash n v d r) :
    r.2.used = d.used := by
  cases h with
  | idle _ => rfl
  | exhausted _ _ hm _ => exact hm.used
  | spent _ _ _ hm _ => exact hm.used
  | swapped _ _ hm _ _ => exact hm.used

theorem Outcome.wellFormed {n v : Nat} {d : Dict} {r : Int × Dict} (h : Outcome hash n v d r)
    (hw : WellFormed hash d) : WellFormed hash r.2 ∧ r.2.entries.Perm d.entries := by
  cases h with
  | idle _ => exact ⟨hw, List.Perm.refl _⟩
  | exhausted _ _ hm _ => exact ⟨hm.wellFormed hw, hm.entries⟩
  | spent _ _ _ hm _ => exact ⟨hm.wellFormed hw, hm.entries⟩
  | swapped _ _ hm _ hend =>
    refine ⟨(hm.wellFormed hw).swap hend, ?_⟩
    rw [(hm.wellFormed hw).entries_swap hend]
    exact hm.entries

/-- The moves of a call that leaves the rehash unfinished, within the budget. -/
theorem Outcome.budget {n : Nat} {d : Dict} {r : Int × Dict} (h : Outcome hash n 0 d r)
    (hr : r.2.isRehashing = true) :
    ∃ e m, Moves hash e m d r.2 ∧ m ≤ n ∧ e ≤ 10 * n ∧ (n = 1 → e + m ≤ 1) := by
  cases h with
  | idle _ => exact ⟨0, 0, .refl d, by omega, by omega, by omega⟩
  | exhausted hpos _ hm hv => exact ⟨_, _, hm, by omega, by omega, by omega⟩
  | spent hlt _ _ hm hv => exact ⟨_, _, hm, by omega, by omega, by omega⟩
  | swapped _ _ _ _ _ => exact absurd hr (by simp [swapTables, isRehashing])

theorem WellFormed.rehashStep {d : Dict} (hw : WellFormed hash d) (n : Nat) :
    ∃ r d', rehashStep hash n d = .ok (r, d') ∧ WellFormed hash d' ∧
      d'.entries.Perm d.entries ∧ d'.used = d.used := by
  cases hr : d.isRehashing with
  | false => exact ⟨0, d, rehashStep_idle hr, hw, List.Perm.refl _, rfl⟩
  | true =>
    obtain ⟨⟨r, d'⟩, hrun, hout⟩ := rehashStep_outcome hash n hw.toSane hr
    exact ⟨r, d', hrun, (hout.wellFormed hw).1, (hout.wellFormed hw).2, hout.used⟩

/-- **Lossless migration.**  On a well-formed Dict `rehash_step(n)` ends in a
well-formed Dict with the same fields, and while the rehash goes on it passes at
most `n` non-empty and `10 * n` empty buckets, at most one bucket when `n = 1`. -/
theorem rehashStep_lossless (hash : Bytes → Nat) (d : Dict) (n : Nat)
    (hw : WellFormed hash d) :
    ∃ r d', Dict.rehashStep hash n d = .ok (r, d') ∧ WellFormed hash d' ∧
      (∀ key, Dict.getField hash key d' = Dict.getField hash key d) ∧ d'.used = d.used ∧
      (∃ all all', getAll d = .ok all ∧ getAll d' = .ok all' ∧ all'.Perm all) ∧
      (d'.isRehashing = true → ∃ i j : Nat, d.rehashidx = i ∧ d'.rehashidx = j ∧ i ≤ j ∧
        (((d.ht0.drop i).take (j - i)).filter (· ≠ [])).length ≤ n ∧
        (((d.ht0.drop i).take (j - i)).filter (· = [])).length ≤ 10 * n ∧
        (n = 1 → j ≤ i + 1)) := by
  obtain ⟨r, d', hrun, hw', hp, hu⟩ := hw.rehashStep n
  refine ⟨r, d', hrun, hw', ?_, hu, ⟨_, _, getAll_ok hw.toSane, getAll_ok hw'.toSane, hp⟩, ?_⟩
  · intro key
    rw [hw.getField, hw'.getField, lookup_perm hw'.nodup hp]
  · intro hr'
    cases hr : d.isRehashing with
    | false =>
      rw [rehashStep_idle hr] at hrun
      cases hrun
      rw [hr] at hr'
      cases hr'
    | true =>
      obtain ⟨out, hrun', hout⟩ := rehashStep_outcome hash n hw.toSane hr
      rw [hrun] at hrun'
      cases hrun'
      obtain ⟨e, m, hm, hmn, hen, hone⟩ := hout.budget hr'
      obtain ⟨i, hi, _⟩ := hw.index hr
      obtain ⟨he, hm'⟩ := hm.passed i hi
      have hj := hm.rehashidx
      refine ⟨i, i + (e + m), hi, by rw [hj, hi]; push_cast; omega, by omega, ?_, ?_, by omega⟩
      · rw [Nat.add_sub_cancel_left, hm']
        exact hmn
      · rw [Nat.add_sub_cancel_left, he]
        exact hen

/-- Two keys, one of them already in the new table. -/
def halfway : Dict :=
  ⟨[[], [([1], [7])], [], []], [[], [], [], [], [([1, 1, 1, 1], [8])], [], [], []], 2, 1⟩

theorem rehashStep_lossless_halfway :
    WellFormed List.length halfway ∧
      ∃ r d', Dict.rehashStep List.length 1 halfway = .ok (r, d') ∧ d'.rehashidx = 2 := by
  refine ⟨by decide, ?_⟩
  obtain ⟨r, d', hrun, _⟩ := rehashStep_lossless List.length halfway 1 (by decide)
  refine ⟨r, d', hrun, ?_⟩
  cases hrun
  rfl

end MiniRedis.Dict
