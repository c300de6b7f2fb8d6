import MiniRedis.DictMap

/-!
The geometry of a Dict in every reachable state, migrated writes included: the
main table has a power of two of buckets, the new one twice or half as many, and
every entry sits in its bucket.  Nothing is assumed about which buckets
`set_field` addresses, so entries may be lost, but no index leaves its table.
-/

namespace MiniRedis.Dict

open AssocList BucketTable

variable {hash : Bytes → Nat}

/-- The numbers of buckets the two tables can have together. -/
def Sized (main new : Nat) : Prop :=
  (∃ k, 2 ≤ k ∧ main = 2 ^ k) ∧ (new = 0 ∨ 4 ≤ new ∧ (new = 2 * main ∨ 2 * new = main))

structure Geometry (hash : Bytes → Nat) (d : Dict) : Prop extends Sane d where
  placed0 : Placed hash d.ht0
  placed1 : Placed hash d.ht1
  sized : Sized d.ht0.length d.ht1.length

/-! ## Sizes -/

theorem Sized.min {m a : Nat} (h : Sized m a) : 4 ≤ m := by
  obtain ⟨⟨k, hk, rfl⟩, _⟩ := h
  calc 4 = 2 ^ 2 := rfl
    _ ≤ 2 ^ k := Nat.pow_le_pow_right (by decide) hk

/-- Every size above the smallest has a half that is no smaller. -/
theorem Sized.half {m a : Nat} (h : Sized m a) (hm : 4 < m) : ∃ n, 4 ≤ n ∧ m = 2 * n := by
  obtain ⟨⟨k, hk, rfl⟩, _⟩ := h
  obtain ⟨k, rfl⟩ : ∃ j, k = j + 1 := ⟨k - 1, by omega⟩
  rw [Nat.pow_succ] at hm ⊢
  refine ⟨2 ^ k, ?_, Nat.mul_comm ..⟩
  have hk2 : 2 ≤ k := by
    by_contra hlt
    have hle : 2 ^ k ≤ 2 ^ 1 := Nat.pow_le_pow_right (by decide) (by omega)
    omega
  calc 4 = 2 ^ 2 := rfl
    _ ≤ 2 ^ k := Nat.pow_le_pow_right (by decide) hk2

theorem Sized.expand {m a : Nat} (h : Sized m a) : Sized m (m * 2) :=
  ⟨h.1, Or.inr ⟨by have := h.min; omega, Or.inl (Nat.mul_comm ..)⟩⟩

theorem Sized.shrink {m a : Nat} (h : Sized m a) (hm : 4 < m) : Sized m (max 4 (m / 2)) := by
  obtain ⟨n, hn, rfl⟩ := h.half hm
  exact ⟨h.1, Or.inr ⟨Nat.le_max_left .., Or.inr (by omega)⟩⟩

/-- The new table takes the place of the main one. -/
theorem Sized.swap {m a : Nat} (h : Sized m a) (ha : 0 < a) : Sized a 0 := by
  refine ⟨?_, Or.inl rfl⟩
  obtain ⟨⟨k, hk, hm⟩, h0 | ⟨hmin, h2 | h2⟩⟩ := h
  · omega
  · exact ⟨k + 1, by omega, by rw [h2, hm, Nat.pow_succ, Nat.mul_comm]⟩
  · obtain ⟨k, rfl⟩ : ∃ j, k = j + 1 := ⟨k - 1, by omega⟩
    rw [Nat.pow_succ] at hm
    refine ⟨k, ?_, by omega⟩
    by_contra hlt
    have hle : 2 ^ k ≤ 2 ^ 1 := Nat.pow_le_pow_right (by decide) (by omega)
    omega

theorem sized_new : Sized new.ht0.length new.ht1.length := ⟨⟨2, by decide, rfl⟩, Or.inl rfl⟩

theorem new_geometry : Geometry hash new :=
  ⟨new_sane, new_wellFormed.placed0, new_wellFormed.placed1, sized_new⟩

/-! ## Migration -/

theorem Moves.length_ht1 {e m : Nat} {d d' : Dict} (h : Moves hash e m d d') :
    d'.ht1.length = d.ht1.length :=
  h.preserves (P := fun x => x.ht1.length = d.ht1.length) (fun _ _ _ _ hp => hp)
    (fun _ _ _ _ _ _ hp => by simpa using hp) rfl

theorem Moves.placed {e m : Nat} {d d' : Dict} (h : Moves hash e m d d')
    (h0 : Placed hash d.ht0) (h1 : Placed hash d.ht1) :
    Placed hash d'.ht0 ∧ Placed hash d'.ht1 := by
  refine h.preserves (P := fun x => Placed hash x.ht0 ∧ Placed hash x.ht1) ?_ ?_ ⟨h0, h1⟩
  · exact fun _ _ _ _ hp => hp
  · rintro x i c _ _ ha ⟨hx0, hx1⟩
    exact ⟨placed_set hx0 (by simp), spill_placed c ha hx1⟩

theorem Moves.geometry {e m : Nat} {d d' : Dict} (h : Moves hash e m d d')
    (hg : Geometry hash d) : Geometry hash d' := by
  obtain ⟨h0, h1⟩ := h.placed hg.placed0 hg.placed1
  refine ⟨h.sane hg.toSane, h0, h1, ?_⟩
  rw [h.length_ht0, h.length_ht1]
  exact hg.sized

theorem Geometry.swap {d : Dict} (hg : Geometry hash d) (hend : d.rehashidx = d.ht0.length) :
    Geometry hash (swapTables d) where
  toSane := swapTables_sane hg.toSane hend
  placed0 := hg.placed1
  placed1 := placed_replicate hash 0
  sized := hg.sized.swap (hg.aux (by rw [isRehashing_iff]; omega))

theorem Outcome.geometry {n v : Nat} {d : Dict} {r : Int × Dict} (h : Outcome hash n v d r)
    (hg : Geometry hash d) : Geometry hash r.2 := by
  cases h with
  | idle _ => exact hg
  | exhausted _ _ hm _ => exact hm.geometry hg
  | spent _ _ _ hm _ => exact hm.geometry hg
  | swapped _ _ hm _ hend => exact (hm.geometry hg).swap hend

theorem Geometry.rehashStep {d : Dict} (hg : Geometry hash d) (n : Nat) :
    ∃ r d', Dict.rehashStep hash n d = .ok (r, d') ∧ Geometry hash d' := by
  cases hr : d.isRehashing with
  | false => exact ⟨0, d, rehashStep_idle hr, hg⟩
  | true =>
    obtain ⟨⟨r, d'⟩, hrun, hout⟩ := rehashStep_outcome hash n hg.toSane hr
    exact ⟨r, d', hrun, hout.geometry hg⟩

theorem Geometry.tryRehashForMs {d : Dict} (hg : Geometry hash d) (deadline : Nat) :
    ∃ d', Dict.tryRehashForMs hash deadline d = .ok d' ∧ Geometry hash d' :=
  tryRehashForMs_keeps (fun _ hg => hg.rehashStep 100) deadline hg

theorem Geometry.advance {d : Dict} (hg : Geometry hash d) :
    ∃ d', Dict.advance hash d = .ok d' ∧ Geometry hash d' := by
  rcases advance_outcome hash hg.toSane with ⟨_, hrun⟩ | ⟨_, r, hrun, hout⟩
  · exact ⟨d, hrun, hg⟩
  · exact ⟨r.2, hrun, hout.geometry hg⟩

/-! ## Resizing -/

/-- The table that `expand_if_needed` hands to `vector::resize`, and the size. -/
def expansion (d : Dict) : Option (Table × Nat) :=
  if d.isRehashing then none
  else if d.ht0 = [] then none
  else if d.used ≥ d.ht0.length then some (d.ht1, d.ht0.length * 2)
  else none

/-- The table that `shrink_if_needed` hands to `vector::resize`, and the size. -/
def shrinkage (d : Dict) : Option (Table × Nat) :=
  if d.isRehashing then none
  else if d.ht0.length ≤ INIT_HT_SIZE then none
  else if toSizeT (d.used * 100) / d.ht0.length < HASHTABLE_MIN_FILL then
    some (d.ht1, max INIT_HT_SIZE (d.ht0.length / 2))
  else none

/-- A resized table becomes the new table of a rehash. -/
def startRehash (d : Dict) : Option (Table × Nat) → Dict
  | none => d
  | some (t, n) => { d with ht1 := resize t n, rehashidx := 0 }

theorem expandIfNeeded_eq (d : Dict) : expandIfNeeded d = startRehash d (expansion d) := by
  unfold expandIfNeeded expansion
  split
  · rfl
  · split
    · rfl
    · split <;> rfl

theorem shrinkIfNeeded_eq (d : Dict) : shrinkIfNeeded d = startRehash d (shrinkage d) := by
  unfold shrinkIfNeeded shrinkage
  split
  · rfl
  · split
    · rfl
    · split <;> rfl

theorem expansion_some {d : Dict} {t : Table} {n : Nat} (h : expansion d = some (t, n)) :
    d.isRehashing = false ∧ t = d.ht1 ∧ n = d.ht0.length * 2 := by
  unfold expansion at h
  split at h
  · cases h
  · next hr =>
    split at h
    · cases h
    · split at h
      · cases h
        exact ⟨by simpa using hr, rfl, rfl⟩
      · cases h

theorem shrinkage_some {d : Dict} {t : Table} {n : Nat} (h : shrinkage d = some (t, n)) :
    d.isRehashing = false ∧ t = d.ht1 ∧ 4 < d.ht0.length ∧ n = max 4 (d.ht0.length / 2) := by
  unfold shrinkage at h
  split at h
  · cases h
  · next hr =>
    split at h
    · cases h
    · next hm =>
      split at h
      · cases h
        exact ⟨by simpa using hr, rfl, by simpa [INIT_HT_SIZE] using hm, rfl⟩
      · cases h

/-- A rehash started with a table of a fitting size. -/
theorem Geometry.start {d : Dict} (hg : Geometry hash d) (hr : d.isRehashing = false) {n : Nat}
    (hn : Sized d.ht0.length n) (hpos : 0 < n) :
    Geometry hash { d with ht1 := resize d.ht1 n, rehashidx := 0 } := by
  have hidle := hg.idle hr
  refine ⟨hg.toSane.start hr hpos, hg.placed0, ?_, ?_⟩
  · simp only [hidle, resize_nil]
    exact placed_replicate hash n
  · simp only [hidle, resize_nil, List.length_replicate]
    exact hn

theorem Geometry.expandIfNeeded {d : Dict} (hg : Geometry hash d) :
    Geometry hash (Dict.expandIfNeeded d) := by
  rw [expandIfNeeded_eq]
  cases h : expansion d with
  | none => exact hg
  | some tn =>
    obtain ⟨t, n⟩ := tn
    obtain ⟨hr, rfl, rfl⟩ := expansion_some h
    exact hg.start hr hg.sized.expand (by have := hg.sized.min; omega)

theorem Geometry.shrinkIfNeeded {d : Dict} (hg : Geometry hash d) :
    Geometry hash (Dict.shrinkIfNeeded d) := by
  rw [shrinkIfNeeded_eq]
  cases h : shrinkage d with
  | none => exact hg
  | some tn =>
    obtain ⟨t, n⟩ := tn
    obtain ⟨hr, rfl, hm, rfl⟩ := shrinkage_some h
    exact hg.start hr (hg.sized.shrink hm) (by omega)

/-! ## Writing and unlinking -/

/-- A bucket of the main table holds a new chain of its own keys. -/
theorem Geometry.write {d : Dict} (hg : Geometry hash d) {i : Nat} {head c : Chain} {u : Int}
    (hh : d.ht0[i]? = some head) (hc : ∀ e ∈ c, hash e.1 % d.ht0.length = i)
    (hu : d.used + c.length ≤ u + head.length) :
    Geometry hash { d with ht0 := d.ht0.set i c, used := u } := by
  refine ⟨hg.toSane.write hh hu, placed_set hg.placed0 hc, hg.placed1, ?_⟩
  simp only [List.length_set]
  exact hg.sized

theorem Geometry.setField {d : Dict} (hg : Geometry hash d) (key value : Bytes) :
    ∃ d', Dict.setField hash key value d = .ok d' ∧ Geometry hash d' := by
  obtain ⟨d₁, hrun, hg₁⟩ := hg.advance
  obtain ⟨head, hh, hcases⟩ := setField_cases key value hrun hg₁.toSane
  rcases hcases with ⟨head', hassign, hset⟩ | ⟨_, hset⟩
  · have hkeys := assign_keys hassign
    have hlen := congrArg List.length hkeys
    simp only [keys, List.length_map] at hlen
    have hplaced := chain_keys hg₁.placed0 hh fun k hk => hkeys ▸ hk
    exact ⟨_, hset, hg₁.write hh hplaced (by omega)⟩
  · have hplaced := chain_link hg₁.placed0 value hh
    refine ⟨_, hset, Geometry.expandIfNeeded (hg₁.write hh hplaced ?_)⟩
    rw [List.length_cons]
    push_cast
    omega

theorem Unlinked.geometry {d d' : Dict} {key : Bytes} (h : Unlinked key d d')
    (hg : Geometry hash d) : Geometry hash d' := by
  have hcounted := hg.counted
  cases h with
  | @main i c c' hc hunlink =>
    obtain ⟨v₀, hp⟩ := unlink_flatten hc hunlink
    have hlen := hp.length_eq
    refine ⟨hg.toSane.frame (by simp) rfl rfl ?_, unlink_placed hg.placed0 hc hunlink,
      hg.placed1, by simpa using hg.sized⟩
    simp only [entries, List.length_append, List.length_cons] at hlen hcounted ⊢
    omega
  | @new i c c' hr hc hunlink =>
    obtain ⟨v₀, hp⟩ := unlink_flatten hc hunlink
    have hlen := hp.length_eq
    refine ⟨hg.toSane.frame rfl (by simp) rfl ?_, hg.placed0,
      unlink_placed hg.placed1 hc hunlink, by simpa using hg.sized⟩
    simp only [entries, List.length_append, List.length_cons] at hlen hcounted ⊢
    omega

theorem Geometry.delField {d : Dict} (hg : Geometry hash d) (key : Bytes) :
    ∃ b d', Dict.delField hash key d = .ok (b, d') ∧ Geometry hash d' := by
  obtain ⟨d₁, hrun, hg₁⟩ := hg.advance
  rcases delField_cases key hrun hg₁.toSane hg₁.placed0 hg₁.placed1 with
    ⟨_, hdel⟩ | ⟨d₂, hunlinked, hdel⟩
  · exact ⟨false, d₁, hdel, hg₁⟩
  · exact ⟨true, _, hdel, (hunlinked.geometry hg₁).shrinkIfNeeded⟩

/-! ## Runs -/

theorem step_geometry (d : Dict) (op : Op) (hg : Geometry hash d) :
    ∃ a d', step hash op d = .ok (a, d') ∧ Geometry hash d' := by
  cases op with
  | set key value =>
    obtain ⟨d', hrun, hg'⟩ := hg.setField key value
    exact ⟨.done, d', by simp [step, hrun], hg'⟩
  | del key =>
    obtain ⟨b, d', hrun, hg'⟩ := hg.delField key
    exact ⟨.found b, d', by simp [step, hrun], hg'⟩
  | get key =>
    obtain ⟨v, hv⟩ := getField_returns hash key d
    exact ⟨.value v, d, by simp [step, hv], hg⟩
  | getAll => exact ⟨.listed d.entries, d, by simp [step, getAll_ok hg.toSane], hg⟩
  | size => exact ⟨.count d.size, d, rfl, hg⟩
  | rehash n =>
    obtain ⟨r, d', hrun, hg'⟩ := hg.rehashStep n
    exact ⟨.done, d', by simp [step, hrun], hg'⟩

/-- Every run from a fresh Dict returns, in a Dict of this geometry. -/
theorem run_geometry (hash : Bytes → Nat) (ops : List Op) :
    ∃ answers d, Run.run (step hash) ops new = .ok (answers, d) ∧ Geometry hash d :=
  Run.invariant step_geometry ops new new_geometry

/-- The table that a call hands to `vector::resize`, and the size, if it does. -/
def resizedBy (hash : Bytes → Nat) : Op → Dict → Exec (Option (Table × Nat))
  | .set key value, d => do
      let d ← Dict.advance hash d
      let idx ← hashKey hash key d
      let head ← at? d.ht0 idx
      match assign key value head with
      | some _ => pure none
      | none => pure (expansion
          { d with ht0 := d.ht0.set idx ((key, value) :: head), used := d.used + 1 })
  | .del key, d => do
      let d ← Dict.advance hash d
      match ← unlinkIn hash key d.ht0 with
      | some ht0 => pure (shrinkage { d with ht0 := ht0, used := d.used - 1 })
      | none =>
          if d.ht0 = [] ∨ d.isRehashing then
            match ← unlinkIn hash key d.ht1 with
            | some ht1 => pure (shrinkage { d with ht1 := ht1, used := d.used - 1 })
            | none => pure none
          else pure none
  | .get _, _ | .getAll, _ | .size, _ | .rehash _, _ => pure none

/-- Only an empty new table is resized. -/
theorem Geometry.resizes_empty {d : Dict} (hg : Geometry hash d) {op : Op} {t : Table} {n : Nat}
    (h : resizedBy hash op d = .ok (some (t, n))) : t = [] := by
  obtain ⟨d₁, hrun, hg₁⟩ := hg.advance
  have hne : d₁.ht0 ≠ [] := List.ne_nil_of_length_pos hg₁.main
  cases op with
  | set key value =>
    obtain ⟨head, hh⟩ := bucket_exists hash key hg₁.main
    simp only [resizedBy, hrun, hashKey, modSize_ok hg₁.main, at?_ok hh, Exec.ok_bind] at h
    split at h
    · cases h
    · obtain ⟨hr, rfl, _⟩ := expansion_some (Except.ok.inj h)
      exact hg₁.idle hr
  | del key =>
    simp only [resizedBy, hrun, Exec.ok_bind] at h
    rcases unlinkIn_cases hg₁.placed0 key with ⟨_, h0⟩ | ⟨i, c, c', _, _, h0⟩
    · simp only [h0, Exec.ok_bind, hne, false_or] at h
      split at h
      · next hr =>
        rcases unlinkIn_cases hg₁.placed1 key with ⟨_, h1⟩ | ⟨i, c, c', _, _, h1⟩
        · simp only [h1, Exec.ok_bind] at h
          cases h
        · simp only [h1, Exec.ok_bind] at h
          -- while a rehash goes on nothing is resized
          obtain ⟨hidle, _⟩ := shrinkage_some (Except.ok.inj h)
          exact absurd hr (by simpa [isRehashing] using hidle)
      · cases h
    · simp only [h0, Exec.ok_bind] at h
      obtain ⟨hr, rfl, _⟩ := shrinkage_some (Except.ok.inj h)
      exact hg₁.idle hr
  | get _ | getAll | size | rehash _ => cases h

/-- The fourth key of a fresh Dict starts an expansion to eight buckets. -/
example : (Run.run (step firstByte) [.set [0] [], .set [1] [], .set [2] []] new >>= fun r =>
    resizedBy firstByte (.set [3] []) r.2) = .ok (some ([], 8)) := rfl

/-- **Table geometry.**  Every run from a fresh Dict returns, so no remainder is
by zero and no index leaves its table.  In the state it ends in the sizes fit
together, every entry is in its bucket, the counter is no less than the entries,
and no call resizes a table in place. -/
theorem run_keeps_geometry (hash : Bytes → Nat) (ops : List Op) :
    ∃ answers d, Run.run (step hash) ops new = .ok (answers, d) ∧
      (∃ k, d.ht0.length = 2 ^ k) ∧ 4 ≤ d.ht0.length ∧ (d.rehashidx = -1 ↔ d.ht1 = []) ∧
      (d.isRehashing = true → 4 ≤ d.ht1.length ∧
        (d.ht1.length = 2 * d.ht0.length ∨ d.ht1.length = d.ht0.length / 2) ∧
        0 ≤ d.rehashidx ∧ d.rehashidx ≤ d.ht0.length) ∧
      Placed hash d.ht0 ∧ Placed hash d.ht1 ∧
      d.entries.length ≤ d.used ∧ 0 ≤ d.used ∧ (toSizeT (d.used * 100) : Int) = d.used * 100 ∧
      Dict.getAll d = .ok d.entries ∧
      ∀ op t n, resizedBy hash op d = .ok (some (t, n)) → t = [] := by
  obtain ⟨answers, d, hrun, hg⟩ := run_geometry hash ops
  have hcounted := hg.counted
  have hnonneg : 0 ≤ d.used := by omega
  obtain ⟨⟨k, _, hk⟩, hnew⟩ := hg.sized
  refine ⟨answers, d, hrun, ⟨k, hk⟩, hg.sized.min, ⟨fun h => ?_, fun h => ?_⟩, fun hr => ?_,
    hg.placed0, hg.placed1, hcounted, hnonneg, ?_, getAll_ok hg.toSane,
    fun _ _ _ h => hg.resizes_empty h⟩
  · exact hg.idle (isRehashing_eq_false.mpr h)
  · by_contra hne
    have haux := hg.aux (isRehashing_iff.mpr hne)
    rw [h] at haux
    exact Nat.lt_irrefl 0 haux
  · have haux := hg.aux hr
    rcases hnew with h0 | ⟨hmin, hsize⟩
    · omega
    · exact ⟨hmin, hsize.imp id (by omega), hg.nonneg hr, hg.bound hr⟩
  · rw [toSizeT, if_pos (by omega)]
    omega

end MiniRedis.Dict
