import MiniRedis.DictWellFormed

/-!
What `set_field` and `del_field` do to the stored entries.  `set_field` writes
into the main table even during a rehash, so it is a map update only when it
addresses a bucket the migration has not reached; `Unmigrated` is that condition
on the state before the call.  Deletions need no condition.
-/

namespace MiniRedis.Dict

open AssocList BucketTable
open scoped List

variable {hash : Bytes → Nat}

/-- `set_field(key, _)` finds its bucket of the main table not yet migrated: no
rehash is in progress, or this call's own step ends it, or the bucket lies
behind the position that step leaves. -/
def Unmigrated (hash : Bytes → Nat) (d : Dict) (key : Bytes) : Prop :=
  d.rehashidx = -1 ∨ (0 < d.used ∧ d.rehashidx = d.ht0.length) ∨
    d.rehashidx + (if 0 < d.used then 1 else 0) ≤ (hash key % d.ht0.length : Nat)

instance (d : Dict) (key : Bytes) : Decidable (Unmigrated hash d key) :=
  inferInstanceAs (Decidable (_ ∨ _))

/-- What the new table holds came from buckets already migrated. -/
def Ahead (hash : Bytes → Nat) (d : Dict) : Prop :=
  d.isRehashing = true → ∀ e ∈ d.ht1.flatten, (hash e.1 % d.ht0.length : Nat) < d.rehashidx

theorem ahead_of_idle {d : Dict} (hr : d.isRehashing = false) : Ahead hash d :=
  fun h => absurd h (by simp [hr])

theorem Moves.ahead {e m : Nat} {d d' : Dict} (h : Moves hash e m d d')
    (hw : WellFormed hash d) (ha : Ahead hash d) : Ahead hash d' := by
  have hP : Placed hash d'.ht0 ∧
      ∀ a ∈ d'.ht1.flatten, (hash a.1 % d'.ht0.length : Nat) < d'.rehashidx := by
    cases hr : d.isRehashing with
    | false =>
      have hidx := isRehashing_eq_false.mp hr
      cases h with
      | refl _ =>
        refine ⟨hw.placed0, fun a hm => ?_⟩
        rw [hw.idle hr] at hm
        simp at hm
      | skip i hi _ _ => omega
      | migrate i c hi _ _ _ _ => omega
    | true =>
      apply h.preserves
        (P := fun x => Placed hash x.ht0 ∧
          ∀ a ∈ x.ht1.flatten, (hash a.1 % x.ht0.length : Nat) < x.rehashidx)
        _ _ ⟨hw.placed0, ha hr⟩
      · rintro x i hi hb ⟨h0, hx⟩
        refine ⟨h0, fun a hm => ?_⟩
        have := hx a hm
        simp only
        omega
      · rintro x i b hi hb hpos ⟨h0, hx⟩
        refine ⟨placed_set h0 (by simp), fun a hm => ?_⟩
        simp only [List.length_set]
        -- an entry of the new table was there before or comes from bucket `i`
        rcases List.mem_append.mp ((spill_perm hash b hpos).mem_iff.mp hm) with hm | hm
        · have := h0 i b hb a hm
          omega
        · have := hx a hm
          omega
  exact fun _ => hP.2

theorem Outcome.ahead {n v : Nat} {d : Dict} {r : Int × Dict} (h : Outcome hash n v d r)
    (hw : WellFormed hash d) (ha : Ahead hash d) : Ahead hash r.2 := by
  cases h with
  | idle _ => exact ha
  | exhausted _ _ hm _ => exact hm.ahead hw ha
  | spent _ _ _ hm _ => exact hm.ahead hw ha
  | swapped _ _ _ _ _ => exact ahead_of_idle rfl

/-! ## The step `set_field` and `del_field` take first -/

theorem advance_outcome (hash : Bytes → Nat) {d : Dict} (hs : Sane d) :
    (d.isRehashing = false ∧ advance hash d = .ok d) ∨
      (d.isRehashing = true ∧ ∃ r, advance hash d = .ok r.2 ∧ Outcome hash 1 0 d r) := by
  cases hr : d.isRehashing with
  | false => exact Or.inl ⟨rfl, by simp [advance, hr]⟩
  | true =>
    obtain ⟨r, hrun, hout⟩ := rehashStep_outcome hash 1 hs hr
    exact Or.inr ⟨rfl, r, by simp [advance, hr, hrun], hout⟩

theorem Sane.advance {d : Dict} (hs : Sane d) (hash : Bytes → Nat) :
    ∃ d', Dict.advance hash d = .ok d' ∧ Sane d' := by
  rcases advance_outcome hash hs with ⟨_, hrun⟩ | ⟨_, r, hrun, hout⟩
  · exact ⟨d, hrun, hs⟩
  · exact ⟨r.2, hrun, hout.sane hs⟩

theorem WellFormed.advance {d : Dict} (hw : WellFormed hash d) :
    ∃ d', advance hash d = .ok d' ∧ WellFormed hash d' ∧ d'.entries.Perm d.entries ∧
      d'.used = d.used ∧ (Ahead hash d → Ahead hash d') := by
  rcases advance_outcome hash hw.toSane with ⟨_, hrun⟩ | ⟨_, r, hrun, hout⟩
  · exact ⟨d, hrun, hw, List.Perm.refl _, rfl, id⟩
  · exact ⟨r.2, hrun, (hout.wellFormed hw).1, (hout.wellFormed hw).2, hout.used,
      hout.ahead hw⟩

/-- After the step of an unmigrated `set_field` the bucket is still ahead. -/
theorem Unmigrated.advance {d d' : Dict} {key : Bytes} (hu : Unmigrated hash d key)
    (hs : Sane d) (hrun : Dict.advance hash d = .ok d') (hr' : d'.isRehashing = true) :
    d'.rehashidx ≤ (hash key % d'.ht0.length : Nat) := by
  rcases advance_outcome hash hs with ⟨hr, hrun'⟩ | ⟨hr, r, hrun', hout⟩
  · rw [hrun'] at hrun
    cases hrun
    rw [hr] at hr'
    cases hr'
  · rw [hrun'] at hrun
    cases hrun
    have hne := isRehashing_iff.mp hr
    -- one bucket is passed, and it was there to be passed
    have hone : ∀ e m d', Moves hash e m d d' → 0 < d.used → e + m = 1 →
        d'.rehashidx ≤ (hash key % d'.ht0.length : Nat) := by
      intro e m d' hm hused hem
      have hidx := hm.rehashidx
      have hlen := hm.length_ht0
      have hs' := hm.sane hs
      have hd' : d'.isRehashing = true := by
        have := hs.nonneg hr
        rw [isRehashing_iff]
        omega
      have hbound := hs'.bound hd'
      rcases hu with h | ⟨_, h⟩ | h
      · exact absurd h hne
      · omega
      · rw [if_pos hused] at h
        rw [hlen]
        omega
    cases hout with
    | idle hidle =>
      have hnot : ¬ 0 < d.used := by omega
      rcases hu with h | ⟨h, _⟩ | h
      · exact absurd h hne
      · exact absurd h hnot
      · rw [if_neg hnot] at h
        simpa using h
    | exhausted _ hused hm hv => exact hone _ _ _ hm hused (by omega)
    | spent hlt hused hpos hm hv => exact hone _ _ _ hm hused (by omega)
    | swapped _ _ _ _ _ => exact absurd hr' (by simp [swapTables, isRehashing])

/-! ## Starting a rehash -/

theorem resize_nil (n : Nat) : resize [] n = List.replicate n [] := by
  simp [resize]

theorem entries_start {d : Dict} (hs : Sane d) (hr : d.isRehashing = false) (n : Nat) :
    entries { d with ht1 := resize d.ht1 n, rehashidx := 0 } = d.entries := by
  simp [entries, hs.idle hr, resize_nil]

theorem Sane.start {d : Dict} (hs : Sane d) (hr : d.isRehashing = false) {n : Nat} (hn : 0 < n) :
    Sane { d with ht1 := resize d.ht1 n, rehashidx := 0 } where
  main := hs.main
  idle := fun h => absurd h (by simp [isRehashing])
  aux := fun _ => by simpa [hs.idle hr, resize_nil] using hn
  nonneg := fun _ => Int.le_refl 0
  bound := fun _ => by simp
  counted := by rw [entries_start hs hr]; exact hs.counted

/-- Allocating an empty new table changes nothing stored. -/
theorem WellFormed.start {d : Dict} (hw : WellFormed hash d) (hr : d.isRehashing = false)
    {n : Nat} (hn : 0 < n) :
    WellFormed hash { d with ht1 := resize d.ht1 n, rehashidx := 0 } ∧
      entries { d with ht1 := resize d.ht1 n, rehashidx := 0 } = d.entries ∧
      Ahead hash { d with ht1 := resize d.ht1 n, rehashidx := 0 } := by
  have hidle := hw.idle hr
  have he := entries_start hw.toSane hr n
  refine ⟨?_, he, ?_⟩
  · exact { toSane := hw.toSane.start hr hn
            placed0 := hw.placed0
            placed1 := by rw [hidle, resize_nil]; exact placed_replicate hash n
            nodup := by rw [he]; exact hw.nodup
            used_eq := by rw [he]; exact hw.used_eq
            drained := by simp }
  · intro _ e he
    rw [hidle, resize_nil, flatten_replicate_nil] at he
    simp at he

/-- What `expand_if_needed` and `shrink_if_needed` may do to a Dict. -/
inductive Resized (d : Dict) : Dict → Prop
  | same : Resized d d
  | started {n : Nat} : d.isRehashing = false → 0 < n →
      Resized d { d with ht1 := resize d.ht1 n, rehashidx := 0 }

theorem expandIfNeeded_resized {d : Dict} (hm : 0 < d.ht0.length) :
    Resized d (expandIfNeeded d) := by
  unfold expandIfNeeded
  cases hr : d.isRehashing with
  | true => exact .same
  | false =>
    simp only [Bool.false_eq_true, ↓reduceIte]
    split
    · exact .same
    · split
      · exact .started hr (by omega)
      · exact .same

theorem shrinkIfNeeded_resized (d : Dict) : Resized d (shrinkIfNeeded d) := by
  unfold shrinkIfNeeded
  cases hr : d.isRehashing with
  | true => exact .same
  | false =>
    simp only [Bool.false_eq_true, ↓reduceIte]
    split
    · exact .same
    · split
      · exact .started hr (Nat.lt_of_lt_of_le (by decide) (Nat.le_max_left ..))
      · exact .same

theorem Resized.sane {d d' : Dict} (h : Resized d d') (hs : Sane d) : Sane d' := by
  cases h with
  | same => exact hs
  | started hr hn => exact hs.start hr hn

theorem Resized.ht0 {d d' : Dict} (h : Resized d d') : d'.ht0 = d.ht0 := by
  cases h <;> rfl

theorem Resized.used {d d' : Dict} (h : Resized d d') : d'.used = d.used := by
  cases h <;> rfl

theorem Resized.entries {d d' : Dict} (h : Resized d d') (hs : Sane d) :
    d'.entries = d.entries := by
  cases h with
  | same => rfl
  | started hr _ => exact entries_start hs hr _

theorem Resized.wellFormed {d d' : Dict} (h : Resized d d') (hw : WellFormed hash d) :
    WellFormed hash d' ∧ d'.entries = d.entries ∧ d'.used = d.used ∧
      (Ahead hash d → Ahead hash d') := by
  cases h with
  | same => exact ⟨hw, rfl, rfl, id⟩
  | started hr hn =>
    obtain ⟨h1, h2, h3⟩ := hw.start hr hn
    exact ⟨h1, h2, rfl, fun _ => h3⟩

/-! ## Writing one bucket of the main table -/

/-- A bucket of the main table takes a chain that is no longer than the counter
allows for. -/
theorem Sane.write {d : Dict} (hs : Sane d) {i : Nat} {head c : Chain} {u : Int}
    (hh : d.ht0[i]? = some head) (hu : d.used + c.length ≤ u + head.length) :
    Sane { d with ht0 := d.ht0.set i c, used := u } := by
  obtain ⟨hlt, _⟩ := List.getElem?_eq_some_iff.mp hh
  have hold := ((flatten_perm hh).append_right d.ht1.flatten).length_eq
  have hnew := ((flatten_set_perm hlt c).append_right d.ht1.flatten).length_eq
  have hcounted := hs.counted
  refine hs.frame (by simp) rfl rfl ?_
  simp only [entries, List.length_append] at hold hnew hcounted ⊢
  omega

/-- A bucket that holds something lies behind the drained ones. -/
theorem WellFormed.idx_ge {d : Dict} (hw : WellFormed hash d) {i : Nat} {c : Chain}
    (hc : d.ht0[i]? = some c) (hne : c ≠ []) : d.rehashidx.toNat ≤ i := by
  by_contra hlt
  have hmem : c ∈ d.ht0.take d.rehashidx.toNat := by
    apply List.mem_of_getElem? (i := i)
    rw [List.getElem?_take, if_pos (by omega), hc]
  exact hne (hw.drained c hmem)

/-- Replacing a bucket at or behind the migration position keeps a Dict
well-formed when the new chain only holds keys of that bucket. -/
theorem WellFormed.write {d : Dict} (hw : WellFormed hash d) {i : Nat} {c : Chain} {u : Int}
    (hidx : d.rehashidx.toNat ≤ i)
    (hc : ∀ e ∈ c, hash e.1 % d.ht0.length = i)
    (hn : (keys (entries { d with ht0 := d.ht0.set i c, used := u })).Nodup)
    (hu : u = (entries { d with ht0 := d.ht0.set i c, used := u }).length) :
    WellFormed hash { d with ht0 := d.ht0.set i c, used := u } where
  toSane := hw.toSane.frame (by simp) rfl rfl hu.ge
  placed0 := placed_set hw.placed0 hc
  placed1 := hw.placed1
  nodup := hn
  used_eq := hu
  drained := by
    simp only [List.take_set_of_le hidx]
    exact hw.drained

theorem Ahead.write {d : Dict} (ha : Ahead hash d) {i : Nat} {c : Chain} {u : Int} :
    Ahead hash { d with ht0 := d.ht0.set i c, used := u } := by
  intro hr e he
  simp only [List.length_set]
  exact ha hr e he

/-! ## `set_field` -/

theorem WellFormed.key_fresh {d : Dict} (hw : WellFormed hash d) (ha : Ahead hash d)
    {key : Bytes} (hb : d.isRehashing = true → d.rehashidx ≤ (hash key % d.ht0.length : Nat))
    (h0 : key ∉ keys d.ht0.flatten) : key ∉ keys d.entries := by
  intro hk
  rw [entries, keys, List.map_append, List.mem_append] at hk
  rcases hk with hk | hk
  · exact h0 hk
  · cases hr : d.isRehashing with
    | false =>
      rw [hw.idle hr] at hk
      simp at hk
    | true =>
      obtain ⟨e, he, rfl⟩ := List.mem_map.mp hk
      have := ha hr e he
      have := hb hr
      omega

/-- Everything `set_field` can do: overwrite in the searched chain, or link a new
entry at its head and perhaps start an expansion. -/
theorem setField_cases {d d₁ : Dict} (key value : Bytes) (hrun : Dict.advance hash d = .ok d₁)
    (hs : Sane d₁) :
    ∃ head, d₁.ht0[hash key % d₁.ht0.length]? = some head ∧
      ((∃ head', assign key value head = some head' ∧ Dict.setField hash key value d =
          .ok { d₁ with ht0 := d₁.ht0.set (hash key % d₁.ht0.length) head' }) ∨
        (assign key value head = none ∧ Dict.setField hash key value d =
          .ok (expandIfNeeded { d₁ with
            ht0 := d₁.ht0.set (hash key % d₁.ht0.length) ((key, value) :: head)
            used := d₁.used + 1 }))) := by
  obtain ⟨head, hh⟩ := bucket_exists hash key hs.main
  refine ⟨head, hh, ?_⟩
  simp only [Dict.setField, hrun, hashKey, modSize_ok hs.main, at?_ok hh, Exec.ok_bind,
    Exec.pure_eq]
  cases assign key value head with
  | some head' => exact Or.inl ⟨head', rfl, rfl⟩
  | none => exact Or.inr ⟨rfl, rfl⟩

/-- `set_field` never faults on a sane Dict and leaves it sane. -/
theorem Sane.setField {d : Dict} (hs : Sane d) (hash : Bytes → Nat) (key value : Bytes) :
    ∃ d', Dict.setField hash key value d = .ok d' ∧ Sane d' := by
  obtain ⟨d₁, hrun, hs₁⟩ := hs.advance hash
  obtain ⟨head, hh, hcases⟩ := setField_cases key value hrun hs₁
  rcases hcases with ⟨head', hassign, hset⟩ | ⟨_, hset⟩
  · have hlen := congrArg List.length (assign_keys hassign)
    simp only [keys, List.length_map] at hlen
    exact ⟨_, hset, hs₁.write hh (by omega)⟩
  · have hlen : ((key, value) :: head).length = head.length + 1 := List.length_cons
    have hs₂ := hs₁.write hh (c := (key, value) :: head) (u := d₁.used + 1) (by omega)
    exact ⟨_, hset, (expandIfNeeded_resized hs₂.main).sane hs₂⟩

/-- `get_field` skips empty tables, so it returns on any Dict. -/
theorem getField_returns (hash : Bytes → Nat) (key : Bytes) (d : Dict) :
    ∃ v, Dict.getField hash key d = .ok v := by
  have hlookup : ∀ t : Table, ∃ v, lookupIn hash key t = .ok v := by
    intro t
    unfold lookupIn
    split
    · exact ⟨none, rfl⟩
    · next h =>
      have hpos := List.length_pos_of_ne_nil h
      obtain ⟨head, hh⟩ := bucket_exists hash key hpos
      exact ⟨head.lookup key, by simp [modSize_ok hpos, at?_ok hh]⟩
  obtain ⟨v₀, hv₀⟩ := hlookup d.ht0
  obtain ⟨v₁, hv₁⟩ := hlookup d.ht1
  rw [Dict.getField, hv₀, Exec.ok_bind]
  cases v₀ with
  | some value => exact ⟨_, rfl⟩
  | none =>
    simp only [hv₁]
    split
    · exact ⟨_, rfl⟩
    · exact ⟨_, rfl⟩

/-- Overwriting the value of a key in the searched bucket. -/
theorem WellFormed.overwrite {d : Dict} (hw : WellFormed hash d) {key value : Bytes}
    {head head' : Chain} (hh : d.ht0[hash key % d.ht0.length]? = some head)
    (hassign : assign key value head = some head') :
    WellFormed hash { d with ht0 := d.ht0.set (hash key % d.ht0.length) head' } ∧
      (fun k => (entries { d with ht0 := d.ht0.set (hash key % d.ht0.length) head' }).lookup k) =
        Function.update (fun k => d.entries.lookup k) key (some value) := by
  obtain ⟨hlt, _⟩ := List.getElem?_eq_some_iff.mp hh
  obtain ⟨v₀, rest, hold, hnew⟩ := assign_perm hassign
  let others' := rest ++ others d.ht0 (hash key % d.ht0.length) ++ d.ht1.flatten
  have hbefore : d.entries.Perm ((key, v₀) :: others') := by
    refine ((flatten_perm hh).append_right d.ht1.flatten).trans ?_
    simpa [others'] using (hold.append_right _).append_right d.ht1.flatten
  have hafter : (entries { d with ht0 := d.ht0.set (hash key % d.ht0.length) head' }).Perm
      ((key, value) :: others') := by
    refine ((flatten_set_perm hlt head').append_right d.ht1.flatten).trans ?_
    simpa [others'] using (hnew.append_right _).append_right d.ht1.flatten
  have hkeys := assign_keys hassign
  have hne : head ≠ [] := fun h => by simp [h, assign] at hassign
  refine ⟨?_, lookup_overwrite hw.nodup hbefore hafter⟩
  apply hw.write (hw.idx_ge hh hne)
  · exact chain_keys hw.placed0 hh fun k hk => hkeys ▸ hk
  · exact (keys_perm hafter).nodup_iff.mpr ((keys_perm hbefore).nodup_iff.mp hw.nodup)
  · rw [hafter.length_eq, hw.used_eq, hbefore.length_eq]
    rfl

/-- Linking a key the searched bucket does not hold, behind no migration. -/
theorem WellFormed.link {d : Dict} (hw : WellFormed hash d) (ha : Ahead hash d)
    {key : Bytes} (value : Bytes) {head : Chain}
    (hb : d.isRehashing = true → d.rehashidx ≤ (hash key % d.ht0.length : Nat))
    (hh : d.ht0[hash key % d.ht0.length]? = some head) (hassign : assign key value head = none) :
    WellFormed hash { d with
      ht0 := d.ht0.set (hash key % d.ht0.length) ((key, value) :: head), used := d.used + 1 } ∧
      (fun k => (entries { d with
        ht0 := d.ht0.set (hash key % d.ht0.length) ((key, value) :: head)
        used := d.used + 1 }).lookup k) =
          Function.update (fun k => d.entries.lookup k) key (some value) := by
  obtain ⟨hlt, _⟩ := List.getElem?_eq_some_iff.mp hh
  have hfresh : key ∉ keys d.entries := by
    apply hw.key_fresh ha hb
    rw [mem_bucket hw.placed0 hh]
    exact assign_eq_none.mp hassign
  have hafter : (entries { d with
      ht0 := d.ht0.set (hash key % d.ht0.length) ((key, value) :: head)
      used := d.used + 1 }).Perm ((key, value) :: d.entries) := by
    refine ((flatten_set_perm hlt _).append_right d.ht1.flatten).trans ?_
    exact ((flatten_perm hh).append_right d.ht1.flatten).symm.cons (key, value)
  refine ⟨?_, lookup_insert hw.nodup hfresh hafter⟩
  apply hw.write
  · cases hr : d.isRehashing with
    | false =>
      rw [isRehashing_eq_false.mp hr]
      exact Nat.zero_le _
    | true =>
      have := hb hr
      omega
  · exact chain_link hw.placed0 value hh
  · exact (keys_perm hafter).nodup_iff.mpr (List.nodup_cons.mpr ⟨hfresh, hw.nodup⟩)
  · rw [hafter.length_eq, hw.used_eq]
    rfl

/-- An unmigrated `set_field` binds the key and nothing else. -/
theorem WellFormed.setField {d : Dict} (hw : WellFormed hash d) (ha : Ahead hash d)
    {key : Bytes} (value : Bytes) (hu : Unmigrated hash d key) :
    ∃ d', Dict.setField hash key value d = .ok d' ∧ WellFormed hash d' ∧ Ahead hash d' ∧
      (fun k => d'.entries.lookup k) =
        Function.update (fun k => d.entries.lookup k) key (some value) := by
  obtain ⟨d₁, hrun, hw₁, hp₁, _, ha₁⟩ := hw.advance
  replace ha₁ := ha₁ ha
  have hlook : (fun k => d₁.entries.lookup k) = fun k => d.entries.lookup k :=
    funext fun k => lookup_perm hw₁.nodup hp₁ k
  obtain ⟨head, hh, hcases⟩ := setField_cases key value hrun hw₁.toSane
  rw [← hlook]
  rcases hcases with ⟨head', hassign, hset⟩ | ⟨hassign, hset⟩
  · -- the key is in the searched bucket and keeps its place
    obtain ⟨hw₂, hbind⟩ := hw₁.overwrite hh hassign
    exact ⟨_, hset, hw₂, ha₁.write, hbind⟩
  · have hb := fun hr => hu.advance hw.toSane hrun hr
    obtain ⟨hw₂, hbind⟩ := hw₁.link ha₁ value hb hh hassign
    obtain ⟨hw₃, hentries, _, ha₃⟩ := (expandIfNeeded_resized hw₂.main).wellFormed hw₂
    refine ⟨_, hset, hw₃, ha₃ ha₁.write, ?_⟩
    rw [hentries]
    exact hbind

/-! ## `del_field` -/

theorem unlinkIn_cases {t : Table} (ht : Placed hash t) (key : Bytes) :
    (key ∉ keys t.flatten ∧ unlinkIn hash key t = .ok none) ∨
      ∃ i c c', t[i]? = some c ∧ unlink key c = some c' ∧
        unlinkIn hash key t = .ok (some (t.set i c')) := by
  unfold unlinkIn
  split
  · next h => subst h; exact Or.inl ⟨by simp, rfl⟩
  · next h =>
    have hpos := List.length_pos_of_ne_nil h
    obtain ⟨head, hh⟩ := bucket_exists hash key hpos
    simp only [modSize_ok hpos, at?_ok hh, Exec.ok_bind, Exec.pure_eq]
    cases hunlink : unlink key head with
    | none => exact Or.inl ⟨by rw [mem_bucket ht hh]; exact unlink_eq_none.mp hunlink, rfl⟩
    | some c' => exact Or.inr ⟨_, head, c', hh, hunlink, rfl⟩

/-- Unlinking from one bucket takes exactly that entry out of the table. -/
theorem unlink_flatten {t : Table} {i : Nat} {c c' : Chain} {key : Bytes} (hc : t[i]? = some c)
    (hunlink : unlink key c = some c') :
    ∃ v₀, t.flatten.Perm ((key, v₀) :: (t.set i c').flatten) := by
  obtain ⟨v₀, hp⟩ := unlink_perm hunlink
  obtain ⟨hlt, _⟩ := List.getElem?_eq_some_iff.mp hc
  refine ⟨v₀, ((flatten_perm hc).trans (hp.append_right _)).trans ?_⟩
  exact (flatten_set_perm hlt c').symm.cons (key, v₀)

theorem unlink_placed {t : Table} (ht : Placed hash t) {i : Nat} {c c' : Chain} {key : Bytes}
    (hc : t[i]? = some c) (hunlink : unlink key c = some c') : Placed hash (t.set i c') := by
  obtain ⟨v₀, hp⟩ := unlink_perm hunlink
  apply placed_keys ht hc
  intro k hk
  exact (keys_perm hp).mem_iff.mpr (List.mem_cons_of_mem _ hk)

/-- `d'` is `d` without the entry of `key`. -/
structure Removes (hash : Bytes → Nat) (key : Bytes) (d d' : Dict) : Prop where
  perm : ∃ v₀, d.entries.Perm ((key, v₀) :: d'.entries)
  wellFormed : WellFormed hash d'
  used : d'.used = d.used - 1
  ahead : Ahead hash d → Ahead hash d'

theorem WellFormed.removes_main {d : Dict} (hw : WellFormed hash d) {i : Nat} {c c' : Chain}
    {key : Bytes} (hc : d.ht0[i]? = some c) (hunlink : unlink key c = some c') :
    Removes hash key d { d with ht0 := d.ht0.set i c', used := d.used - 1 } := by
  obtain ⟨v₀, hp⟩ := unlink_flatten hc hunlink
  obtain ⟨_, hpc⟩ := unlink_perm hunlink
  have hp₂ : d.entries.Perm
      ((key, v₀) :: entries { d with ht0 := d.ht0.set i c', used := d.used - 1 }) :=
    hp.append_right d.ht1.flatten
  have hne : c ≠ [] := fun h => by simp [h, unlink] at hunlink
  refine ⟨⟨v₀, hp₂⟩, ?_, rfl, fun ha => ha.write⟩
  apply hw.write (hw.idx_ge hc hne)
  · intro e he
    exact hw.placed0 i c hc e (hpc.mem_iff.mpr (List.mem_cons_of_mem _ he))
  · exact (List.nodup_cons.mp ((keys_perm hp₂).nodup_iff.mp hw.nodup)).2
  · have hlen := hp₂.length_eq
    have hused := hw.used_eq
    rw [List.length_cons] at hlen
    omega

theorem WellFormed.removes_new {d : Dict} (hw : WellFormed hash d) (hr : d.isRehashing = true)
    {i : Nat} {c c' : Chain} {key : Bytes} (hc : d.ht1[i]? = some c)
    (hunlink : unlink key c = some c') :
    Removes hash key d { d with ht1 := d.ht1.set i c', used := d.used - 1 } := by
  obtain ⟨v₀, hp⟩ := unlink_flatten hc hunlink
  have hp₂ : d.entries.Perm
      ((key, v₀) :: entries { d with ht1 := d.ht1.set i c', used := d.used - 1 }) :=
    (hp.append_left _).trans List.perm_middle
  have hcount : d.used - 1 =
      (entries { d with ht1 := d.ht1.set i c', used := d.used - 1 }).length := by
    have hlen := hp₂.length_eq
    have hused := hw.used_eq
    rw [List.length_cons] at hlen
    omega
  refine ⟨⟨v₀, hp₂⟩, ?_, rfl, fun ha hr₂ e he => ?_⟩
  · exact
      { toSane := hw.toSane.frame rfl (by simp) rfl hcount.ge
        placed0 := hw.placed0
        placed1 := unlink_placed hw.placed1 hc hunlink
        nodup := (List.nodup_cons.mp ((keys_perm hp₂).nodup_iff.mp hw.nodup)).2
        used_eq := hcount
        drained := hw.drained }
  · exact ha hr e (hp.mem_iff.mpr (List.mem_cons_of_mem _ he))

/-- `d'` is `d` with the key unlinked from one chain of one of its tables. -/
inductive Unlinked (key : Bytes) (d : Dict) : Dict → Prop
  | main {i : Nat} {c c' : Chain} : d.ht0[i]? = some c → unlink key c = some c' →
      Unlinked key d { d with ht0 := d.ht0.set i c', used := d.used - 1 }
  | new {i : Nat} {c c' : Chain} : d.isRehashing = true → d.ht1[i]? = some c →
      unlink key c = some c' → Unlinked key d { d with ht1 := d.ht1.set i c', used := d.used - 1 }

/-- Everything `del_field` can do: find the key nowhere, or unlink it from one
table and perhaps start to shrink. -/
theorem delField_cases {d d₁ : Dict} (key : Bytes) (hrun : Dict.advance hash d = .ok d₁)
    (hs : Sane d₁) (h0 : Placed hash d₁.ht0) (h1 : Placed hash d₁.ht1) :
    (key ∉ keys d₁.entries ∧ Dict.delField hash key d = .ok (false, d₁)) ∨
      ∃ d₂, Unlinked key d₁ d₂ ∧
        Dict.delField hash key d = .ok (true, shrinkIfNeeded d₂) := by
  have hne : d₁.ht0 ≠ [] := List.ne_nil_of_length_pos hs.main
  simp only [Dict.delField, hrun, Exec.ok_bind]
  rcases unlinkIn_cases h0 key with ⟨hnot0, hunlink0⟩ | ⟨i, c, c', hc, hunlink, hunlink0⟩
  · rw [hunlink0, Exec.ok_bind]
    cases hr : d₁.isRehashing with
    | false =>
      simp only [hne, Bool.false_eq_true, or_self, ↓reduceIte]
      exact Or.inl ⟨by simpa [entries, hs.idle hr] using hnot0, rfl⟩
    | true =>
      simp only [hne, or_true, ↓reduceIte]
      rcases unlinkIn_cases h1 key with ⟨hnot1, hunlink1⟩ | ⟨i, c, c', hc, hunlink, hunlink1⟩
      · rw [hunlink1]
        refine Or.inl ⟨?_, rfl⟩
        rw [entries, keys, List.map_append, List.mem_append]
        exact fun h => h.elim hnot0 hnot1
      · rw [hunlink1]
        exact Or.inr ⟨_, .new hr hc hunlink, rfl⟩
  · rw [hunlink0]
    exact Or.inr ⟨_, .main hc hunlink, rfl⟩

theorem Unlinked.removes {d d' : Dict} {key : Bytes} (h : Unlinked key d d')
    (hw : WellFormed hash d) : Removes hash key d d' := by
  cases h with
  | main hc hunlink => exact hw.removes_main hc hunlink
  | new hr hc hunlink => exact hw.removes_new hr hc hunlink

/-- `del_field` removes the key, reports whether it was there, and touches
nothing else. -/
theorem WellFormed.delField {d : Dict} (hw : WellFormed hash d) (key : Bytes) :
    ∃ b d', Dict.delField hash key d = .ok (b, d') ∧ WellFormed hash d' ∧
      (Ahead hash d → Ahead hash d') ∧ b = (d.entries.lookup key).isSome ∧
      (fun k => d'.entries.lookup k) = Function.update (fun k => d.entries.lookup k) key none ∧
      d'.used = d.used - (if b then 1 else 0) := by
  obtain ⟨d₁, hrun, hw₁, hp₁, hused, ha₁⟩ := hw.advance
  have hlook : (fun k => d₁.entries.lookup k) = fun k => d.entries.lookup k :=
    funext fun k => lookup_perm hw₁.nodup hp₁ k
  have hlookKey : d₁.entries.lookup key = d.entries.lookup key := congrFun hlook key
  rw [← hlook, ← hlookKey]
  rcases delField_cases key hrun hw₁.toSane hw₁.placed0 hw₁.placed1 with
    ⟨hnot, hdel⟩ | ⟨d₂, hunlinked, hdel⟩
  · have hnone := lookup_eq_none.mpr hnot
    refine ⟨false, d₁, hdel, hw₁, ha₁, ?_, ?_, by simpa using hused⟩
    · rw [hnone]
      rfl
    · rw [Function.update_eq_self_iff.mpr hnone.symm]
  · have hrem := hunlinked.removes hw₁
    obtain ⟨v₀, hp⟩ := hrem.perm
    obtain ⟨hw₃, hentries, hused₃, ha₃⟩ := (shrinkIfNeeded_resized d₂).wellFormed hrem.wellFormed
    refine ⟨true, _, hdel, hw₃, fun ha => ha₃ (hrem.ahead (ha₁ ha)), ?_, ?_, ?_⟩
    · rw [lookup_perm hw₁.nodup hp]
      simp
    · rw [hentries]
      exact lookup_remove hw₁.nodup hp
    · rw [hused₃, hrem.used, hused]
      rfl

/-- **Deletion at any rehash position.**  `get_field` finds exactly what is
stored; `del_field` answers whether the key was, and leaves a well-formed Dict
without it and with everything else. -/
theorem delField_at_any_position (hash : Bytes → Nat) (d : Dict) (key : Bytes)
    (hw : WellFormed hash d) :
    (∃ found, Dict.getField hash key d = .ok found ∧
      ∀ value, found = some value ↔ (key, value) ∈ d.entries) ∧
    ∃ removed d', Dict.delField hash key d = .ok (removed, d') ∧
      (removed = true ↔ ∃ value, (key, value) ∈ d.entries) ∧ WellFormed hash d' ∧
      Dict.getField hash key d' = .ok none ∧
      (∀ k, k ≠ key → Dict.getField hash k d' = Dict.getField hash k d) ∧
      d'.used = d.used - (if removed then 1 else 0) := by
  refine ⟨⟨_, hw.getField key, fun value => lookup_eq_some hw.nodup⟩, ?_⟩
  obtain ⟨removed, d', hdel, hw', _, hremoved, hlook, hused⟩ := hw.delField key
  refine ⟨removed, d', hdel, ?_, hw', ?_, fun k hk => ?_, hused⟩
  · rw [hremoved, Option.isSome_iff_exists]
    exact exists_congr fun value => lookup_eq_some hw.nodup
  · have hnone : d'.entries.lookup key = none := by
      rw [congrFun hlook key, Function.update_self]
    rw [hw'.getField, hnone]
  · have hsame : d'.entries.lookup k = d.entries.lookup k := by
      rw [congrFun hlook k, Function.update_of_ne hk]
    rw [hw'.getField, hw.getField, hsame]

/-- A key whose chain the embedded step moves, next to one already moved. -/
theorem delField_at_any_position_halfway :
    WellFormed List.length halfway ∧ ∃ d', Dict.delField List.length [1] halfway = .ok (true, d') ∧
      d'.used = 1 := by
  refine ⟨by decide, ?_⟩
  obtain ⟨_, removed, d', hdel, hremoved, _, _, _, hused⟩ :=
    delField_at_any_position List.length halfway [1] (by decide)
  have htrue : removed = true := hremoved.mpr ⟨[7], by decide⟩
  subst htrue
  exact ⟨d', hdel, hused⟩

end MiniRedis.Dict
