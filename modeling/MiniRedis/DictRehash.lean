import MiniRedis.Dict

/-!
What `rehash_step` does.  A call is a sequence of single-bucket moves: an empty
bucket is skipped, or a non-empty one is relinked into the new table; at the end
the tables may be swapped.  `rehashStep_outcome` says this once, with the budget
of moves, and each invariant is then checked against a single move and the swap.
-/

namespace MiniRedis.Dict

open AssocList BucketTable
open scoped List

variable {hash : Bytes → Nat}

/-- Everything stored, main table first. -/
def entries (d : Dict) : List HashEntry := d.ht0.flatten ++ d.ht1.flatten

/-- What keeps every index of every call inside its table, for any hash. -/
structure Sane (d : Dict) : Prop where
  main : 0 < d.ht0.length
  idle : d.isRehashing = false → d.ht1 = []
  aux : d.isRehashing = true → 0 < d.ht1.length
  nonneg : d.isRehashing = true → 0 ≤ d.rehashidx
  bound : d.isRehashing = true → d.rehashidx ≤ d.ht0.length
  counted : d.entries.length ≤ d.used

/-- The state after `ht_[0] = std::move(ht_[1])`. -/
def swapTables (d : Dict) : Dict := { d with ht0 := d.ht1, ht1 := [], rehashidx := -1 }

theorem isRehashing_iff {d : Dict} : d.isRehashing = true ↔ d.rehashidx ≠ -1 := by
  simp [isRehashing]

theorem isRehashing_eq_false {d : Dict} : d.isRehashing = false ↔ d.rehashidx = -1 := by
  simp [isRehashing]

/-- Sanity looks at a Dict through its sizes, its position and its counter. -/
theorem Sane.frame {d d' : Dict} (hs : Sane d) (h0 : d'.ht0.length = d.ht0.length)
    (h1 : d'.ht1.length = d.ht1.length) (hi : d'.rehashidx = d.rehashidx)
    (hc : d'.entries.length ≤ d'.used) : Sane d' := by
  have hr : d'.isRehashing = d.isRehashing := by simp only [isRehashing, hi]
  exact { main := by rw [h0]; exact hs.main
          idle := fun h => List.eq_nil_of_length_eq_zero (by
            rw [h1, hs.idle (hr ▸ h), List.length_nil])
          aux := fun h => by rw [h1]; exact hs.aux (hr ▸ h)
          nonneg := fun h => by rw [hi]; exact hs.nonneg (hr ▸ h)
          bound := fun h => by rw [h0, hi]; exact hs.bound (hr ▸ h)
          counted := hc }

theorem Sane.index {d : Dict} (hs : Sane d) (hr : d.isRehashing = true) :
    ∃ i : Nat, d.rehashidx = i ∧ i ≤ d.ht0.length := by
  obtain ⟨i, hi⟩ := Int.eq_ofNat_of_zero_le (hs.nonneg hr)
  have := hs.bound hr
  exact ⟨i, hi, by omega⟩

/-! ## Moves -/

/-- `Moves hash e m d d'`: `d'` is `d` after passing `e` empty buckets and
migrating `m` non-empty ones. -/
inductive Moves (hash : Bytes → Nat) : Nat → Nat → Dict → Dict → Prop
  | refl (d : Dict) : Moves hash 0 0 d d
  | skip {e m : Nat} {d d' : Dict} (i : Nat) :
      d.rehashidx = i → d.ht0[i]? = some [] →
      Moves hash e m { d with rehashidx := i + 1 } d' → Moves hash (e + 1) m d d'
  | migrate {e m : Nat} {d d' : Dict} (i : Nat) (c : Chain) :
      d.rehashidx = i → d.ht0[i]? = some c → c ≠ [] → 0 < d.ht1.length →
      Moves hash e m
        { d with ht0 := d.ht0.set i [], ht1 := spill hash c d.ht1, rehashidx := i + 1 } d' →
      Moves hash e (m + 1) d d'

theorem Moves.trans {e m e' m' : Nat} {d d' d'' : Dict} (h : Moves hash e m d d')
    (h' : Moves hash e' m' d' d'') : Moves hash (e + e') (m + m') d d'' := by
  induction h with
  | refl d => simpa using h'
  | skip i hi hb _ ih =>
    have := Moves.skip i hi hb (ih h')
    rwa [Nat.add_right_comm] at this
  | migrate i c hi hb hc ha _ ih =>
    have := Moves.migrate i c hi hb hc ha (ih h')
    rwa [Nat.add_right_comm] at this

/-- A property kept by one skip and by one migration is kept by any moves. -/
theorem Moves.preserves {P : Dict → Prop}
    (hskip : ∀ (d : Dict) (i : Nat), d.rehashidx = i → d.ht0[i]? = some [] → P d →
      P { d with rehashidx := i + 1 })
    (hmigrate : ∀ (d : Dict) (i : Nat) (c : Chain), d.rehashidx = i → d.ht0[i]? = some c →
      0 < d.ht1.length → P d →
      P { d with ht0 := d.ht0.set i [], ht1 := spill hash c d.ht1, rehashidx := i + 1 })
    {e m : Nat} {d d' : Dict} (h : Moves hash e m d d') (hp : P d) : P d' := by
  induction h with
  | refl d => exact hp
  | skip i hi hb _ ih => exact ih (hskip _ i hi hb hp)
  | migrate i c hi hb _ ha _ ih => exact ih (hmigrate _ i c hi hb ha hp)

theorem Moves.used {e m : Nat} {d d' : Dict} (h : Moves hash e m d d') : d'.used = d.used :=
  h.preserves (P := fun x => x.used = d.used) (fun _ _ _ _ hp => hp)
    (fun _ _ _ _ _ _ hp => hp) rfl

theorem Moves.length_ht0 {e m : Nat} {d d' : Dict} (h : Moves hash e m d d') :
    d'.ht0.length = d.ht0.length :=
  h.preserves (P := fun x => x.ht0.length = d.ht0.length) (fun _ _ _ _ hp => hp)
    (fun _ _ _ _ _ _ hp => by simpa using hp) rfl

theorem Moves.rehashidx {e m : Nat} {d d' : Dict} (h : Moves hash e m d d') :
    d'.rehashidx = d.rehashidx + e + m := by
  induction h with
  | refl d => simp
  | skip i hi _ _ ih =>
    rw [ih, hi]
    push_cast
    omega
  | migrate i c hi _ _ _ _ ih =>
    rw [ih, hi]
    push_cast
    omega

theorem entries_migrate {d : Dict} {i : Nat} {c : Chain} (hb : d.ht0[i]? = some c)
    (ha : 0 < d.ht1.length) :
    ((d.ht0.set i []).flatten ++ (spill hash c d.ht1).flatten).Perm d.entries := by
  obtain ⟨hi, _⟩ := List.getElem?_eq_some_iff.mp hb
  have hrest : (d.ht0.set i []).flatten.Perm (others d.ht0 i) := by
    simpa using flatten_set_perm (t := d.ht0) hi []
  have hmain : d.ht0.flatten.Perm (others d.ht0 i ++ c) :=
    (flatten_perm hb).trans List.perm_append_comm
  calc (d.ht0.set i []).flatten ++ (spill hash c d.ht1).flatten
    _ ~ others d.ht0 i ++ (c ++ d.ht1.flatten) := hrest.append (spill_perm hash c ha)
    _ = (others d.ht0 i ++ c) ++ d.ht1.flatten := (List.append_assoc ..).symm
    _ ~ d.entries := hmain.symm.append_right _

theorem Moves.entries {e m : Nat} {d d' : Dict} (h : Moves hash e m d d') :
    d'.entries.Perm d.entries :=
  h.preserves (P := fun x => x.entries.Perm d.entries) (fun _ _ _ _ hp => hp)
    (fun _ _ _ _ hb ha hp => (entries_migrate hb ha).trans hp) (List.Perm.refl _)

theorem Moves.sane {e m : Nat} {d d' : Dict} (h : Moves hash e m d d') (hs : Sane d) :
    Sane d' := by
  apply h.preserves (P := Sane) _ _ hs
  · intro x i hi hb hx
    obtain ⟨hlt, _⟩ := List.getElem?_eq_some_iff.mp hb
    have hr : x.isRehashing = true := by rw [isRehashing_iff]; omega
    exact { main := hx.main
            idle := fun h => absurd (isRehashing_eq_false.mp h) (by simp only; omega)
            aux := fun _ => hx.aux hr
            nonneg := fun _ => by simp only; omega
            bound := fun _ => by simp only; omega
            counted := hx.counted }
  · intro x i c hi hb ha hx
    obtain ⟨hlt, _⟩ := List.getElem?_eq_some_iff.mp hb
    exact { main := by simpa using hx.main
            idle := fun h => absurd (isRehashing_eq_false.mp h) (by simp only; omega)
            aux := fun _ => by simpa using ha
            nonneg := fun _ => by simp only; omega
            bound := fun _ => by simp only [List.length_set]; omega
            counted := by
              rw [Dict.entries, (entries_migrate hb ha).length_eq]
              exact hx.counted }

/-- The passed stretch of the old table holds `e` empty buckets and `m` others. -/
theorem Moves.passed {e m : Nat} {d d' : Dict} (h : Moves hash e m d d') (i : Nat)
    (hi : d.rehashidx = i) :
    (((d.ht0.drop i).take (e + m)).filter (· = [])).length = e ∧
      (((d.ht0.drop i).take (e + m)).filter (· ≠ [])).length = m := by
  induction h generalizing i with
  | refl d => simp
  | @skip e m d d' j hj hb _ ih =>
    have hij : j = i := by omega
    subst hij
    obtain ⟨hlt, hc⟩ := List.getElem?_eq_some_iff.mp hb
    obtain ⟨h1, h2⟩ := ih (j + 1) rfl
    rw [List.drop_eq_getElem_cons hlt, hc, Nat.add_right_comm, List.take_succ_cons]
    simp only [List.filter_cons, decide_true, ↓reduceIte, List.length_cons, h1, ne_eq,
      not_true_eq_false, decide_false, Bool.false_eq_true, h2, and_self]
  | @migrate e m d d' j c hj hb hc ha _ ih =>
    have hij : j = i := by omega
    subst hij
    obtain ⟨hlt, hcj⟩ := List.getElem?_eq_some_iff.mp hb
    obtain ⟨h1, h2⟩ := ih (j + 1) rfl
    simp only [List.drop_set_of_lt (Nat.lt_succ_self j)] at h1 h2
    rw [List.drop_eq_getElem_cons hlt, hcj, ← Nat.add_assoc, List.take_succ_cons]
    simp only [List.filter_cons, hc, decide_false, Bool.false_eq_true, ↓reduceIte, h1, ne_eq,
      not_false_eq_true, decide_true, List.length_cons, h2, and_self]

/-! ## One call -/

theorem bucketsFrom_ok {t : Table} {i : Nat} : bucketsFrom t (i : Int) = .ok (t.drop i) := by
  unfold bucketsFrom
  split
  · have hle : t.length ≤ i := by omega
    simp [List.drop_of_length_le hle]
  · simp

theorem migrate_ok {c : Chain} {ht1 : Table} (ha : 0 < ht1.length) :
    Dict.migrate hash c ht1 = .ok (spill hash c ht1) := by
  induction c generalizing ht1 with
  | nil => rfl
  | cons entry c ih =>
    obtain ⟨head, hh⟩ := bucket_exists hash entry.1 ha
    simp only [Dict.migrate, modSize_ok ha, at?_ok hh, Exec.ok_bind]
    rw [ih (by simpa using ha), ← push_eq_set hh]
    rfl

/-- The inner loop passes empty buckets only; its budget bounds the visits. -/
theorem skipEmpty_moves (hash : Bytes → Nat) (limit : Nat) (rest : Table) (d : Dict) (i v : Nat)
    (hi : d.rehashidx = i) (hrest : d.ht0.drop i = rest) (hle : i ≤ d.ht0.length) :
    (∃ e, skipEmpty limit rest i v = .spent (i + e : Nat) ∧ 0 < e ∧
      v + e ≤ max (v + 1) (limit + 1) ∧ Moves hash e 0 d { d with rehashidx := (i + e : Nat) }) ∨
    ∃ e, skipEmpty limit rest i v = .stopped (i + e : Nat) (v + e) ∧ v + e ≤ max v limit ∧
      Moves hash e 0 d { d with rehashidx := (i + e : Nat) } ∧
      (i + e = d.ht0.length ∨ ∃ c, d.ht0[i + e]? = some c ∧ c ≠ []) := by
  induction rest generalizing d i v with
  | nil =>
    right
    have hend : d.ht0.length ≤ i := List.drop_eq_nil_iff.mp hrest
    refine ⟨0, rfl, by omega, ?_, Or.inl (by omega)⟩
    simpa [← hi] using Moves.refl d
  | cons bucket rest ih =>
    have hlt : i < d.ht0.length := by
      have := congrArg List.length hrest
      simp only [List.length_drop, List.length_cons] at this
      omega
    rw [List.drop_eq_getElem_cons hlt] at hrest
    obtain ⟨hb, htail⟩ := List.cons.inj hrest
    have hget : d.ht0[i]? = some bucket := List.getElem?_eq_some_iff.mpr ⟨hlt, hb⟩
    by_cases hempty : bucket = []
    · subst hempty
      have hone : Moves hash 1 0 d { d with rehashidx := (i + 1 : Nat) } :=
        Moves.skip i hi hget (Moves.refl _)
      simp only [skipEmpty, ↓reduceIte]
      split
      · exact Or.inl ⟨1, rfl, by omega, by omega, hone⟩
      · have := ih { d with rehashidx := (i + 1 : Nat) } (i + 1) (v + 1) rfl htail
          (by simpa using hlt)
        rcases this with ⟨e, he, hpos, hv, hm⟩ | ⟨e, he, hv, hm, hend⟩
        · refine Or.inl ⟨1 + e, ?_, by omega, by omega, ?_⟩
          · rw [← Nat.add_assoc]; exact he
          · rw [← Nat.add_assoc]; exact hone.trans hm
        · refine Or.inr ⟨1 + e, ?_, by omega, ?_, ?_⟩
          · rw [← Nat.add_assoc, ← Nat.add_assoc]; exact he
          · rw [← Nat.add_assoc]; exact hone.trans hm
          · rw [← Nat.add_assoc]; exact hend
    · right
      refine ⟨0, by simp [skipEmpty, hempty], by omega, ?_, Or.inr ⟨bucket, hget, hempty⟩⟩
      simpa [← hi] using Moves.refl d

/-- How one call of `rehash_step` with budget `n` ends after `v` empty visits. -/
inductive Outcome (hash : Bytes → Nat) (n v : Nat) (d : Dict) : Int × Dict → Prop
  /-- Nothing to do: no budget, or nothing stored. -/
  | idle : n = 0 ∨ d.used ≤ 0 → Outcome hash n v d (1, d)
  /-- Every unit of the budget migrated a bucket. -/
  | exhausted {e : Nat} {d' : Dict} : 0 < n → 0 < d.used → Moves hash e n d d' →
      v + e ≤ max v (10 * (n - 1)) → Outcome hash n v d (1, d')
  /-- Too many empty buckets. -/
  | spent {e m : Nat} {d' : Dict} : m < n → 0 < d.used → 0 < e → Moves hash e m d d' →
      v + e ≤ max (v + 1) (10 * (n - 1) + 1) → Outcome hash n v d (1, d')
  /-- The old table is exhausted: the new one replaces it. -/
  | swapped {e m : Nat} {d' : Dict} : m < n → 0 < d.used → Moves hash e m d d' →
      v + e ≤ max v (10 * (n - 1)) → d'.rehashidx = d'.ht0.length →
      Outcome hash n v d (0, swapTables d')

theorem rehashLoop_outcome (hash : Bytes → Nat) (n v : Nat) (d : Dict) (hs : Sane d)
    (hr : d.isRehashing = true) :
    ∃ r, rehashLoop hash n v d = .ok r ∧ Outcome hash n v d r := by
  induction n generalizing v d with
  | zero => exact ⟨(1, d), rfl, .idle (Or.inl rfl)⟩
  | succ n ih =>
    by_cases hu : d.used > 0
    · obtain ⟨i, hi, hle⟩ := hs.index hr
      simp only [rehashLoop, hu, ↓reduceIte, hi, bucketsFrom_ok, Exec.ok_bind]
      rcases skipEmpty_moves hash (10 * n) (d.ht0.drop i) d i v hi rfl hle with
        ⟨e, he, hpos, hv, hm⟩ | ⟨e, he, hv, hm, hend⟩
      · rw [he]
        exact ⟨_, rfl, .spent (Nat.succ_pos n) hu hpos hm hv⟩
      · rw [he]
        rcases hend with hend | ⟨c, hc, hne⟩
        · have hge : ((i + e : Nat) : Int) ≥ d.ht0.length := by omega
          simp only [hge, ↓reduceIte]
          have hout : Outcome hash (n + 1) v d
              (0, swapTables { d with rehashidx := (i + e : Nat) }) :=
            .swapped (Nat.succ_pos n) hu hm hv (by simp only; omega)
          exact ⟨_, rfl, hout⟩
        · obtain ⟨hlt, _⟩ := List.getElem?_eq_some_iff.mp hc
          have hge : ¬ ((i + e : Nat) : Int) ≥ d.ht0.length := by omega
          have ha := hs.aux hr
          simp only [hge, ↓reduceIte, Int.toNat_natCast, at?_ok hc, migrate_ok ha, Exec.ok_bind]
          -- the loop goes on behind the migrated bucket
          have hmove := hm.trans (Moves.migrate (i + e) c rfl hc hne ha (Moves.refl _))
          obtain ⟨r, hrun, hout⟩ := ih (v + e) _ (hmove.sane hs)
            (by rw [isRehashing_iff]; simp only; omega)
          refine ⟨r, hrun, ?_⟩
          cases hout with
          | idle hidle =>
            have hn : n = 0 := by
              rcases hidle with h | h
              · exact h
              · exact absurd hu (by simpa using h)
            subst hn
            exact .exhausted (Nat.succ_pos 0) hu hmove (by omega)
          | exhausted hpos _ hmoves hv' =>
            have := hmove.trans hmoves
            rw [Nat.zero_add, Nat.zero_add, Nat.add_comm 1] at this
            exact .exhausted (Nat.succ_pos n) hu this (by omega)
          | spent hlt _ hpos hmoves hv' =>
            exact .spent (by omega) hu (by omega) (hmove.trans hmoves) (by omega)
          | swapped hlt _ hmoves hv' hend =>
            exact .swapped (by omega) hu (hmove.trans hmoves) (by omega) hend
    · simp only [rehashLoop, hu, ↓reduceIte, Exec.pure_eq]
      exact ⟨_, rfl, .idle (Or.inr (by omega))⟩

theorem rehashStep_idle {n : Nat} {d : Dict} (hr : d.isRehashing = false) :
    rehashStep hash n d = .ok (0, d) := by
  simp [rehashStep, hr]

theorem rehashStep_outcome (hash : Bytes → Nat) (n : Nat) {d : Dict} (hs : Sane d)
    (hr : d.isRehashing = true) :
    ∃ r, rehashStep hash n d = .ok r ∧ Outcome hash n 0 d r := by
  have hne : d.ht0 ≠ [] := List.ne_nil_of_length_pos hs.main
  simp only [rehashStep, hr, hne, Bool.not_true, Bool.false_eq_true, ↓reduceIte]
  exact rehashLoop_outcome hash n 0 d hs hr

/-- What a batch keeps, `try_rehash_for_ms` keeps. -/
theorem tryRehashForMs_keeps {hash : Bytes → Nat} {P : Dict → Prop}
    (hbatch : ∀ d, P d → ∃ r d', rehashStep hash 100 d = .ok (r, d') ∧ P d') (deadline : Nat)
    {d : Dict} (h : P d) : ∃ d', tryRehashForMs hash deadline d = .ok d' ∧ P d' := by
  induction deadline generalizing d with
  | zero =>
    unfold tryRehashForMs
    cases hr : d.isRehashing with
    | false => exact ⟨d, rfl, h⟩
    | true =>
      obtain ⟨r, d₁, hrun, h₁⟩ := hbatch d h
      exact ⟨d₁, by simp [hrun], h₁⟩
  | succ deadline ih =>
    unfold tryRehashForMs
    cases hr : d.isRehashing with
    | false => exact ⟨d, rfl, h⟩
    | true =>
      obtain ⟨r, d₁, hrun, h₁⟩ := hbatch d h
      obtain ⟨d', hrest, h'⟩ := ih h₁
      exact ⟨d', by simp [hrun, hrest], h'⟩

end MiniRedis.Dict
