import Mathlib.Data.Set.Basic
import MiniRedis.Lib.Run

/-!
Steps with a footprint.  The state of a machine is looked at key by key, and an
input names the keys it reads and writes.  When several parties feed a machine
and no key is named by two of them, every party is answered as if it were alone,
and the interleaving decides nothing about the final state.
-/

namespace Footprint

open Run

variable {ι α I O S K V ε : Type} [DecidableEq ι]

/-- The two states hold the same under every key of `ks`. -/
def Agree (view : S → K → V) (ks : Set K) (s t : S) : Prop := ∀ k ∈ ks, view s k = view t k

/-- The step of `i` depends on its keys only and leaves all others alone.  `P`
is kept by the step and makes it return. -/
structure Local (step : I → S → Except ε (O × S)) (view : S → K → V) (keys : I → Set K)
    (P : S → Prop) (i : I) : Prop where
  returns : ∀ s, P s → ∃ o s', step i s = .ok (o, s') ∧ P s'
  frame : ∀ {s o s'}, P s → step i s = .ok (o, s') → ∀ k ∉ keys i, view s' k = view s k
  depends : ∀ {s t o o' s' t'}, P s → P t → Agree view (keys i) s t → step i s = .ok (o, s') →
    step i t = .ok (o', t') → o = o' ∧ Agree view (keys i) s' t'

/-- The part of party `c` in a list of tagged items. -/
def own (c : ι) (l : List (ι × α)) : List α :=
  l.filterMap fun e => if e.1 = c then some e.2 else none

/-- A step on tagged inputs tags its output. -/
def tagged (step : I → S → Except ε (O × S)) (e : ι × I) (s : S) : Except ε ((ι × O) × S) := do
  let (o, s) ← step e.2 s
  .ok ((e.1, o), s)

theorem own_cons_self (c : ι) (a : α) (l : List (ι × α)) : own c ((c, a) :: l) = a :: own c l := by
  simp [own]

theorem own_cons_ne {c d : ι} (h : d ≠ c) (a : α) (l : List (ι × α)) :
    own c ((d, a) :: l) = own c l := by
  simp [own, h]

theorem mem_own {c : ι} {a : α} {l : List (ι × α)} : a ∈ own c l ↔ (c, a) ∈ l := by
  simp only [own, List.mem_filterMap, Option.ite_none_right_eq_some, Option.some.injEq]
  constructor
  · rintro ⟨⟨d, b⟩, hmem, rfl, rfl⟩
    exact hmem
  · exact fun h => ⟨(c, a), h, rfl, rfl⟩

omit [DecidableEq ι] in
theorem tagged_ok {step : I → S → Except ε (O × S)} {c : ι} {i : I} {s s' : S} {o : O}
    (h : step i s = .ok (o, s')) : tagged step (c, i) s = .ok ((c, o), s') := by
  simp only [tagged, h, bind, Except.bind]

variable {step : I → S → Except ε (O × S)} {view : S → K → V} {keys : I → Set K} {P : S → Prop}

/-- A local step keeps the agreement on any larger set of keys. -/
theorem Local.depends_on {i : I} (hl : Local step view keys P i) {ks : Set K} (hi : keys i ⊆ ks)
    {s t s' t' : S} {o o' : O} (hs : P s) (ht : P t) (ha : Agree view ks s t)
    (hrun : step i s = .ok (o, s')) (hrun' : step i t = .ok (o', t')) :
    o = o' ∧ Agree view ks s' t' := by
  obtain ⟨ho, hin⟩ := hl.depends hs ht (fun k hk => ha k (hi hk)) hrun hrun'
  refine ⟨ho, fun k hk => ?_⟩
  by_cases hki : k ∈ keys i
  · exact hin k hki
  · rw [hl.frame hs hrun k hki, hl.frame ht hrun' k hki]
    exact ha k hk

/-- A step that names no key of `ks` changes nothing there. -/
theorem Local.agree_of_disjoint {i : I} (hl : Local step view keys P i) {ks : Set K}
    (hi : ∀ k ∈ keys i, k ∉ ks) {s t s' : S} {o : O} (hs : P s) (ha : Agree view ks s t)
    (hrun : step i s = .ok (o, s')) : Agree view ks s' t := by
  intro k hk
  rw [hl.frame hs hrun k fun hki => hi k hki hk]
  exact ha k hk

/-- **One party in a crowd.**  If the keys of party `c` are in `ks` and no other
party names one of them, the crowd answers `c` as a run of its own inputs does,
and both leave the same under `ks`. -/
theorem run_own {c : ι} {ks : Set K} {l : List (ι × I)}
    (hl : ∀ e ∈ l, Local step view keys P e.2) (hc : ∀ e ∈ l, e.1 = c → keys e.2 ⊆ ks)
    (hother : ∀ e ∈ l, e.1 ≠ c → ∀ k ∈ keys e.2, k ∉ ks) {s t : S} (hs : P s) (ht : P t)
    (ha : Agree view ks s t) :
    ∃ os s' t', run (tagged step) l s = .ok (os, s') ∧ run step (own c l) t = .ok (own c os, t') ∧
      P s' ∧ Agree view ks s' t' := by
  induction l generalizing s t with
  | nil => exact ⟨[], s, t, rfl, rfl, hs, ha⟩
  | cons e l ih =>
    obtain ⟨d, i⟩ := e
    have hli := hl (d, i) (List.mem_cons_self ..)
    have ih := @ih (fun e he => hl e (List.mem_cons_of_mem _ he))
      (fun e he => hc e (List.mem_cons_of_mem _ he))
      (fun e he => hother e (List.mem_cons_of_mem _ he))
    obtain ⟨o, s₁, hrun, hs₁⟩ := hli.returns s hs
    by_cases hd : d = c
    · subst hd
      obtain ⟨o', t₁, hrun', ht₁⟩ := hli.returns t ht
      have hkeys := hc (d, i) (List.mem_cons_self ..) rfl
      obtain ⟨rfl, ha₁⟩ := hli.depends_on hkeys hs ht ha hrun hrun'
      obtain ⟨os, s', t', hl', hown, hs', ha'⟩ := ih hs₁ ht₁ ha₁
      refine ⟨(d, o) :: os, s', t', run_cons_ok (tagged_ok hrun) hl', ?_, hs', ha'⟩
      rw [own_cons_self, own_cons_self]
      exact run_cons_ok hrun' hown
    · have hdisj := hother (d, i) (List.mem_cons_self ..) hd
      obtain ⟨os, s', t', hl', hown, hs', ha'⟩ :=
        ih hs₁ ht (hli.agree_of_disjoint hdisj hs ha hrun)
      refine ⟨(d, o) :: os, s', t', run_cons_ok (tagged_ok hrun) hl', ?_, hs', ha'⟩
      rw [own_cons_ne hd, own_cons_ne hd]
      exact hown

/-- Every key is named by one party at most. -/
def Separate (keys : I → Set K) (l : List (ι × I)) : Prop :=
  ∀ e ∈ l, ∀ e' ∈ l, e.1 ≠ e'.1 → ∀ k ∈ keys e.2, k ∉ keys e'.2

/-- The keys that party `c` names. -/
def keysOf (keys : I → Set K) (l : List (ι × I)) (c : ι) : Set K :=
  {k | ∃ i ∈ own c l, k ∈ keys i}

theorem run_party {l : List (ι × I)} (hl : ∀ e ∈ l, Local step view keys P e.2)
    (hsep : Separate keys l) {s : S} (hs : P s) (c : ι) :
    ∃ os s' t', run (tagged step) l s = .ok (os, s') ∧ run step (own c l) s = .ok (own c os, t') ∧
      P s' ∧ Agree view (keysOf keys l c) s' t' := by
  refine run_own hl ?_ ?_ hs hs fun _ _ => rfl
  · rintro ⟨d, i⟩ he rfl k hk
    exact ⟨i, mem_own.mpr he, hk⟩
  · rintro ⟨d, i⟩ he hd k hk ⟨j, hj, hkj⟩
    exact hsep (d, i) he (c, j) (mem_own.mp hj) hd k hk hkj

omit [DecidableEq ι] in
/-- A key that nobody names is left as it was. -/
theorem run_untouched {l : List (ι × I)} (hl : ∀ e ∈ l, Local step view keys P e.2)
    {s s' : S} (hs : P s) {os : List (ι × O)} (hrun : run (tagged step) l s = .ok (os, s')) {k : K}
    (hk : ∀ e ∈ l, k ∉ keys e.2) : view s' k = view s k := by
  induction l generalizing s os with
  | nil =>
    cases hrun
    rfl
  | cons e l ih =>
    obtain ⟨d, i⟩ := e
    have hli := hl (d, i) (List.mem_cons_self ..)
    obtain ⟨o, s₁, hstep, hs₁⟩ := hli.returns s hs
    obtain ⟨_, _, _, htagged, hrest, _⟩ := run_cons_inv hrun
    rw [tagged_ok hstep] at htagged
    cases htagged
    rw [ih (fun e he => hl e (List.mem_cons_of_mem _ he)) hs₁ hrest
      fun e he => hk e (List.mem_cons_of_mem _ he)]
    exact hli.frame hs hstep k (hk (d, i) (List.mem_cons_self ..))

theorem run_returns {l : List (ι × I)} (hl : ∀ e ∈ l, Local step view keys P e.2)
    (hsep : Separate keys l) {s : S} (hs : P s) :
    ∃ os s', run (tagged step) l s = .ok (os, s') ∧
      ∀ c, ∃ t', run step (own c l) s = .ok (own c os, t') := by
  cases l with
  | nil => exact ⟨[], s, rfl, fun _ => ⟨s, rfl⟩⟩
  | cons e l =>
    obtain ⟨os, s', _, hrun, _⟩ := run_party hl hsep hs e.1
    refine ⟨os, s', hrun, fun c => ?_⟩
    obtain ⟨os', s'', t', hrun', hown, _⟩ := run_party hl hsep hs c
    rw [hrun] at hrun'
    cases hrun'
    exact ⟨t', hown⟩

/-- **Isolation.**  With separate keys, every party is answered as alone, and
any other interleaving of the same inputs ends with the same under every key. -/
theorem isolation {l : List (ι × I)} (hl : ∀ e ∈ l, Local step view keys P e.2)
    (hsep : Separate keys l) {s : S} (hs : P s) :
    ∃ os s', run (tagged step) l s = .ok (os, s') ∧
      (∀ c, ∃ t', run step (own c l) s = .ok (own c os, t')) ∧
      ∀ l', (∀ c, own c l' = own c l) →
        ∃ os' s'', run (tagged step) l' s = .ok (os', s'') ∧ ∀ k, view s'' k = view s' k := by
  obtain ⟨os, s', hrun, hown⟩ := run_returns hl hsep hs
  refine ⟨os, s', hrun, hown, fun l' hl' => ?_⟩
  have hmem : ∀ e, e ∈ l' ↔ e ∈ l := by
    rintro ⟨c, i⟩
    rw [← mem_own, ← mem_own, hl' c]
  have hlocal : ∀ e ∈ l', Local step view keys P e.2 := fun e he => hl e ((hmem e).mp he)
  have hsep' : Separate keys l' := fun e he e' he' =>
    hsep e ((hmem e).mp he) e' ((hmem e').mp he')
  obtain ⟨os', s'', hrun', _⟩ := run_returns hlocal hsep' hs
  refine ⟨os', s'', hrun', fun k => ?_⟩
  by_cases hk : ∃ e ∈ l, k ∈ keys e.2
  · obtain ⟨⟨c, i⟩, he, hki⟩ := hk
    obtain ⟨_, _, t, hr, ht, _, ha⟩ := run_party hl hsep hs c
    obtain ⟨_, _, t', hr', ht', _, ha'⟩ := run_party hlocal hsep' hs c
    rw [hrun] at hr
    rw [hrun'] at hr'
    cases hr
    cases hr'
    -- both runs of the inputs of `c` alone are the same run
    rw [hl' c, ht] at ht'
    have htt : t = t' := (Prod.mk.inj (Except.ok.inj ht')).2
    rw [ha k ⟨i, mem_own.mpr he, hki⟩, htt]
    exact ha' k ⟨i, mem_own.mpr ((hmem _).mpr he), hki⟩
  · have hno : ∀ e ∈ l, k ∉ keys e.2 := fun e he hki => hk ⟨e, he, hki⟩
    rw [run_untouched hl hs hrun hno,
      run_untouched hlocal hs hrun' fun e he => hno e ((hmem e).mp he)]

end Footprint
