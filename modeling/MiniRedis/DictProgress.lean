import MiniRedis.DictGeometry

/-!
How a rehash ends.  While the counter is positive every `rehash_step` moves on
or ends the rehash, so the old table is used up after as many calls as it has
buckets, and one more.  A counter of zero stops the migration where it stands.
-/

namespace MiniRedis.Dict

variable {hash : Bytes → Nat}

/-- Every call moves on; enough calls, or a deadline late enough, end the
rehash. -/
def Progresses (hash : Bytes → Nat) (d : Dict) : Prop :=
  (∀ n, 1 ≤ n → ∃ r d', rehashStep hash n d = .ok (r, d') ∧
    (d'.isRehashing = false ∨ d.rehashidx < d'.rehashidx)) ∧
  (∀ ns : List Nat, (∀ n ∈ ns, 1 ≤ n) → d.ht0.length + 1 ≤ ns.length →
    ∃ answers d', Run.run (step hash) (ns.map .rehash) d = .ok (answers, d') ∧
      d'.isRehashing = false) ∧
  ∀ deadline, d.ht0.length ≤ deadline →
    ∃ d', tryRehashForMs hash deadline d = .ok d' ∧ d'.isRehashing = false

/-! ## One call -/

theorem rehashStep_progress (hash : Bytes → Nat) {d : Dict} (hs : Sane d)
    (hr : d.isRehashing = true) (hu : 0 < d.used) {n : Nat} (hn : 1 ≤ n) :
    ∃ r d', rehashStep hash n d = .ok (r, d') ∧ Sane d' ∧ d'.used = d.used ∧
      (d'.isRehashing = false ∨
        d.rehashidx < d'.rehashidx ∧ d'.ht0.length = d.ht0.length) := by
  obtain ⟨⟨r, d'⟩, hrun, hout⟩ := rehashStep_outcome hash n hs hr
  refine ⟨r, d', hrun, hout.sane hs, hout.used, ?_⟩
  cases hout with
  | idle hidle => omega
  | exhausted _ _ hm _ =>
    have hidx := hm.rehashidx
    exact Or.inr ⟨by omega, hm.length_ht0⟩
  | spent _ _ hpos hm _ =>
    have hidx := hm.rehashidx
    exact Or.inr ⟨by omega, hm.length_ht0⟩
  | swapped _ _ _ _ _ => exact Or.inl rfl

/-- With nothing counted a call changes nothing. -/
theorem rehashStep_stuck {d : Dict} (hs : Sane d) (hr : d.isRehashing = true)
    (hu : d.used ≤ 0) (n : Nat) : rehashStep hash n d = .ok (1, d) := by
  have hne : d.ht0 ≠ [] := List.ne_nil_of_length_pos hs.main
  have hnot : ¬ d.used > 0 := by omega
  simp only [rehashStep, hr, hne, Bool.not_true, Bool.false_eq_true, ↓reduceIte]
  cases n with
  | zero => rfl
  | succ n => simp only [rehashLoop, hnot, ↓reduceIte, Exec.pure_eq]

/-! ## Many calls -/

/-- As many calls as buckets are left, and one more, end the rehash. -/
theorem rehashSteps_complete {ns : List Nat} (hns : ∀ n ∈ ns, 1 ≤ n) {d : Dict} (hs : Sane d)
    (hu : 0 < d.used)
    (hlen : d.isRehashing = true → d.ht0.length + 1 ≤ d.rehashidx + ns.length) :
    ∃ answers d', Run.run (step hash) (ns.map .rehash) d = .ok (answers, d') ∧
      d'.isRehashing = false := by
  induction ns generalizing d with
  | nil =>
    refine ⟨[], d, rfl, ?_⟩
    by_contra hr
    rw [Bool.not_eq_false] at hr
    have hleft := hlen hr
    have hbound := hs.bound hr
    simp only [List.length_nil] at hleft
    omega
  | cons n ns ih =>
    obtain ⟨hn, hns⟩ := List.forall_mem_cons.mp hns
    rw [List.length_cons] at hlen
    cases hr : d.isRehashing with
    | false =>
      have hstep : step hash (.rehash n) d = .ok (.done, d) := by
        simp [step, rehashStep_idle hr]
      obtain ⟨answers, d', hrun, hr'⟩ := ih hns hs hu (by simp [hr])
      exact ⟨_, d', Run.run_cons_ok hstep hrun, hr'⟩
    | true =>
      have hleft := hlen hr
      obtain ⟨r, d₁, hrun₁, hs₁, hu₁, hgo⟩ := rehashStep_progress hash hs hr hu hn
      have hstep : step hash (.rehash n) d = .ok (.done, d₁) := by simp [step, hrun₁]
      have hlen₁ : d₁.isRehashing = true → d₁.ht0.length + 1 ≤ d₁.rehashidx + ns.length := by
        intro hr₁
        rcases hgo with hdone | ⟨hidx, hsame⟩
        · rw [hdone] at hr₁
          cases hr₁
        · push_cast at hleft
          omega
      obtain ⟨answers, d', hrun, hr'⟩ := ih hns hs₁ (by omega) hlen₁
      exact ⟨_, d', Run.run_cons_ok hstep hrun, hr'⟩

/-- The loop of `try_rehash_for_ms` ends the rehash when the deadline leaves it a
batch for every bucket that is left, and one more. -/
theorem tryRehashForMs_complete (hash : Bytes → Nat) {deadline : Nat} {d : Dict} (hs : Sane d)
    (hu : 0 < d.used) (hlate : d.isRehashing = true → d.ht0.length ≤ d.rehashidx + deadline) :
    ∃ d', tryRehashForMs hash deadline d = .ok d' ∧ d'.isRehashing = false := by
  induction deadline generalizing d with
  | zero =>
    unfold tryRehashForMs
    cases hr : d.isRehashing with
    | false => exact ⟨d, rfl, hr⟩
    | true =>
      obtain ⟨r, d₁, hrun₁, hs₁, _, hgo⟩ := rehashStep_progress hash hs hr hu
        (show 1 ≤ 100 by decide)
      refine ⟨d₁, by simp [hrun₁], ?_⟩
      rcases hgo with hdone | ⟨hidx, hsame⟩
      · exact hdone
      · -- the position was at the end already
        have hend := hlate hr
        by_contra hr₁
        have hbound := hs₁.bound (by simpa using hr₁)
        omega
  | succ deadline ih =>
    unfold tryRehashForMs
    cases hr : d.isRehashing with
    | false => exact ⟨d, rfl, hr⟩
    | true =>
      obtain ⟨r, d₁, hrun₁, hs₁, hu₁, hgo⟩ := rehashStep_progress hash hs hr hu
        (show 1 ≤ 100 by decide)
      have hlate₁ : d₁.isRehashing = true → d₁.ht0.length ≤ d₁.rehashidx + deadline := by
        intro hr₁
        have hleft := hlate hr
        rcases hgo with hdone | ⟨hidx, hsame⟩
        · rw [hdone] at hr₁
          cases hr₁
        · push_cast at hleft
          omega
      obtain ⟨d', hrun, hr'⟩ := ih hs₁ (by omega) hlate₁
      exact ⟨d', by simp [hrun₁, hrun], hr'⟩

/-! ## Every reachable state -/

/-- **A rehash makes progress** in a reachable state exactly when the counter is
positive there. -/
theorem rehash_progresses_iff (hash : Bytes → Nat) (ops : List Op) (answers : List Answer)
    (d : Dict) (hrun : Run.run (step hash) ops new = .ok (answers, d))
    (hr : d.isRehashing = true) : Progresses hash d ↔ 0 < d.used := by
  obtain ⟨_, _, hrun', hg⟩ := run_geometry hash ops
  rw [hrun] at hrun'
  cases hrun'
  have hs := hg.toSane
  have hidx := hs.nonneg hr
  constructor
  · rintro ⟨hmove, _⟩
    by_contra hu
    obtain ⟨r, d', hstep, hgo⟩ := hmove 1 (Nat.le_refl 1)
    rw [rehashStep_stuck hs hr (by omega)] at hstep
    cases hstep
    rcases hgo with hdone | hidx
    · rw [hr] at hdone
      cases hdone
    · exact absurd hidx (Int.lt_irrefl _)
  · intro hu
    refine ⟨fun n hn => ?_, fun ns hns hlen => ?_, fun deadline hlate => ?_⟩
    · obtain ⟨r, d', hstep, _, _, hgo⟩ := rehashStep_progress hash hs hr hu hn
      exact ⟨r, d', hstep, hgo.imp id And.left⟩
    · exact rehashSteps_complete hns hs hu (fun _ => by omega)
    · exact tryRehashForMs_complete hash hs hu (fun _ => by omega)

/-- Four keys start an expansion, which four steps complete. -/
theorem rehash_progresses_iff_four_keys :
    Progresses firstByte
      ⟨[[([0], [])], [([1], [])], [([2], [])], [([3], [])]], List.replicate 8 [], 4, 0⟩ ↔
    (0 : Int) < 4 :=
  rehash_progresses_iff firstByte [.set [0] [], .set [1] [], .set [2] [], .set [3] []]
    [.done, .done, .done, .done] _ rfl rfl

/-- Deleting the four keys again takes the counter to zero in mid-rehash. -/
theorem rehash_gets_stuck :
    ¬ ∀ (hash : Bytes → Nat) (ops : List Op) (answers : List Answer) (d : Dict),
      Run.run (step hash) ops new = .ok (answers, d) → d.isRehashing = true →
      Progresses hash d := by
  intro h
  have hstuck := h firstByte
    [.set [0] [], .set [1] [], .set [2] [], .set [3] [], .del [0], .del [1], .del [2], .del [3]]
    _ ⟨List.replicate 4 [], List.replicate 8 [], 0, 4⟩ rfl rfl
  obtain ⟨r, d', hstep, hgo⟩ := hstuck.1 1 (Nat.le_refl 1)
  cases hstep
  rcases hgo with hdone | hidx
  · cases hdone
  · exact absurd hidx (by decide)

end MiniRedis.Dict
