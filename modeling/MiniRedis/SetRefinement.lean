import MiniRedis.SetPromotion

/-!
`SetObject` as a set of strings.  An intset knows its members by value, so a
second spelling of a member is taken for the member; where that does not happen
the answers are those of a plain set, whichever encoding gives them.
-/

namespace MiniRedis.SetObject

open SortedList

/-! ## The plain set -/

def next (A : Finset Bytes) : Op → Finset Bytes
  | .add m => insert m A
  | .remove m => A.erase m
  | .contains _ => A
  | .size => A
  | .members => A

/-- The answers of a plain set; a listing has no fixed order. -/
def Answers (A : Finset Bytes) : Op → Answer → Prop
  | .add m, a => a = .flag (decide (m ∉ A))
  | .remove m, a => a = .flag (decide (m ∈ A))
  | .contains m, a => a = .flag (decide (m ∈ A))
  | .size, a => a = .count A.card
  | .members, a => ∃ l, a = .listing l ∧ l.Nodup ∧ ∀ m, m ∈ l ↔ m ∈ A

/-- The call does not reach an intset with a second spelling of an integer: none
is added to it, and none that it holds is looked for or removed. -/
def Spelled (o : SetObject) : Op → Prop
  | .add m => o.encoding = .INTSET → o.contents.card < INTSET_MAX_ENTRIES →
      ∀ v ∈ tryParseInt m, m = RespParser.toString v
  | .remove m | .contains m => o.encoding = .INTSET →
      ∀ v ∈ tryParseInt m, RespParser.toString v ∈ o.contents → m = RespParser.toString v
  | .size | .members => True

instance (o : SetObject) (op : Op) : Decidable (Spelled o op) :=
  match op with
  | .add m => inferInstanceAs (Decidable (_ → _ → ∀ v ∈ tryParseInt m, _))
  | .remove m => inferInstanceAs (Decidable (_ → ∀ v ∈ tryParseInt m, _ → _))
  | .contains m => inferInstanceAs (Decidable (_ → ∀ v ∈ tryParseInt m, _ → _))
  | .size => .isTrue trivial
  | .members => .isTrue trivial

/-- A string set asks nothing of the spelling. -/
theorem spelled_strset (ss : StrSet) (op : Op) : Spelled ⟨.STRSET, .strset ss⟩ op := by
  cases op with
  | add m => rintro ⟨⟩
  | remove m => rintro ⟨⟩
  | contains m => rintro ⟨⟩
  | size => trivial
  | members => trivial

/-! ## One call -/

/-- A member of an intset is spelled as it is rendered. -/
theorem member_spelled {is : Intset} (hfits : ∀ v ∈ is, Fits v) {m : Bytes} {v : Int}
    (hparse : tryParseInt m = some v) (hm : m ∈ contents ⟨.INTSET, .intset is⟩) :
    m = RespParser.toString v := by
  obtain ⟨w, hw, rfl⟩ := mem_intset.mp hm
  rw [tryParseInt_toString (hfits w hw)] at hparse
  rw [Option.some.inj hparse]

/-- The call answers as a plain set does, and leaves what a plain set leaves. -/
def Agrees (order : StrSet.Iteration) (o : SetObject) (op : Op) : Prop :=
  ∃ a o', step order op o = .ok (a, o') ∧ Answers o.contents op a ∧ Sound o' ∧
    o'.contents = next o.contents op

theorem agrees_run {order : StrSet.Iteration} {o o' : SetObject} {op : Op} {a : Answer}
    (hrun : step order op o = .ok (a, o')) (h' : Sound o') :
    Agrees order o op ↔ Answers o.contents op a ∧ o'.contents = next o.contents op := by
  constructor
  · rintro ⟨a₁, o₁, hrun₁, ha, _, hc⟩
    rw [hrun] at hrun₁
    cases hrun₁
    exact ⟨ha, hc⟩
  · rintro ⟨ha, hc⟩
    exact ⟨a, o', hrun, ha, h', hc⟩

/-- A string that is no integer is no member of an intset. -/
theorem unread_not_member {is : Intset} (hfits : ∀ v ∈ is, Fits v) {m : Bytes}
    (hparse : tryParseInt m = none) : m ∉ contents ⟨.INTSET, .intset is⟩ := by
  intro hm
  obtain ⟨w, hw, rfl⟩ := mem_intset.mp hm
  rw [tryParseInt_toString (hfits w hw)] at hparse
  cases hparse

theorem add_agrees_iff (order : StrSet.Iteration) {o : SetObject} (h : Sound o) (m : Bytes) :
    Agrees order o (.add m) ↔ Spelled o (.add m) := by
  -- an addition to a string set
  have hstring : ∀ {ss : StrSet},
      o.add m = .ok (decide (m ∉ o.contents), ⟨.STRSET, .strset ss⟩) →
      contents ⟨.STRSET, .strset ss⟩ = insert m o.contents → Agrees order o (.add m) := by
    intro ss hadd hc
    have hrun : step order (.add m) o =
        .ok (.flag (decide (m ∉ o.contents)), ⟨.STRSET, .strset ss⟩) := by
      simp only [step, hadd, Exec.ok_bind, Exec.pure_eq]
    exact (agrees_run hrun (.strset ss)).mpr ⟨rfl, hc⟩
  by_cases hp : Promotes m o
  · obtain ⟨ss, hadd, hc⟩ := add_promotes h hp
    refine iff_of_true (hstring hadd hc) fun _ hroom v hv => ?_
    rcases hp with hp | hp
    · rw [hp] at hv
      cases hv
    · omega
  · cases h with
    | strset ss =>
      obtain ⟨ss', hins, hc⟩ := insertString_strset m ss
      exact iff_of_true (hstring ((add_strset m ss).trans hins) hc) (spelled_strset ss _)
    | @intset is hasc hfits =>
      obtain ⟨hparse, hroom⟩ := not_or.mp hp
      obtain ⟨v, hv⟩ := Option.ne_none_iff_exists'.mp hparse
      have hlen := card_intset hasc
      obtain ⟨is', hadd, hs, hc⟩ := add_intset hasc hfits hv (by omega)
      have hrun : step order (.add m) ⟨.INTSET, .intset is⟩ =
          .ok (.flag (decide (v ∉ is)), ⟨.INTSET, .intset is'⟩) := by
        simp only [step, hadd, Exec.ok_bind, Exec.pure_eq]
      rw [agrees_run hrun hs]
      constructor
      · -- the value that was added is the one the string renders
        rintro ⟨_, hnext⟩ _ _ w hw
        obtain rfl : v = w := Option.some.inj (hv.symm.trans hw)
        have hm : m ∈ next (contents ⟨.INTSET, .intset is⟩) (.add m) :=
          Finset.mem_insert_self ..
        rw [← hnext, hc, Finset.mem_insert] at hm
        exact hm.elim id (member_spelled hfits hv)
      · intro hspelled
        obtain rfl : m = RespParser.toString v := hspelled rfl (by omega) v hv
        refine ⟨?_, hc⟩
        simp only [Answers, toString_mem_intset]

theorem remove_agrees_iff (order : StrSet.Iteration) {o : SetObject} (h : Sound o) (m : Bytes) :
    Agrees order o (.remove m) ↔ Spelled o (.remove m) := by
  cases h with
  | strset ss =>
    obtain ⟨ss', hdel, hc⟩ := remove_strset m ss
    have hrun : step order (.remove m) ⟨.STRSET, .strset ss⟩ =
        .ok (.flag (decide (m ∈ contents ⟨.STRSET, .strset ss⟩)), ⟨.STRSET, .strset ss'⟩) := by
      simp only [step, hdel, Exec.ok_bind, Exec.pure_eq]
    exact iff_of_true ((agrees_run hrun (.strset ss')).mpr ⟨rfl, hc⟩) (spelled_strset ss _)
  | @intset is hasc hfits =>
    cases hparse : tryParseInt m with
    | none =>
      have hnot := unread_not_member hfits hparse
      have hrun : step order (.remove m) ⟨.INTSET, .intset is⟩ =
          .ok (.flag false, ⟨.INTSET, .intset is⟩) := by
        simp only [step, remove_unread hparse, Exec.ok_bind, Exec.pure_eq]
      refine iff_of_true ((agrees_run hrun (.intset hasc hfits)).mpr ⟨?_, ?_⟩) fun _ v hv => ?_
      · simp only [Answers, hnot, decide_false]
      · exact (Finset.erase_eq_of_notMem hnot).symm
      · rw [hparse] at hv
        cases hv
    | some v =>
      obtain ⟨is', hdel, hs, hc⟩ := remove_intset hasc hfits hparse
      have hrun : step order (.remove m) ⟨.INTSET, .intset is⟩ =
          .ok (.flag (decide (v ∈ is)), ⟨.INTSET, .intset is'⟩) := by
        simp only [step, hdel, Exec.ok_bind, Exec.pure_eq]
      rw [agrees_run hrun hs]
      constructor
      · rintro ⟨hans, _⟩ _ w hw hmem
        obtain rfl : v = w := Option.some.inj (hparse.symm.trans hw)
        have hm : m ∈ contents ⟨.INTSET, .intset is⟩ := by
          simpa [Answers, toString_mem_intset.mp hmem] using hans
        exact member_spelled hfits hparse hm
      · intro hspelled
        by_cases hmem : v ∈ is
        · obtain rfl : m = RespParser.toString v :=
            hspelled rfl v hparse (toString_mem_intset.mpr hmem)
          refine ⟨?_, hc⟩
          simp only [Answers, toString_mem_intset]
        · have hnot : m ∉ contents ⟨.INTSET, .intset is⟩ := by
            intro hm
            rw [member_spelled hfits hparse hm] at hm
            exact hmem (toString_mem_intset.mp hm)
          refine ⟨by simp only [Answers, hmem, hnot], ?_⟩
          rw [hc, Finset.erase_eq_of_notMem (mt toString_mem_intset.mp hmem)]
          exact (Finset.erase_eq_of_notMem hnot).symm

theorem contains_agrees_iff (order : StrSet.Iteration) {o : SetObject} (h : Sound o) (m : Bytes) :
    Agrees order o (.contains m) ↔ Spelled o (.contains m) := by
  cases h with
  | strset ss =>
    have hrun : step order (.contains m) ⟨.STRSET, .strset ss⟩ =
        .ok (.flag (decide (m ∈ contents ⟨.STRSET, .strset ss⟩)), ⟨.STRSET, .strset ss⟩) := by
      simp only [step, contains_strset, Exec.ok_bind, Exec.pure_eq]
    exact iff_of_true ((agrees_run hrun (.strset ss)).mpr ⟨rfl, rfl⟩) (spelled_strset ss _)
  | @intset is hasc hfits =>
    have hrun : step order (.contains m) ⟨.INTSET, .intset is⟩ =
        .ok (.flag (decide (∃ v ∈ is, tryParseInt m = some v)), ⟨.INTSET, .intset is⟩) := by
      simp only [step, contains_intset hasc, Exec.ok_bind, Exec.pure_eq]
    rw [agrees_run hrun (.intset hasc hfits)]
    constructor
    · rintro ⟨hans, _⟩ _ v hv hmem
      have hfound : ∃ w ∈ is, tryParseInt m = some w := ⟨v, toString_mem_intset.mp hmem, hv⟩
      have hsame := decide_eq_decide.mp (Answer.flag.inj hans)
      exact member_spelled hfits hv (hsame.mp hfound)
    · intro hspelled
      refine ⟨?_, rfl⟩
      have hiff : (∃ v ∈ is, tryParseInt m = some v) ↔
          m ∈ contents ⟨.INTSET, .intset is⟩ := by
        constructor
        · rintro ⟨v, hv, hparse⟩
          have hmem := toString_mem_intset.mpr hv
          rwa [hspelled rfl v hparse hmem]
        · intro hm
          obtain ⟨w, hw, rfl⟩ := mem_intset.mp hm
          exact ⟨w, hw, tryParseInt_toString (hfits w hw)⟩
      simp only [Answers, hiff]

/-- A call agrees with the plain set exactly when no second spelling is involved. -/
theorem step_agrees_iff (order : StrSet.Iteration) {o : SetObject} (h : Sound o) (op : Op) :
    Agrees order o op ↔ Spelled o op := by
  cases op with
  | add m => exact add_agrees_iff order h m
  | remove m => exact remove_agrees_iff order h m
  | contains m => exact contains_agrees_iff order h m
  | size =>
    have hrun : step order .size o = .ok (.count o.contents.card, o) := by
      simp only [step, size_ok h, Exec.ok_bind, Exec.pure_eq]
    exact iff_of_true ((agrees_run hrun h).mpr ⟨rfl, rfl⟩) trivial
  | members =>
    obtain ⟨l, hl, hnodup, hmem⟩ := members_ok order h
    have hrun : step order .members o = .ok (.listing l, o) := by
      simp only [step, hl, Exec.ok_bind, Exec.pure_eq]
    exact iff_of_true ((agrees_run hrun h).mpr ⟨⟨l, rfl, hnodup, hmem⟩, rfl⟩) trivial

/-! ## Runs -/

/-- **A set object is a set of strings** in every run that involves no second
spelling of an integer: each answer is the plain set's, in either encoding and
across a promotion, and so are the members at the end. -/
theorem run_behaves_as_set (order : StrSet.Iteration) (ops : List Op)
    (hg : Run.Guarded (step order) Spelled new ops) :
    ∃ answers o, Run.run (step order) ops new = .ok (answers, o) ∧
      Run.Admits next Answers ∅ ops answers ∧ o.contents = ops.foldl next ∅ := by
  have hstep : ∀ (o : SetObject) (A : Finset Bytes) (op : Op),
      (Sound o ∧ o.contents = A) → Spelled o op → ∃ a o', step order op o = .ok (a, o') ∧
        Answers A op a ∧ (Sound o' ∧ o'.contents = next A op) := by
    rintro o _ op ⟨h, rfl⟩ hspelled
    obtain ⟨a, o', hrun, ha, h', hc⟩ := (step_agrees_iff order h op).mpr hspelled
    exact ⟨a, o', hrun, ha, h', hc⟩
  obtain ⟨answers, o, hrun, hadmits, _, hc⟩ :=
    Run.simulation hstep ops new ∅ ⟨new_sound, rfl⟩ hg
  exact ⟨answers, o, hrun, hadmits, hc⟩

/-- Integers, a promotion by another string, and a second spelling behind it. -/
def promotedOps : List Op :=
  [.add [55], .add [45, 49], .contains [55], .add [97], .contains [48, 55], .add [48, 55], .size]

theorem run_behaves_as_set_promoted :
    ∃ answers o, Run.run (step .stored) promotedOps new = .ok (answers, o) ∧
      Run.Admits next Answers ∅ promotedOps answers ∧ o.contents = promotedOps.foldl next ∅ :=
  run_behaves_as_set .stored promotedOps (by decide +kernel)

/-- After `07` is added, `7` is found. -/
theorem second_spelling_is_found :
    ¬ ∀ (order : StrSet.Iteration) (ops : List Op),
      ∃ answers o, Run.run (step order) ops new = .ok (answers, o) ∧
        Run.Admits next Answers ∅ ops answers := by
  intro h
  obtain ⟨answers, o, hrun, hadmits⟩ := h .stored [.add [48, 55], .contains [55]]
  have hfound : Run.run (step .stored) [.add [48, 55], .contains [55]] new =
      .ok ([.flag true, .flag true], ⟨.INTSET, .intset [7]⟩) := by decide +kernel
  rw [hfound] at hrun
  cases hrun
  have hanswer : Answer.flag true = .flag (decide ([55] ∈ next ∅ (.add [48, 55]))) := hadmits.2.1
  exact absurd hanswer (by decide)

end MiniRedis.SetObject
