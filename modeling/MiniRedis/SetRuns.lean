import MiniRedis.SetPromotion

/-!
Runs of a set object, whatever strings it is given.  It is a set of integers, in
which a string is known by the value it is read as, until a member is added that
is no integer or that finds the intset full; from then on it is a set of strings,
and what it held before is in it as it is rendered.
-/

namespace MiniRedis.SetObject

/-! ## The reference machine -/

inductive Plain where
  | integers (S : Finset Int)
  | strings (A : Finset Bytes)
  deriving DecidableEq

namespace Plain

/-- The members as `members` spells them. -/
def rendered : Plain → Finset Bytes
  | .integers S => S.image RespParser.toString
  | .strings A => A

/-- The value of an integer that finds room among the integers. -/
def room (S : Finset Int) (m : Bytes) : Option Int :=
  if S.card < INTSET_MAX_ENTRIES then tryParseInt m else none

/-- Whether the string is found. -/
def has (m : Bytes) : Plain → Bool
  | .integers S => (tryParseInt m).any fun v => decide (v ∈ S)
  | .strings A => decide (m ∈ A)

/-- `add`, and whether it says that the member is new. -/
def add (m : Bytes) : Plain → Bool × Plain
  | .integers S =>
      match room S m with
      | some v => (decide (v ∉ S), .integers (insert v S))
      | none => (decide (m ∉ S.image RespParser.toString),
          .strings (insert m (S.image RespParser.toString)))
  | .strings A => (decide (m ∉ A), .strings (insert m A))

def remove (m : Bytes) : Plain → Plain
  | .integers S => .integers ((tryParseInt m).elim S S.erase)
  | .strings A => .strings (A.erase m)

def next (p : Plain) : Op → Plain
  | .add m => (p.add m).2
  | .remove m => p.remove m
  | .contains _ | .size | .members => p

def Answers (p : Plain) : Op → Answer → Prop
  | .add m, a => a = .flag (p.add m).1
  | .remove m, a | .contains m, a => a = .flag (p.has m)
  | .size, a => a = .count p.rendered.card
  | .members, a => ∃ l, a = .listing l ∧ l.Nodup ∧ ∀ m, m ∈ l ↔ m ∈ p.rendered

end Plain

/-- The object holds what the machine does: an intset its integers, a string set
its strings. -/
inductive Holds : SetObject → Plain → Prop
  | integers {is : Intset} {S : Finset Int} (sound : Sound ⟨.INTSET, .intset is⟩)
      (content : contents ⟨.INTSET, .intset is⟩ = S.image RespParser.toString) :
      Holds ⟨.INTSET, .intset is⟩ (.integers S)
  | strings {ss : StrSet} {A : Finset Bytes} (content : contents ⟨.STRSET, .strset ss⟩ = A) :
      Holds ⟨.STRSET, .strset ss⟩ (.strings A)

theorem Holds.sound {o : SetObject} {p : Plain} (h : Holds o p) : Sound o := by
  cases h with
  | integers hs _ => exact hs
  | strings _ => exact .strset _

theorem Holds.content {o : SetObject} {p : Plain} (h : Holds o p) : o.contents = p.rendered := by
  cases h with
  | integers _ hc => exact hc
  | strings hc => exact hc

theorem toString_inj : Function.Injective RespParser.toString := fun _ _ => toString_injective

/-- Rendering loses no integer. -/
theorem mem_integers {is : Intset} {S : Finset Int}
    (hc : contents ⟨.INTSET, .intset is⟩ = S.image RespParser.toString) {v : Int} :
    v ∈ is ↔ v ∈ S := by
  rw [← toString_mem_intset, hc, toString_inj.mem_finset_image]

theorem card_integers {is : Intset} {S : Finset Int}
    (hc : contents ⟨.INTSET, .intset is⟩ = S.image RespParser.toString) :
    (contents ⟨.INTSET, .intset is⟩).card = S.card := by
  rw [hc, Finset.card_image_of_injective S toString_inj]

theorem room_eq_some {S : Finset Int} {m : Bytes} {v : Int} (h : Plain.room S m = some v) :
    S.card < INTSET_MAX_ENTRIES ∧ tryParseInt m = some v := by
  simpa [Plain.room] using h

/-- Without room among the integers the addition promotes. -/
theorem promotes_of_no_room {is : Intset} {S : Finset Int}
    (hc : contents ⟨.INTSET, .intset is⟩ = S.image RespParser.toString) {m : Bytes}
    (h : Plain.room S m = none) : Promotes m ⟨.INTSET, .intset is⟩ := by
  rw [Plain.room] at h
  split at h
  · exact Or.inl h
  · next hfull =>
    right
    rw [card_integers hc]
    exact Nat.le_of_not_lt hfull

/-! ## One call -/

theorem add_holds {o : SetObject} {p : Plain} (h : Holds o p) (m : Bytes) :
    ∃ o', o.add m = .ok ((p.add m).1, o') ∧ Holds o' (p.add m).2 := by
  cases h with
  | @integers is S hs hc =>
    cases hroom : Plain.room S m with
    | some v =>
      obtain ⟨hcard, hparse⟩ := room_eq_some hroom
      have hlen : is.length < INTSET_MAX_ENTRIES := by
        cases hs with
        | intset hasc _ => rwa [← card_intset hasc, card_integers hc]
      cases hs with
      | intset hasc hfits =>
        obtain ⟨is', hadd, hs', hc'⟩ := add_intset hasc hfits hparse hlen
        simp only [Plain.add, hroom]
        refine ⟨_, by simpa only [mem_integers hc] using hadd, .integers hs' ?_⟩
        rw [hc', hc, Finset.image_insert]
    | none =>
      obtain ⟨ss', hadd, hc'⟩ := add_promotes hs (promotes_of_no_room hc hroom)
      rw [hc] at hadd hc'
      simp only [Plain.add, hroom]
      exact ⟨_, hadd, .strings hc'⟩
  | @strings ss A hc =>
    obtain ⟨ss', hins, hmem⟩ := insertString_strset m ss
    rw [← add_strset, hc] at hins
    rw [hc] at hmem
    exact ⟨_, hins, .strings hmem⟩

theorem remove_holds {o : SetObject} {p : Plain} (h : Holds o p) (m : Bytes) :
    ∃ o', o.remove m = .ok (p.has m, o') ∧ Holds o' (p.remove m) := by
  cases h with
  | @integers is S hs hc =>
    cases hparse : tryParseInt m with
    | none =>
      refine ⟨_, by simpa [Plain.has, hparse] using remove_unread hparse, ?_⟩
      simpa [Plain.remove, hparse] using Holds.integers hs hc
    | some v =>
      cases hs with
      | intset hasc hfits =>
        obtain ⟨is', hdel, hs', hc'⟩ := remove_intset hasc hfits hparse
        simp only [Plain.has, Plain.remove, hparse, Option.any_some, Option.elim_some]
        refine ⟨_, by simpa only [mem_integers hc] using hdel, .integers hs' ?_⟩
        rw [hc', hc, Finset.image_erase toString_inj]
  | @strings ss A hc =>
    obtain ⟨ss', hdel, hmem⟩ := remove_strset m ss
    rw [hc] at hdel hmem
    exact ⟨_, hdel, .strings hmem⟩

theorem contains_holds {o : SetObject} {p : Plain} (h : Holds o p) (m : Bytes) :
    o.contains m = .ok (p.has m) := by
  cases h with
  | @integers is S hs hc =>
    cases hs with
    | intset hasc _ =>
      rw [contains_intset hasc]
      simp only [mem_integers hc, Plain.has]
      cases tryParseInt m with
      | none => simp
      | some v => simp
  | @strings ss A hc => rw [contains_strset, hc, Plain.has]

theorem step_holds (order : StrSet.Iteration) (o : SetObject) (p : Plain) (op : Op)
    (h : Holds o p) :
    ∃ a o', step order op o = .ok (a, o') ∧ p.Answers op a ∧ Holds o' (p.next op) := by
  cases op with
  | add m =>
    obtain ⟨o', hadd, h'⟩ := add_holds h m
    exact ⟨_, o', by simp only [step, hadd, Exec.ok_bind, Exec.pure_eq], rfl, h'⟩
  | remove m =>
    obtain ⟨o', hdel, h'⟩ := remove_holds h m
    exact ⟨_, o', by simp only [step, hdel, Exec.ok_bind, Exec.pure_eq], rfl, h'⟩
  | contains m =>
    exact ⟨_, o, by simp only [step, contains_holds h, Exec.ok_bind, Exec.pure_eq], rfl, h⟩
  | size =>
    have hrun : step order .size o = .ok (.count o.contents.card, o) := by
      simp only [step, size_ok h.sound, Exec.ok_bind, Exec.pure_eq]
    exact ⟨_, o, hrun, by rw [Plain.Answers, h.content], h⟩
  | members =>
    obtain ⟨l, hl, hnodup, hmem⟩ := members_ok order h.sound
    have hrun : step order .members o = .ok (.listing l, o) := by
      simp only [step, hl, Exec.ok_bind, Exec.pure_eq]
    exact ⟨_, o, hrun, ⟨l, rfl, hnodup, h.content ▸ hmem⟩, h⟩

/-! ## Runs -/

/-- **Integers, then strings.**  Every run of calls on a new object, with any
strings in any spelling, is answered as the machine answers it, and the object is
a string set at its end exactly when the machine has come to hold strings. -/
theorem run_is_integers_then_strings (order : StrSet.Iteration) (ops : List Op) :
    ∃ answers o, Run.run (step order) ops new = .ok (answers, o) ∧
      Run.Admits Plain.next Plain.Answers (.integers ∅) ops answers ∧
      Holds o (ops.foldl Plain.next (.integers ∅)) := by
  have hnew : Holds new (.integers ∅) := .integers new_sound rfl
  have hstep : ∀ (o : SetObject) (p : Plain) (op : Op), Holds o p → True →
      ∃ a o', step order op o = .ok (a, o') ∧ p.Answers op a ∧ Holds o' (p.next op) :=
    fun o p op h _ => step_holds order o p op h
  exact Run.simulation hstep ops new (.integers ∅) hnew (Run.guarded_true new ops)

/-- After `07` the set holds 7 in either spelling; promoted, only as `7`. -/
example :
    let p := [Op.add [48, 55], .add [97]].foldl Plain.next (.integers ∅)
    p.has [55] = true ∧ p.has [48, 55] = false := by
  decide +kernel

end MiniRedis.SetObject
