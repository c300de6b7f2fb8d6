import MiniRedis.IntegerSpelling

/-!
Promotion of a set.  An intset stands for the set of its rendered values;
rendering is injective and `tryParseInt` reads it back, so the string set that
promotion builds has the same members.
-/

namespace MiniRedis

namespace StrSet

theorem insert_spec (m : Bytes) (s : StrSet) :
    (s.insert m).1 = decide (m ∉ s.elems) ∧
      ∀ x, x ∈ (s.insert m).2.elems ↔ x = m ∨ x ∈ s.elems := by
  by_cases hm : m ∈ s.elems
  · have hcontains : s.elems.contains m = true := List.contains_iff_mem.mpr hm
    rw [insert, dif_pos hcontains]
    exact ⟨(decide_eq_false (not_not.mpr hm)).symm,
      fun x => ⟨Or.inr, fun h => h.elim (fun heq => heq ▸ hm) id⟩⟩
  · have hcontains : ¬ s.elems.contains m = true := mt List.contains_iff_mem.mp hm
    rw [insert, dif_neg hcontains]
    exact ⟨(decide_eq_true hm).symm, fun x => List.mem_cons⟩

theorem erase_spec (m : Bytes) (s : StrSet) :
    (s.erase m).1 = decide (m ∈ s.elems) ∧
      ∀ x, x ∈ (s.erase m).2.elems ↔ x ∈ s.elems ∧ x ≠ m := by
  refine ⟨List.contains_eq_mem .., fun x => ?_⟩
  rw [erase, s.nodup.mem_erase_iff, and_comm]

end StrSet

namespace SetObject

open SortedList

/-- The encoding says which variant is there, and an intset is ascending and
holds 64-bit values. -/
inductive Sound : SetObject → Prop where
  | intset {is : Intset} (ascending : Ascending is) (fits : ∀ v ∈ is, Fits v) :
      Sound ⟨.INTSET, .intset is⟩
  | strset (ss : StrSet) : Sound ⟨.STRSET, .strset ss⟩

/-- The members an object stands for. -/
def contents (o : SetObject) : Finset Bytes :=
  match o.storage with
  | .intset is => (is.map RespParser.toString).toFinset
  | .strset ss => ss.elems.toFinset

theorem strset_ne : ¬ SetEncoding.STRSET = .INTSET := by decide

theorem new_sound : Sound new := .intset List.Pairwise.nil (by simp)

theorem mem_intset {is : Intset} {m : Bytes} :
    m ∈ contents ⟨.INTSET, .intset is⟩ ↔ ∃ v ∈ is, RespParser.toString v = m := by
  simp [contents]

theorem mem_strset {ss : StrSet} {m : Bytes} :
    m ∈ contents ⟨.STRSET, .strset ss⟩ ↔ m ∈ ss.elems := by
  simp [contents]

/-- A rendered value is a member exactly when it is in the intset. -/
theorem toString_mem_intset {is : Intset} {v : Int} :
    RespParser.toString v ∈ contents ⟨.INTSET, .intset is⟩ ↔ v ∈ is := by
  rw [mem_intset]
  constructor
  · rintro ⟨w, hw, heq⟩
    exact toString_injective heq ▸ hw
  · exact fun hv => ⟨v, hv, rfl⟩

/-! ## Queries -/

theorem nodup_intset {is : Intset} (hasc : Ascending is) :
    (is.map RespParser.toString).Nodup :=
  List.Nodup.map (fun _ _ => toString_injective) (hasc.imp ne_of_lt)

theorem card_intset {is : Intset} (hasc : Ascending is) :
    (contents ⟨.INTSET, .intset is⟩).card = is.length := by
  rw [contents, List.toFinset_card_of_nodup (nodup_intset hasc), List.length_map]

theorem size_ok {o : SetObject} (h : Sound o) : o.size = .ok o.contents.card := by
  cases h with
  | @intset is hasc hfits =>
    simp only [size, getIntset, card_intset hasc, ↓reduceIte, Exec.pure_eq, Exec.ok_bind,
      Intset.size]
  | strset ss =>
    simp only [size, getStrset, contents, strset_ne, ↓reduceIte, Exec.pure_eq, Exec.ok_bind,
      List.toFinset_card_of_nodup ss.nodup]

/-- `members` lists every member once. -/
theorem members_ok (order : StrSet.Iteration) {o : SetObject} (h : Sound o) :
    ∃ l, o.members order = .ok l ∧ l.Nodup ∧ ∀ m, m ∈ l ↔ m ∈ o.contents := by
  cases h with
  | @intset is hasc hfits =>
    refine ⟨_, rfl, nodup_intset hasc, fun m => ?_⟩
    rw [mem_intset, List.mem_map]
  | strset ss =>
    refine ⟨_, rfl, (order.perm ss).nodup_iff.mpr ss.nodup, fun m => ?_⟩
    rw [mem_strset, (order.perm ss).mem_iff]

/-- In an intset a string is found by the value it is read as. -/
theorem contains_intset {is : Intset} (hasc : Ascending is) (m : Bytes) :
    contains m ⟨.INTSET, .intset is⟩ = .ok (decide (∃ v ∈ is, tryParseInt m = some v)) := by
  cases hparse : tryParseInt m with
  | none =>
    simp only [contains, ↓reduceIte, hparse, Exec.pure_eq]
    simp
  | some v =>
    simp only [contains, ↓reduceIte, hparse, getIntset, Exec.pure_eq, Exec.ok_bind]
    congr 1
    rw [Bool.eq_iff_iff, Intset.contains_iff hasc, decide_eq_true_iff]
    simp

theorem contains_strset (ss : StrSet) (m : Bytes) :
    contains m ⟨.STRSET, .strset ss⟩ = .ok (decide (m ∈ contents ⟨.STRSET, .strset ss⟩)) := by
  simp only [contains, strset_ne, ↓reduceIte, getStrset, Exec.pure_eq, Exec.ok_bind, mem_strset,
    List.contains_eq_mem]

/-- A rendered 64-bit integer is found exactly when it is a member. -/
theorem contains_toString {o : SetObject} (h : Sound o) {v : Int} (hv : Fits v) :
    o.contains (RespParser.toString v) =
      .ok (decide (RespParser.toString v ∈ o.contents)) := by
  cases h with
  | @intset is hasc hfits =>
    rw [contains_intset hasc, tryParseInt_toString hv]
    congr 2
    rw [toString_mem_intset]
    simp
  | strset ss => exact contains_strset ss _

/-! ## Promotion -/

theorem mem_emplaceAll (is : Intset) (s : StrSet) (m : Bytes) :
    m ∈ (emplaceAll is s).elems ↔ m ∈ s.elems ∨ ∃ v ∈ is, RespParser.toString v = m := by
  induction is generalizing s with
  | nil => simp [emplaceAll]
  | cons v is ih =>
    have hsplit : (∃ w ∈ v :: is, RespParser.toString w = m) ↔
        m = RespParser.toString v ∨ ∃ w ∈ is, RespParser.toString w = m := by
      rw [List.exists_mem_cons_iff, eq_comm]
    rw [emplaceAll, ih, (StrSet.insert_spec _ s).2, hsplit, or_assoc, or_left_comm]

theorem promote_ok {o : SetObject} (h : Sound o) :
    ∃ ss, o.promoteToStrset = .ok ⟨.STRSET, .strset ss⟩ ∧
      contents ⟨.STRSET, .strset ss⟩ = o.contents := by
  cases h with
  | @intset is hasc hfits =>
    refine ⟨emplaceAll is .empty, rfl, ?_⟩
    ext m
    rw [mem_strset, mem_emplaceAll, mem_intset]
    simp [StrSet.empty]
  | strset ss => exact ⟨ss, rfl, rfl⟩

/-! ## Additions and removals -/

/-- An integer that finds room in an intset is added by its value. -/
theorem add_intset {is : Intset} (hasc : Ascending is) (hfits : ∀ v ∈ is, Fits v) {m : Bytes}
    {v : Int} (hparse : tryParseInt m = some v) (hroom : is.length < INTSET_MAX_ENTRIES) :
    ∃ is', add m ⟨.INTSET, .intset is⟩ = .ok (decide (v ∉ is), ⟨.INTSET, .intset is'⟩) ∧
      Sound ⟨.INTSET, .intset is'⟩ ∧
      contents ⟨.INTSET, .intset is'⟩ =
        insert (RespParser.toString v) (contents ⟨.INTSET, .intset is⟩) := by
  have hrun : add m ⟨.INTSET, .intset is⟩ =
      .ok ((Intset.insert v is).1, ⟨.INTSET, .intset (Intset.insert v is).2⟩) := by
    simp only [add, ↓reduceIte, hparse, shouldUseIntset, ne_eq, not_true_eq_false, getIntset,
      Exec.pure_eq, Exec.ok_bind, Intset.size, hroom, decide_true]
  by_cases hv : v ∈ is
  · rw [Intset.insert_present hasc hv] at hrun
    refine ⟨is, by simpa [hv] using hrun, .intset hasc hfits, ?_⟩
    rw [Finset.insert_eq_of_mem (toString_mem_intset.mpr hv)]
  · obtain ⟨is', hins, hasc', _, hmem⟩ := Intset.insert_absent hasc hv
    rw [hins] at hrun
    refine ⟨is', by simpa [hv] using hrun, .intset hasc' ?_, ?_⟩
    · intro w hw
      rcases (hmem w).mp hw with rfl | hw
      · exact ((tryParseInt_iff m w).mp hparse).2
      · exact hfits w hw
    · ext x
      rw [Finset.mem_insert, mem_intset, mem_intset]
      simp only [hmem, or_and_right, exists_or, exists_eq_left, @eq_comm _ x]

theorem insertString_strset (m : Bytes) (ss : StrSet) :
    ∃ ss', insertString m ⟨.STRSET, .strset ss⟩ =
        .ok (decide (m ∉ contents ⟨.STRSET, .strset ss⟩), ⟨.STRSET, .strset ss'⟩) ∧
      contents ⟨.STRSET, .strset ss'⟩ = insert m (contents ⟨.STRSET, .strset ss⟩) := by
  obtain ⟨hnew, hmem⟩ := StrSet.insert_spec m ss
  refine ⟨(ss.insert m).2, ?_, ?_⟩
  · simp only [insertString, getStrset, Exec.pure_eq, Exec.ok_bind, hnew, mem_strset]
  · ext x
    rw [Finset.mem_insert, mem_strset, mem_strset, hmem]

/-- The additions that leave a string set behind. -/
def Promotes (m : Bytes) (o : SetObject) : Prop :=
  tryParseInt m = none ∨ INTSET_MAX_ENTRIES ≤ o.contents.card

theorem add_strset (m : Bytes) (ss : StrSet) :
    add m ⟨.STRSET, .strset ss⟩ = insertString m ⟨.STRSET, .strset ss⟩ :=
  if_neg fun h => by cases h

/-- An addition that promotes adds its string to the promoted set. -/
theorem add_promotes {o : SetObject} (h : Sound o) {m : Bytes} (hp : Promotes m o) :
    ∃ ss', o.add m = .ok (decide (m ∉ o.contents), ⟨.STRSET, .strset ss'⟩) ∧
      contents ⟨.STRSET, .strset ss'⟩ = insert m o.contents := by
  obtain ⟨ss, hrun, hsame⟩ := promote_ok h
  obtain ⟨ss', hins, hmem⟩ := insertString_strset m ss
  rw [hsame] at hins hmem
  refine ⟨ss', ?_, hmem⟩
  rw [← hins]
  cases h with
  | @intset is hasc hfits =>
    cases hparse : tryParseInt m with
    | none => simp only [add, ↓reduceIte, hparse, hrun, Exec.ok_bind]
    | some v =>
      have hfull : ¬ is.length < INTSET_MAX_ENTRIES := by
        rcases hp with hp | hp
        · rw [hparse] at hp
          cases hp
        · rw [card_intset hasc] at hp
          omega
      simp only [add, ↓reduceIte, hparse, shouldUseIntset, ne_eq, not_true_eq_false, getIntset,
        Exec.pure_eq, Exec.ok_bind, Intset.size, hfull, decide_false, Bool.false_eq_true, hrun]
  | strset ss₀ =>
    cases hrun
    exact add_strset m _

theorem remove_intset {is : Intset} (hasc : Ascending is) (hfits : ∀ v ∈ is, Fits v) {m : Bytes}
    {v : Int} (hparse : tryParseInt m = some v) :
    ∃ is', remove m ⟨.INTSET, .intset is⟩ = .ok (decide (v ∈ is), ⟨.INTSET, .intset is'⟩) ∧
      Sound ⟨.INTSET, .intset is'⟩ ∧
      contents ⟨.INTSET, .intset is'⟩ =
        (contents ⟨.INTSET, .intset is⟩).erase (RespParser.toString v) := by
  have hrun : remove m ⟨.INTSET, .intset is⟩ =
      .ok ((Intset.erase v is).1, ⟨.INTSET, .intset (Intset.erase v is).2⟩) := by
    simp only [remove, ↓reduceIte, hparse, getIntset, Exec.pure_eq, Exec.ok_bind]
  by_cases hv : v ∈ is
  · obtain ⟨is', hdel, hasc', _, hmem⟩ := Intset.erase_present hasc hv
    rw [hdel] at hrun
    refine ⟨is', by simpa [hv] using hrun, .intset hasc' fun w hw => hfits w ((hmem w).mp hw).1, ?_⟩
    ext x
    rw [Finset.mem_erase, mem_intset, mem_intset]
    constructor
    · rintro ⟨w, hw, rfl⟩
      obtain ⟨hw, hne⟩ := (hmem w).mp hw
      exact ⟨fun heq => hne (toString_injective heq), w, hw, rfl⟩
    · rintro ⟨hne, w, hw, rfl⟩
      exact ⟨w, (hmem w).mpr ⟨hw, fun heq => hne (by rw [heq])⟩, rfl⟩
  · rw [Intset.erase_absent hasc hv] at hrun
    refine ⟨is, by simpa [hv] using hrun, .intset hasc hfits, ?_⟩
    rw [Finset.erase_eq_of_notMem (mt toString_mem_intset.mp hv)]

theorem remove_unread {is : Intset} {m : Bytes} (hparse : tryParseInt m = none) :
    remove m ⟨.INTSET, .intset is⟩ = .ok (false, ⟨.INTSET, .intset is⟩) := by
  simp only [remove, ↓reduceIte, hparse, Exec.pure_eq]

theorem remove_strset (m : Bytes) (ss : StrSet) :
    ∃ ss', remove m ⟨.STRSET, .strset ss⟩ =
        .ok (decide (m ∈ contents ⟨.STRSET, .strset ss⟩), ⟨.STRSET, .strset ss'⟩) ∧
      contents ⟨.STRSET, .strset ss'⟩ = (contents ⟨.STRSET, .strset ss⟩).erase m := by
  obtain ⟨hold, hmem⟩ := StrSet.erase_spec m ss
  refine ⟨(ss.erase m).2, ?_, ?_⟩
  · simp only [remove, strset_ne, ↓reduceIte, getStrset, Exec.pure_eq, Exec.ok_bind, hold,
      mem_strset]
  · ext x
    rw [Finset.mem_erase, mem_strset, mem_strset, hmem, and_comm]

/-! ## Runs -/

inductive Op where
  | add (member : Bytes)
  | remove (member : Bytes)
  | contains (member : Bytes)
  | size
  | members
  deriving DecidableEq, Repr

inductive Answer where
  | flag (b : Bool)
  | count (n : Nat)
  | listing (l : List Bytes)
  deriving DecidableEq, Repr

/-- One call on an object, for one order of its string set. -/
def step (order : StrSet.Iteration) (op : Op) (o : SetObject) : Exec (Answer × SetObject) :=
  match op with
  | .add member => do
      let (b, o) ← o.add member
      pure (.flag b, o)
  | .remove member => do
      let (b, o) ← o.remove member
      pure (.flag b, o)
  | .contains member => do
      let b ← o.contains member
      pure (.flag b, o)
  | .size => do
      let n ← o.size
      pure (.count n, o)
  | .members => do
      let l ← o.members order
      pure (.listing l, o)

theorem add_sound {o : SetObject} (h : Sound o) (m : Bytes) :
    ∃ b o', o.add m = .ok (b, o') ∧ Sound o' := by
  by_cases hp : Promotes m o
  · obtain ⟨ss, hrun, _⟩ := add_promotes h hp
    exact ⟨_, _, hrun, .strset ss⟩
  · cases h with
    | @intset is hasc hfits =>
      obtain ⟨hparse, hroom⟩ := not_or.mp hp
      obtain ⟨v, hv⟩ := Option.ne_none_iff_exists'.mp hparse
      rw [card_intset hasc] at hroom
      obtain ⟨is', hrun, hs, _⟩ := add_intset hasc hfits hv (by omega)
      exact ⟨_, _, hrun, hs⟩
    | strset ss =>
      obtain ⟨ss', hrun, _⟩ := insertString_strset m ss
      exact ⟨_, _, (add_strset m ss).trans hrun, .strset ss'⟩

theorem remove_sound {o : SetObject} (h : Sound o) (m : Bytes) :
    ∃ b o', o.remove m = .ok (b, o') ∧ Sound o' := by
  cases h with
  | @intset is hasc hfits =>
    cases hparse : tryParseInt m with
    | none => exact ⟨_, _, remove_unread hparse, .intset hasc hfits⟩
    | some v =>
      obtain ⟨is', hrun, hs, _⟩ := remove_intset hasc hfits hparse
      exact ⟨_, _, hrun, hs⟩
  | strset ss =>
    obtain ⟨ss', hrun, _⟩ := remove_strset m ss
    exact ⟨_, _, hrun, .strset ss'⟩

theorem contains_ok {o : SetObject} (h : Sound o) (m : Bytes) : ∃ b, o.contains m = .ok b := by
  cases h with
  | intset hasc hfits => exact ⟨_, contains_intset hasc m⟩
  | strset ss => exact ⟨_, contains_strset ss m⟩

theorem step_sound (order : StrSet.Iteration) (o : SetObject) (op : Op) (h : Sound o) :
    ∃ a o', step order op o = .ok (a, o') ∧ Sound o' := by
  cases op with
  | add m =>
    obtain ⟨b, o', hrun, h'⟩ := add_sound h m
    exact ⟨.flag b, o', by simp only [step, hrun, Exec.ok_bind, Exec.pure_eq], h'⟩
  | remove m =>
    obtain ⟨b, o', hrun, h'⟩ := remove_sound h m
    exact ⟨.flag b, o', by simp only [step, hrun, Exec.ok_bind, Exec.pure_eq], h'⟩
  | contains m =>
    obtain ⟨b, hrun⟩ := contains_ok h m
    exact ⟨.flag b, o, by simp only [step, hrun, Exec.ok_bind, Exec.pure_eq], h⟩
  | size =>
    exact ⟨.count o.contents.card, o, by
      simp only [step, size_ok h, Exec.ok_bind, Exec.pure_eq], h⟩
  | members =>
    obtain ⟨l, hrun, _⟩ := members_ok order h
    exact ⟨.listing l, o, by simp only [step, hrun, Exec.ok_bind, Exec.pure_eq], h⟩

/-- What a promotion of `o` keeps. -/
structure KeepsMembers (order : StrSet.Iteration) (o o' : SetObject) : Prop where
  encoding : o'.encoding = .STRSET
  size : o'.size = o.size
  members : ∃ l l', o.members order = .ok l ∧ o'.members order = .ok l' ∧ l'.Nodup ∧
    ∀ m, m ∈ l' ↔ m ∈ l
  contains : ∀ v, Fits v →
    o'.contains (RespParser.toString v) = o.contains (RespParser.toString v)

theorem promote_keeps (order : StrSet.Iteration) {o : SetObject} (h : Sound o) :
    ∃ o', o.promoteToStrset = .ok o' ∧ KeepsMembers order o o' := by
  obtain ⟨ss, hrun, hsame⟩ := promote_ok h
  have h' : Sound ⟨.STRSET, .strset ss⟩ := .strset ss
  refine ⟨_, hrun, rfl, ?_, ?_, fun v hv => ?_⟩
  · rw [size_ok h, size_ok h', hsame]
  · obtain ⟨l, hl, _, hmem⟩ := members_ok order h
    obtain ⟨l', hl', hnodup', hmem'⟩ := members_ok order h'
    exact ⟨l, l', hl, hl', hnodup', fun m => by rw [hmem, hmem', hsame]⟩
  · rw [contains_toString h hv, contains_toString h' hv, hsame]

/-- **Promotion keeps the members.**  In every reachable state promotion keeps
the size, the members and the answer for every 64-bit integer; and an addition
that promotes keeps every member and counts its string if it is new. -/
theorem promotion_keeps_members (order : StrSet.Iteration) (ops : List Op) :
    ∃ answers o, Run.run (step order) ops new = .ok (answers, o) ∧
      (∃ o', o.promoteToStrset = .ok o' ∧ KeepsMembers order o o') ∧
      ∀ m n, o.size = .ok n → tryParseInt m = none ∨ INTSET_MAX_ENTRIES ≤ n →
        ∃ b o' l l', o.add m = .ok (b, o') ∧ o'.encoding = .STRSET ∧
          o'.size = .ok (n + if b then 1 else 0) ∧
          o.members order = .ok l ∧ o'.members order = .ok l' ∧ ∀ x ∈ l, x ∈ l' := by
  obtain ⟨answers, o, hrun, h⟩ :=
    Run.invariant (step_sound order) ops new new_sound
  refine ⟨answers, o, hrun, promote_keeps order h, fun m n hn hp => ?_⟩
  obtain rfl : o.contents.card = n := Except.ok.inj ((size_ok h).symm.trans hn)
  obtain ⟨ss, hadd, hcontents⟩ := add_promotes h hp
  have h' : Sound ⟨.STRSET, .strset ss⟩ := .strset ss
  obtain ⟨l, hl, _, hmem⟩ := members_ok order h
  obtain ⟨l', hl', _, hmem'⟩ := members_ok order h'
  refine ⟨_, _, l, l', hadd, rfl, ?_, hl, hl', fun x hx => ?_⟩
  · rw [size_ok h', hcontents]
    by_cases hm : m ∈ o.contents
    · simp [hm]
    · simp [hm]
  · rw [hmem', hcontents]
    exact Finset.mem_insert_of_mem ((hmem x).mp hx)

end SetObject

end MiniRedis
