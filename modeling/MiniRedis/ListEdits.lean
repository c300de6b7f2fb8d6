import MiniRedis.Lib.ListEdit
import MiniRedis.ListObject

/-!
What `insert`, `remove` and `trim` leave of a list, in either encoding.
-/

namespace MiniRedis.ListObject

open ListEdit

/-- The object that holds a content in an encoding. -/
def ofContent : ListEncoding → List Bytes → ListObject
  | .ZIPLIST, xs => ⟨.ZIPLIST, .ziplist xs⟩
  | .LINKEDLIST, xs => ⟨.LINKEDLIST, .linkedlist xs⟩

theorem size_ofContent (e : ListEncoding) (xs : List Bytes) :
    size (ofContent e xs) = .ok xs.length := by
  cases e <;> rfl

theorem promoteToLinkedlist_ofContent (e : ListEncoding) (xs : List Bytes) :
    promoteToLinkedlist (ofContent e xs) = .ok (ofContent .LINKEDLIST xs) := by
  cases e <;> rfl

/-! ## `insert` -/

/-- The value on its side of the pivot. -/
def placed (pivot value : Bytes) : InsertPosition → List Bytes
  | .BEFORE => [value, pivot]
  | .AFTER => [pivot, value]

/-- Without the pivot nothing changes; otherwise the value comes next to its
first occurrence and the size grows by one. -/
def Inserts (pivot value : Bytes) (pos : InsertPosition) (e : ListEncoding) (xs : List Bytes) :
    Prop :=
  (pivot ∉ xs → ∃ e', insert pivot value pos (ofContent e xs) = .ok (false, ofContent e' xs)) ∧
    ∀ front back, xs = front ++ pivot :: back → pivot ∉ front →
      ∃ o', insert pivot value pos (ofContent e xs) = .ok (true, o') ∧
        (∃ e', o' = ofContent e' (front ++ placed pivot value pos ++ back)) ∧
        size o' = .ok (xs.length + 1)

theorem idxOf_front {pivot : Bytes} {front : List Bytes} (h : pivot ∉ front) (back : List Bytes) :
    (front ++ pivot :: back).idxOf pivot = front.length := by
  rw [List.idxOf_append_of_notMem h, List.idxOf_cons_self, Nat.add_zero]

theorem insertIdx_front (front back : List Bytes) (value : Bytes) (i : Nat) :
    (front ++ back).insertIdx (front.length + i) value = front ++ back.insertIdx i value := by
  induction front with
  | nil => simp
  | cons x front ih =>
    rw [List.cons_append, List.length_cons, Nat.add_right_comm, List.insertIdx_succ_cons, ih]
    rfl

theorem insertBeside_front (pos : InsertPosition) (front back : List Bytes) (pivot value : Bytes) :
    insertBeside pos front.length value (front ++ pivot :: back) =
      front ++ placed pivot value pos ++ back := by
  cases pos with
  | BEFORE => simpa [insertBeside, placed] using insertIdx_front front (pivot :: back) value 0
  | AFTER => simpa [insertBeside, placed] using insertIdx_front front (pivot :: back) value 1

/-- A deque is left as it is, whatever it holds. -/
theorem insert_linkedlist (pivot value : Bytes) (pos : InsertPosition) (xs : List Bytes) :
    insert pivot value pos (ofContent .LINKEDLIST xs) = .ok (true, ofContent .LINKEDLIST xs) := rfl

theorem insert_oversize {pivot value : Bytes} {pos : InsertPosition} {xs : List Bytes}
    (h : value.length > ZIPLIST_MAX_ENTRY_SIZE) :
    insert pivot value pos (ofContent .ZIPLIST xs) = .ok (true, ofContent .LINKEDLIST xs) := by
  rw [insert, if_pos ⟨rfl, h⟩, promoteToLinkedlist_ofContent]
  rfl

/-- A small value goes beside the place that the search finds, if it finds one. -/
theorem insert_small {value : Bytes} (hvalue : value.length ≤ ZIPLIST_MAX_ENTRY_SIZE)
    (pivot : Bytes) (pos : InsertPosition) (xs : List Bytes) :
    (xs.idxOf pivot = xs.length →
      insert pivot value pos (ofContent .ZIPLIST xs) = .ok (false, ofContent .ZIPLIST xs)) ∧
    (xs.idxOf pivot ≠ xs.length → ∃ e', insert pivot value pos (ofContent .ZIPLIST xs) =
      .ok (true, ofContent e' (insertBeside pos (xs.idxOf pivot) value xs))) := by
  have hsmall : ¬ ((ofContent .ZIPLIST xs).encoding = .ZIPLIST ∧
      value.length > ZIPLIST_MAX_ENTRY_SIZE) := fun h => Nat.not_lt.mpr hvalue h.2
  rw [insert, if_neg hsmall]
  simp only [ofContent, getZiplist, Exec.pure_eq, Exec.ok_bind, ↓reduceIte]
  constructor
  · intro hnone
    rw [if_pos hnone]
  · intro hfound
    rw [if_neg hfound]
    split
    · exact ⟨.LINKEDLIST, rfl⟩
    · exact ⟨.ZIPLIST, rfl⟩

theorem insert_present {pivot value : Bytes} (pos : InsertPosition) {front : List Bytes}
    (back : List Bytes) (hvalue : value.length ≤ ZIPLIST_MAX_ENTRY_SIZE) (hfront : pivot ∉ front) :
    ∃ e', insert pivot value pos (ofContent .ZIPLIST (front ++ pivot :: back)) =
      .ok (true, ofContent e' (front ++ placed pivot value pos ++ back)) := by
  have hidx := idxOf_front hfront back
  have hfound : (front ++ pivot :: back).idxOf pivot ≠ (front ++ pivot :: back).length := by
    simp [hidx]
  obtain ⟨e', hinsert⟩ := (insert_small hvalue pivot pos (front ++ pivot :: back)).2 hfound
  rw [hidx, insertBeside_front] at hinsert
  exact ⟨e', hinsert⟩

theorem insert_absent {pivot value : Bytes} (pos : InsertPosition) {xs : List Bytes}
    (hvalue : value.length ≤ ZIPLIST_MAX_ENTRY_SIZE) (hpivot : pivot ∉ xs) :
    insert pivot value pos (ofContent .ZIPLIST xs) = .ok (false, ofContent .ZIPLIST xs) :=
  (insert_small hvalue pivot pos xs).1 (List.idxOf_of_notMem hpivot)

/-- Where the answer is `true` and nothing changes, the promise is broken: either
the pivot was not there or the value still is not. -/
theorem not_inserts {pivot value : Bytes} {pos : InsertPosition} {e e' : ListEncoding}
    {xs : List Bytes}
    (h : insert pivot value pos (ofContent e xs) = .ok (true, ofContent e' xs)) :
    ¬ Inserts pivot value pos e xs := by
  rintro ⟨habsent, hpresent⟩
  by_cases hpivot : pivot ∈ xs
  · obtain ⟨front, back, hsplit, hfront⟩ := List.eq_append_cons_of_mem hpivot
    obtain ⟨o', hinsert, _, hsize⟩ := hpresent front back hsplit hfront
    rw [h] at hinsert
    cases hinsert
    rw [size_ofContent] at hsize
    have hlen := Except.ok.inj hsize
    omega
  · obtain ⟨e'', hinsert⟩ := habsent hpivot
    rw [h] at hinsert
    cases hinsert

/-- **`insert` does what it says exactly when** the list is a ziplist and the
value is small enough for it to stay one until the search. -/
theorem inserts_iff (pivot value : Bytes) (pos : InsertPosition) (e : ListEncoding)
    (xs : List Bytes) :
    Inserts pivot value pos e xs ↔ e = .ZIPLIST ∧ value.length ≤ ZIPLIST_MAX_ENTRY_SIZE := by
  cases e with
  | LINKEDLIST =>
    refine iff_of_false (not_inserts (insert_linkedlist pivot value pos xs)) ?_
    rintro ⟨htag, _⟩
    cases htag
  | ZIPLIST =>
    by_cases hvalue : value.length ≤ ZIPLIST_MAX_ENTRY_SIZE
    · refine iff_of_true ⟨fun hpivot => ⟨_, insert_absent pos hvalue hpivot⟩, ?_⟩ ⟨rfl, hvalue⟩
      rintro front back rfl hfront
      obtain ⟨e', hinsert⟩ := insert_present pos back hvalue hfront
      refine ⟨_, hinsert, ⟨e', rfl⟩, ?_⟩
      rw [size_ofContent]
      cases pos <;> simp [placed] <;> omega
    · exact iff_of_false (not_inserts (insert_oversize (Nat.lt_of_not_le hvalue)))
        fun h => hvalue h.2

/-- Before `a` in the deque `[a]`: the answer is `true`, the deque is the same. -/
theorem linked_insert_is_lost :
    ¬ ∀ pivot value pos e xs, Inserts pivot value pos e xs := by
  intro h
  exact not_inserts (insert_linkedlist [97] [98] .BEFORE [[97]])
    (h [97] [98] .BEFORE .LINKEDLIST [[97]])

/-! ## `remove` -/

/-- How many of `m` occurrences a count asks for. -/
def quota (count : Int) (m : Nat) : Nat := if count = 0 then m else min count.natAbs m

/-- The list without the first, the last or all of the occurrences. -/
def remaining (count : Int) (value : Bytes) (xs : List Bytes) : List Bytes :=
  if count > 0 then eraseFirst value (quota count (xs.count value)) xs
  else if count < 0 then eraseLast value (quota count (xs.count value)) xs
  else xs.filter fun x => x != value

/-- `LREM`. -/
def Removes (count : Int) (value : Bytes) (e : ListEncoding) (xs : List Bytes) : Prop :=
  remove count value (ofContent e xs) =
    .ok (quota count (xs.count value), ofContent e (remaining count value xs))

theorem eraseIdx_front (front back : List Bytes) (x : Bytes) :
    (front ++ x :: back).eraseIdx front.length = front ++ back := by
  rw [List.eraseIdx_append_of_length_le (Nat.le_refl _), Nat.sub_self]
  rfl

/-- The loop goes on for `b` more removals, as far as there is anything to remove. -/
def Budget (more : Int → Bool) (removed : Int) (b m : Nat) : Prop :=
  ∀ k : Nat, k < m → (more (removed + k) = true ↔ k < b)

theorem Budget.go {more : Int → Bool} {removed : Int} {b m : Nat} (h : Budget more removed b m)
    (hm : 0 < m) : more removed = true ↔ 0 < b := by
  have hzero := h 0 hm
  rwa [Nat.cast_zero, Int.add_zero] at hzero

/-- A loop that goes on has one removal less left behind the next. -/
theorem Budget.next {more : Int → Bool} {removed : Int} {b m : Nat}
    (h : Budget more removed b (m + 1)) (hgo : more removed = true) :
    ∃ b', b = b' + 1 ∧ Budget more (removed + 1) b' m := by
  have hpos : 0 < b := (h.go (Nat.succ_pos m)).mp hgo
  refine ⟨b - 1, by omega, fun k hk => ?_⟩
  have hnext := h (k + 1) (by omega)
  rw [Nat.cast_succ, ← Int.add_assoc, Int.add_right_comm] at hnext
  rw [hnext]
  omega

/-- A loop that stops has nothing left to remove. -/
theorem Budget.stop {more : Int → Bool} {removed : Int} {b m : Nat} (h : Budget more removed b m)
    (hstop : ¬ more removed = true) : min b m = 0 := by
  by_contra hne
  exact hstop ((h.go (by omega)).mpr (by omega))

theorem budget_count (count : Int) (m : Nat) :
    Budget (fun removed => decide (removed < count)) 0 count.toNat m := by
  intro k _
  rw [decide_eq_true_iff]
  omega

theorem budget_all (m : Nat) : Budget (fun _ => true) 0 m m :=
  fun _ hk => iff_of_true rfl hk

theorem eraseForward_ok {value : Bytes} {more : Int → Bool} {b : Nat} (front back : List Bytes)
    (removed : Int) (hmore : Budget more removed b (back.count value)) :
    eraseForward value more back.length (front ++ back) removed =
      .ok (removed + min b (back.count value),
        front ++ eraseFirst value (min b (back.count value)) back) := by
  induction back generalizing front removed b with
  | nil => simp [eraseForward, eraseFirst_nil]
  | cons x back ih =>
    rw [List.length_cons, eraseForward]
    split
    · next hgo =>
      have hit : (front ++ x :: back).length - (back.length + 1) = front.length := by simp
      have hx : at? (front ++ x :: back) front.length = .ok x := at?_ok (by simp)
      simp only [hit, hx, Exec.ok_bind]
      split
      · next heq =>
        subst heq
        rw [List.count_cons_self] at hmore ⊢
        obtain ⟨b, rfl, hnext⟩ := hmore.next hgo
        rw [eraseIdx_front, ih front (removed + 1) hnext, Nat.succ_min_succ, eraseFirst_cons_self]
        congr 2
        omega
      · next hne =>
        rw [List.count_cons_of_ne hne] at hmore ⊢
        rw [List.append_cons, ih (front ++ [x]) removed hmore, eraseFirst_cons_ne hne,
          List.append_assoc, List.singleton_append]
    · next hstop =>
      rw [hmore.stop hstop, eraseFirst_zero]
      simp

theorem eraseBackward_ok {value : Bytes} {more : Int → Bool} {b : Nat} (front back : List Bytes)
    (removed : Int) (hmore : Budget more removed b (front.count value)) :
    eraseBackward value more front.length (front ++ back) removed =
      .ok (removed + min b (front.count value),
        eraseLast value (min b (front.count value)) front ++ back) := by
  induction front using List.reverseRecOn generalizing back removed b with
  | nil => simp [eraseBackward, eraseLast, eraseFirst_nil]
  | append_singleton front x ih =>
    rw [List.length_append, List.length_singleton, eraseBackward, List.append_assoc,
      List.singleton_append]
    split
    · next hgo =>
      have hx : at? (front ++ x :: back) front.length = .ok x := at?_ok (by simp)
      simp only [hx, Exec.ok_bind]
      split
      · next heq =>
        subst heq
        rw [List.count_append, List.count_singleton_self] at hmore ⊢
        obtain ⟨b, rfl, hnext⟩ := hmore.next hgo
        rw [eraseIdx_front, ih back (removed + 1) hnext, Nat.succ_min_succ, eraseLast_concat_self]
        congr 2
        omega
      · next hne =>
        have hcount : (front ++ [x]).count value = front.count value := by
          rw [List.count_append, List.count_cons_of_ne hne, List.count_nil, Nat.add_zero]
        rw [hcount] at hmore ⊢
        rw [ih (x :: back) removed hmore, eraseLast_concat_ne hne, List.append_assoc,
          List.singleton_append]
    · next hstop =>
      rw [hmore.stop hstop]
      simp [eraseLast_zero]

theorem negate_ok {count : Int} (h : LLONG_MIN < count) : negate count = .ok (-count) := by
  have hfits : ¬ -count > LLONG_MAX := by
    rw [LLONG_MIN] at h
    rw [LLONG_MAX]
    omega
  rw [negate, if_neg hfits]
  rfl

theorem removeLoops_ok {count : Int} (hcount : LLONG_MIN < count) (value : Bytes)
    (xs : List Bytes) :
    removeLoops count value xs =
      .ok (quota count (xs.count value), remaining count value xs) := by
  rw [removeLoops, remaining, quota]
  split
  · next hpos =>
    have hquota : min count.toNat (xs.count value) = min count.natAbs (xs.count value) := by omega
    have hloop := eraseForward_ok [] xs 0 (budget_count count (xs.count value))
    rw [if_neg (by omega)]
    rwa [hquota, Int.zero_add, List.nil_append, List.nil_append] at hloop
  · split
    · next hneg =>
      have hquota : min (-count).toNat (xs.count value) = min count.natAbs (xs.count value) := by
        omega
      have hloop := eraseBackward_ok xs [] 0 (budget_count (-count) (xs.count value))
      rw [negate_ok hcount, Exec.ok_bind, if_neg (by omega)]
      rwa [hquota, Int.zero_add, List.append_nil, List.append_nil] at hloop
    · have hloop := eraseForward_ok [] xs 0 (budget_all (xs.count value))
      rw [if_pos (by omega), ← eraseFirst_all]
      rwa [Nat.min_self, Int.zero_add, List.nil_append, List.nil_append] at hloop

theorem removeLoops_min {count : Int} (hcount : count ≤ LLONG_MIN) (value : Bytes)
    (xs : List Bytes) : removeLoops count value xs = .error .undefined := by
  rw [LLONG_MIN] at hcount
  have hpos : ¬ count > 0 := by omega
  have hneg : count < 0 := by omega
  have hover : -count > LLONG_MAX := by
    rw [LLONG_MAX]
    omega
  rw [removeLoops, if_neg hpos, if_pos hneg, negate, if_pos hover]
  rfl

/-- On a list with elements `remove` is its loops. -/
theorem remove_nonempty (count : Int) (value : Bytes) (e : ListEncoding) {xs : List Bytes}
    (hxs : xs ≠ []) :
    remove count value (ofContent e xs) =
      removeLoops count value xs >>= fun r => .ok (r.1, ofContent e r.2) := by
  have hsize : ¬ xs.length = 0 := by simpa using hxs
  rw [remove, size_ofContent]
  cases e <;> simp [ofContent, getZiplist, getLinkedlist, hsize]

theorem remove_nil (count : Int) (value : Bytes) (e : ListEncoding) : Removes count value e [] := by
  have hquota : quota count 0 = 0 := by simp [quota]
  have hrem : remaining count value [] = [] := by simp [remaining, eraseFirst_nil, eraseLast]
  rw [Removes, List.count_nil, hquota, hrem]
  cases e <;> rfl

theorem remove_ok {count : Int} (hcount : LLONG_MIN < count) (value : Bytes) (e : ListEncoding)
    (xs : List Bytes) : Removes count value e xs := by
  by_cases hxs : xs = []
  · subst hxs
    exact remove_nil count value e
  · rw [Removes, remove_nonempty count value e hxs, removeLoops_ok hcount, Exec.ok_bind]

/-- **`remove` is `LREM` exactly when** its count can be negated or the list is
empty: from the front, from the back or everywhere, in both encodings alike. -/
theorem removes_iff (count : Int) (value : Bytes) (e : ListEncoding) (xs : List Bytes) :
    Removes count value e xs ↔ LLONG_MIN < count ∨ xs = [] := by
  by_cases hxs : xs = []
  · subst hxs
    exact iff_of_true (remove_nil count value e) (Or.inr rfl)
  · by_cases hcount : LLONG_MIN < count
    · exact iff_of_true (remove_ok hcount value e xs) (Or.inl hcount)
    · rw [Removes, remove_nonempty count value e hxs, removeLoops_min (Int.not_lt.mp hcount)]
      refine iff_of_false (fun h => by cases h) ?_
      rintro (h | h)
      · exact hcount h
      · exact hxs h

/-- The lowest count overflows as soon as there is an element. -/
theorem lowest_count_overflows :
    ¬ ∀ count value e xs, LLONG_MIN ≤ count → count ≤ LLONG_MAX → Removes count value e xs := by
  intro h
  have hremoves := h LLONG_MIN [97] .ZIPLIST [[97]] (Int.le_refl _) (by decide)
  rw [Removes, remove_nonempty _ _ _ (by decide), removeLoops_min (Int.le_refl _)] at hremoves
  cases hremoves

/-! ## `trim` -/

/-- The value fits an `int`. -/
def IsInt (x : Int) : Prop := INT_MIN ≤ x ∧ x ≤ INT_MAX

instance (x : Int) : Decidable (IsInt x) := inferInstanceAs (Decidable (_ ∧ _))

/-- A negative index counts from the end. -/
def fromEnd (sz : Nat) (idx : Int) : Int := if idx < 0 then idx + sz else idx

/-- The positions of `LTRIM`. -/
def Kept (start stop : Int) (sz i : Nat) : Prop :=
  max 0 (fromEnd sz start) ≤ i ∧ (i : Int) ≤ min (fromEnd sz stop) (sz - 1)

instance (start stop : Int) (sz : Nat) : DecidablePred (Kept start stop sz) :=
  fun _ => inferInstanceAs (Decidable (_ ∧ _))

/-- A sum that fits an `int` survives the detour over `size_t`. -/
theorem addSize_ok {idx : Int} {sz : Nat} (hsz : (sz : Int) ≤ INT_MAX) (hidx : IsInt idx)
    (hneg : idx < 0) : addSize idx sz = idx + sz := by
  have hlow : INT_MIN ≤ idx := hidx.1
  rw [INT_MIN] at hlow
  rw [INT_MAX] at hsz
  have hcut : ((idx + sz) % 2 ^ 64).bmod (2 ^ 32) = (idx + sz).bmod (2 ^ 32) := by
    rw [← Int.emod_bmod, Int.emod_emod_of_dvd _ (by decide), Int.emod_bmod]
  rw [addSize, hcut]
  exact Int.bmod_eq_of_le (by omega) (by omega)

/-- Below the list is -1, above it its length. -/
theorem norm_ok {idx : Int} {sz : Nat} (hsz : (sz : Int) ≤ INT_MAX) (hidx : IsInt idx) :
    norm sz idx = max (-1) (min (fromEnd sz idx) sz) := by
  have hfrom : (if idx < 0 then addSize idx sz else idx) = fromEnd sz idx := by
    rw [fromEnd]
    split
    · next hneg => exact addSize_ok hsz hidx hneg
    · rfl
  simp only [norm, hfrom]
  split
  · omega
  · split <;> omega

/-- The range that is found holds the kept positions; without one there are none. -/
theorem normalizeRange_spec {start stop : Int} {sz : Nat} (hsz : (sz : Int) ≤ INT_MAX)
    (hstart : IsInt start) (hstop : IsInt stop) :
    (normalizeRange start stop sz = none ∧ ∀ i < sz, ¬ Kept start stop sz i) ∨
      ∃ l r, normalizeRange start stop sz = some (l, r) ∧ l ≤ r ∧ r < sz ∧
        ∀ i < sz, (Kept start stop sz i ↔ l ≤ i ∧ i < r + 1) := by
  simp only [normalizeRange, norm_ok hsz hstart, norm_ok hsz hstop, Kept]
  generalize fromEnd sz start = s
  generalize fromEnd sz stop = e
  have hl : (if max (-1) (min s (sz : Int)) = -1 then 0 else max (-1) (min s (sz : Int))) =
      max 0 (min s sz) := by split <;> omega
  have hr : (if max (-1) (min e (sz : Int)) ≥ sz then (sz : Int) - 1
      else max (-1) (min e (sz : Int))) = max (-1) (min e (sz - 1)) := by split <;> omega
  rw [hl, hr]
  split
  · exact Or.inl ⟨rfl, fun i hi => by omega⟩
  · split
    · exact Or.inl ⟨rfl, fun i hi => by omega⟩
    · refine Or.inr ⟨_, _, rfl, ?_⟩
      rw [toSizeT, if_pos (by omega), toSizeT, if_pos (by omega)]
      exact ⟨by omega, by omega, fun i hi => by omega⟩

theorem advance_ok {elems : List Bytes} {it n target : Nat} (htarget : it + n = target)
    (h : target ≤ elems.length) : advance elems it n = .ok target := by
  rw [advance, htarget, if_pos h]
  rfl

/-- Both iterators are inside the container. -/
theorem copyRange_ok {elems : List Bytes} {l r : Nat} (hlr : l ≤ r) (hr : r < elems.length) :
    copyRange elems l r = .ok ((elems.drop l).take (r + 1 - l)) := by
  have hfirst : advance elems 0 l = .ok l := advance_ok (Nat.zero_add l) (by omega)
  have hlast : advance elems 0 r = .ok r := advance_ok (Nat.zero_add r) (by omega)
  have hend : advance elems r 1 = .ok (r + 1) := advance_ok rfl hr
  have horder : l ≤ r + 1 := by omega
  simp only [copyRange, hfirst, hlast, hend, Exec.ok_bind, assignRange, if_pos horder, Exec.pure_eq]

theorem trim_ok {start stop : Int} {xs : List Bytes} (hsz : (xs.length : Int) ≤ INT_MAX)
    (hstart : IsInt start) (hstop : IsInt stop) (e : ListEncoding) :
    trim start stop (ofContent e xs) =
      .ok (ofContent e (select (Kept start stop xs.length) xs)) := by
  rw [trim, size_ofContent, Exec.ok_bind]
  by_cases hempty : xs.length = 0
  · obtain rfl : xs = [] := List.eq_nil_of_length_eq_zero hempty
    rfl
  · rw [if_neg hempty]
    rcases normalizeRange_spec hsz hstart hstop with ⟨hnone, hkept⟩ | ⟨l, r, hsome, hlr, hr, hkept⟩
    · rw [hnone, select_none hkept]
      cases e <;> rfl
    · have hcopy := copyRange_ok hlr hr
      rw [hsome, select_range _ _ hkept]
      cases e <;>
        simp [ofContent, getZiplist, getLinkedlist, hcopy]

/-- **`trim` is `LTRIM`**: the elements at the kept positions stay, in their order
and in the encoding they were in, and no iterator leaves the container. -/
theorem trim_keeps_range (start stop : Int) (e : ListEncoding) (xs : List Bytes)
    (hsz : (xs.length : Int) ≤ INT_MAX) (hstart : IsInt start) (hstop : IsInt stop) :
    trim start stop (ofContent e xs) =
      .ok (ofContent e (select (Kept start stop xs.length) xs)) :=
  trim_ok hsz hstart hstop e

/-- From the second element to the last but one. -/
theorem trim_keeps_range_inner :
    trim 1 (-2) (ofContent .LINKEDLIST [[97], [98], [99], [100]]) =
      .ok (ofContent .LINKEDLIST [[98], [99]]) :=
  trim_keeps_range 1 (-2) .LINKEDLIST [[97], [98], [99], [100]] (by decide) (by decide) (by decide)

end MiniRedis.ListObject
