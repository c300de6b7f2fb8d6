import MiniRedis.Lib.Run
import MiniRedis.ListEdits

/-!
Runs of a list object against a plain list.  Beside its elements the plain list
remembers whether it has ever held too many of them or one that is too large:
that is when the object is a deque, and it stays one.
-/

namespace MiniRedis.ListObject

open ListEdit

/-! ## Calls -/

inductive Op where
  | pushBack (value : Bytes)
  | popFront
  | popBack
  | get (index : Int)
  | remove (count : Int) (value : Bytes)
  | trim (start stop : Int)
  | insert (pivot value : Bytes) (pos : InsertPosition)
  | size

inductive Answer where
  | done
  | element (x : Option Bytes)
  | removed (n : Int)
  | inserted (b : Bool)
  | size (n : Nat)
  deriving DecidableEq, Repr

def step (op : Op) (o : ListObject) : Exec (Answer × ListObject) :=
  match op with
  | .pushBack value => do
      let o ← o.pushBack value
      pure (.done, o)
  | .popFront => do
      let (x, o) ← o.popFront
      pure (.element x, o)
  | .popBack => do
      let (x, o) ← o.popBack
      pure (.element x, o)
  | .get index => do
      let x ← o.get index
      pure (.element x, o)
  | .remove count value => do
      let (removed, o) ← o.remove count value
      pure (.removed removed, o)
  | .trim start stop => do
      let o ← o.trim start stop
      pure (.done, o)
  | .insert pivot value pos => do
      let (b, o) ← o.insert pivot value pos
      pure (.inserted b, o)
  | .size => do
      let n ← o.size
      pure (.size n, o)

/-- The condition on one call: the arguments are in the range of their types, the
size fits the type it is added to, `remove` can negate its count, and `insert`
finds a ziplist that the value leaves one. -/
def Allowed (o : ListObject) : Op → Prop
  | .get index => IsInt index ∧ ∀ n, o.size = .ok n → (n : Int) ≤ LLONG_MAX
  | .remove count _ => LLONG_MIN < count
  | .trim start stop => IsInt start ∧ IsInt stop ∧ ∀ n, o.size = .ok n → (n : Int) ≤ INT_MAX
  | .insert _ value _ => o.encoding = .ZIPLIST ∧ value.length ≤ ZIPLIST_MAX_ENTRY_SIZE
  | _ => True

/-! ## The plain list -/

structure Plain where
  elems : List Bytes
  /-- There have been too many elements, or one that is too large. -/
  grown : Bool

namespace Plain

def empty : Plain := ⟨[], false⟩

/-- The elements with one more, `value`, among them. -/
def grow (p : Plain) (value : Bytes) (elems : List Bytes) : Plain :=
  ⟨elems, p.grown || decide (elems.length > ZIPLIST_MAX_ENTRIES ∨
    value.length > ZIPLIST_MAX_ENTRY_SIZE)⟩

/-- The element at a position, a negative one counted from the end. -/
def element (p : Plain) (index : Int) : Option Bytes :=
  if fromEnd p.elems.length index < 0 then none
  else p.elems[(fromEnd p.elems.length index).toNat]?

def next (p : Plain) : Op → Plain
  | .pushBack value => p.grow value (p.elems ++ [value])
  | .popFront => ⟨p.elems.tail, p.grown⟩
  | .popBack => ⟨p.elems.dropLast, p.grown⟩
  | .remove count value => ⟨remaining count value p.elems, p.grown⟩
  | .trim start stop => ⟨select (Kept start stop p.elems.length) p.elems, p.grown⟩
  | .insert pivot value pos =>
      if p.elems.contains pivot then
        p.grow value (insertBeside pos (p.elems.idxOf pivot) value p.elems)
      else p
  | .get _ | .size => p

def answer (p : Plain) : Op → Answer
  | .pushBack _ | .trim _ _ => .done
  | .popFront => .element p.elems.head?
  | .popBack => .element p.elems.getLast?
  | .get index => .element (p.element index)
  | .remove count value => .removed (quota count (p.elems.count value))
  | .insert pivot _ _ => .inserted (p.elems.contains pivot)
  | .size => .size p.elems.length

end Plain

/-- The encoding of a list that has or has not grown out of a ziplist. -/
def encodingOf (grown : Bool) : ListEncoding := if grown then .LINKEDLIST else .ZIPLIST

/-- The object holds the elements, as a deque exactly when there once was
reason for it; a ziplist is within its bounds. -/
structure Holds (o : ListObject) (p : Plain) : Prop where
  content : o = ofContent (encodingOf p.grown) p.elems
  bounded : p.grown = false → p.elems.length ≤ ZIPLIST_MAX_ENTRIES ∧
    ∀ x ∈ p.elems, x.length ≤ ZIPLIST_MAX_ENTRY_SIZE

/-! ## One call -/

theorem pushBack_ok (value : Bytes) (grown : Bool) (xs : List Bytes) :
    pushBack value (ofContent (encodingOf grown) xs) =
      .ok (ofContent (encodingOf (Plain.grow ⟨xs, grown⟩ value (xs ++ [value])).grown)
        (xs ++ [value])) := by
  cases grown with
  | true => rfl
  | false =>
    simp only [pushBack, encodingOf, Bool.false_eq_true, ↓reduceIte, ofContent, getZiplist,
      Exec.pure_eq, Exec.ok_bind, Plain.grow, Bool.false_or, List.length_append,
      List.length_singleton, decide_eq_true_eq]
    split
    · rfl
    · rfl

theorem popFront_ok (grown : Bool) (xs : List Bytes) :
    popFront (ofContent (encodingOf grown) xs) =
      .ok (xs.head?, ofContent (encodingOf grown) xs.tail) := by
  rw [popFront, size_ofContent, Exec.ok_bind]
  cases xs with
  | nil => cases grown <;> rfl
  | cons x xs => cases grown <;> rfl

theorem popBack_ok (grown : Bool) (xs : List Bytes) :
    popBack (ofContent (encodingOf grown) xs) =
      .ok (xs.getLast?, ofContent (encodingOf grown) xs.dropLast) := by
  rw [popBack, size_ofContent, Exec.ok_bind]
  by_cases hxs : xs = []
  · subst hxs
    cases grown <;> rfl
  · have hlen : ¬ xs.length = 0 := by simpa using hxs
    have hlast : at? xs (xs.length - 1) = .ok (xs.getLast hxs) :=
      at?_ok (by rw [← List.getLast?_eq_getElem?, List.getLast?_eq_some_getLast hxs])
    rw [if_neg hlen, List.getLast?_eq_some_getLast hxs]
    cases grown <;> simp [encodingOf, ofContent, getZiplist, getLinkedlist, hlast]

/-- A sum that fits a `long long` survives the detour over `size_t`. -/
theorem normalizeIndex_ok {index : Int} {sz : Nat} (hsz : (sz : Int) ≤ LLONG_MAX)
    (hindex : IsInt index) :
    normalizeIndex index sz =
      if fromEnd sz index < 0 ∨ fromEnd sz index ≥ sz then none
      else some (fromEnd sz index).toNat := by
  have hlow : INT_MIN ≤ index := hindex.1
  rw [INT_MIN] at hlow
  rw [LLONG_MAX] at hsz
  by_cases hzero : sz = 0
  · subst hzero
    rw [normalizeIndex, if_pos rfl, if_pos]
    rw [fromEnd]
    split <;> omega
  · have hsum : (if index < 0 then Int.bmod (index + sz) (2 ^ 64) else index) =
        fromEnd sz index := by
      rw [fromEnd]
      split
      · exact Int.bmod_eq_of_le (by omega) (by omega)
      · rfl
    simp only [normalizeIndex, hzero, ↓reduceIte, hsum]
    split
    · rfl
    · next hin =>
      rw [toSizeT, if_pos (by omega)]

/-- `get` reads at the normalised index. -/
theorem get_normalized (index : Int) (grown : Bool) (xs : List Bytes) :
    (normalizeIndex index xs.length = none →
      get index (ofContent (encodingOf grown) xs) = .ok none) ∧
    ∀ idx, normalizeIndex index xs.length = some idx →
      get index (ofContent (encodingOf grown) xs) = at? xs idx >>= fun out => .ok (some out) := by
  constructor
  · intro hnone
    cases grown <;> simp [get, encodingOf, ofContent, getZiplist, getLinkedlist, hnone]
  · intro idx hsome
    cases grown <;> simp [get, encodingOf, ofContent, getZiplist, getLinkedlist, hsome]

theorem get_ok {index : Int} {xs : List Bytes} (hsz : (xs.length : Int) ≤ LLONG_MAX)
    (hindex : IsInt index) (grown : Bool) :
    get index (ofContent (encodingOf grown) xs) = .ok (Plain.element ⟨xs, grown⟩ index) := by
  obtain ⟨hout, hat⟩ := get_normalized index grown xs
  have hnorm := normalizeIndex_ok hsz hindex
  have helement : Plain.element ⟨xs, grown⟩ index =
      if fromEnd xs.length index < 0 then none else xs[(fromEnd xs.length index).toNat]? := rfl
  rw [helement]
  generalize fromEnd xs.length index = idx at hnorm ⊢
  by_cases hneg : idx < 0
  · rw [if_pos (Or.inl hneg)] at hnorm
    rw [hout hnorm, if_pos hneg]
  · rw [if_neg hneg]
    by_cases hlen : idx ≥ xs.length
    · rw [if_pos (Or.inr hlen)] at hnorm
      rw [hout hnorm, List.getElem?_eq_none (by omega)]
    · have hin : idx.toNat < xs.length := by omega
      rw [if_neg (not_or.mpr ⟨hneg, hlen⟩)] at hnorm
      rw [hat _ hnorm, at?_ok (List.getElem?_eq_getElem hin), List.getElem?_eq_getElem hin,
        Exec.ok_bind]

theorem insert_ok {value : Bytes} (hvalue : value.length ≤ ZIPLIST_MAX_ENTRY_SIZE)
    (pivot : Bytes) (pos : InsertPosition) (xs : List Bytes) :
    insert pivot value pos (ofContent .ZIPLIST xs) =
      .ok (xs.contains pivot, ofContent
        (encodingOf (Plain.next ⟨xs, false⟩ (.insert pivot value pos)).grown)
        (Plain.next ⟨xs, false⟩ (.insert pivot value pos)).elems) := by
  by_cases hpivot : pivot ∈ xs
  · have hcontains : xs.contains pivot = true := List.contains_iff_mem.mpr hpivot
    have hfound : xs.idxOf pivot ≠ xs.length := Nat.ne_of_lt (List.idxOf_lt_length_iff.mpr hpivot)
    have hsmall : ¬ ((ofContent .ZIPLIST xs).encoding = .ZIPLIST ∧
        value.length > ZIPLIST_MAX_ENTRY_SIZE) := fun h => Nat.not_lt.mpr hvalue h.2
    have hfits : ¬ value.length > ZIPLIST_MAX_ENTRY_SIZE := Nat.not_lt.mpr hvalue
    rw [insert, if_neg hsmall]
    simp only [ofContent, getZiplist, Exec.pure_eq, Exec.ok_bind, ↓reduceIte, hfound, Plain.next,
      hcontains, Plain.grow, Bool.false_or, hfits, or_false, encodingOf, decide_eq_true_eq]
    split
    · rfl
    · rfl
  · have hcontains : xs.contains pivot = false :=
      Bool.eq_false_iff.mpr (mt List.contains_iff_mem.mp hpivot)
    rw [(insert_small hvalue pivot pos xs).1 (List.idxOf_of_notMem hpivot)]
    simp only [Plain.next, hcontains, Bool.false_eq_true, ↓reduceIte]
    rfl

/-! ## Bounds -/

/-- Fewer of the same elements are within the bounds. -/
theorem Holds.shrink {o o' : ListObject} {p : Plain} (h : Holds o p) {xs : List Bytes}
    (hsub : xs.Sublist p.elems) (hcontent : o' = ofContent (encodingOf p.grown) xs) :
    Holds o' ⟨xs, p.grown⟩ where
  content := hcontent
  bounded := fun hgrown => by
    obtain ⟨hlen, hsmall⟩ := h.bounded hgrown
    exact ⟨hsub.length_le.trans hlen, fun x hx => hsmall x (hsub.subset hx)⟩

/-- One more element is within the bounds, or has the list grow. -/
theorem Holds.grow {o o' : ListObject} {p : Plain} (h : Holds o p) {value : Bytes}
    {xs : List Bytes} (hmem : ∀ x ∈ xs, x = value ∨ x ∈ p.elems)
    (hcontent : o' = ofContent (encodingOf (p.grow value xs).grown) xs) :
    Holds o' (p.grow value xs) where
  content := hcontent
  bounded := fun hgrown => by
    obtain ⟨hold, hfits⟩ := Bool.or_eq_false_iff.mp hgrown
    obtain ⟨hlen, hvalue⟩ := not_or.mp (of_decide_eq_false hfits)
    refine ⟨Nat.not_lt.mp hlen, fun x hx => ?_⟩
    rcases hmem x hx with rfl | hx
    · exact Nat.not_lt.mp hvalue
    · exact (h.bounded hold).2 x hx

theorem mem_insertBeside {pivot value x : Bytes} {pos : InsertPosition} {xs : List Bytes}
    (hpivot : pivot ∈ xs) (hx : x ∈ insertBeside pos (xs.idxOf pivot) value xs) :
    x = value ∨ x ∈ xs := by
  obtain ⟨front, back, rfl, hfront⟩ := List.eq_append_cons_of_mem hpivot
  rw [idxOf_front hfront, insertBeside_front] at hx
  cases pos <;> simp [placed] at hx ⊢ <;> tauto

theorem remaining_sublist (count : Int) (value : Bytes) (xs : List Bytes) :
    (remaining count value xs).Sublist xs := by
  rw [remaining]
  split
  · exact eraseFirst_sublist ..
  · split
    · exact eraseLast_sublist ..
    · exact List.filter_sublist

/-! ## Runs -/

theorem step_holds (o : ListObject) (p : Plain) (op : Op) (h : Holds o p) (hop : Allowed o op) :
    ∃ a o', step op o = .ok (a, o') ∧ a = p.answer op ∧ Holds o' (p.next op) := by
  obtain ⟨xs, grown⟩ := p
  obtain rfl := h.content
  have hsize := size_ofContent (encodingOf grown) xs
  cases op with
  | pushBack value =>
    refine ⟨_, _, (by rw [step, pushBack_ok]; rfl), rfl, ?_⟩
    exact h.grow (fun x hx => by simpa [or_comm] using hx) rfl
  | popFront =>
    refine ⟨_, _, (by rw [step, popFront_ok]; rfl), rfl, ?_⟩
    exact h.shrink (List.tail_sublist xs) rfl
  | popBack =>
    refine ⟨_, _, (by rw [step, popBack_ok]; rfl), rfl, ?_⟩
    exact h.shrink (List.dropLast_sublist xs) rfl
  | get index =>
    obtain ⟨hindex, hsz⟩ := hop
    have hget := get_ok (hsz _ hsize) hindex grown
    exact ⟨_, _, (by rw [step, hget]; rfl), rfl, h⟩
  | remove count value =>
    have hremove : remove count value (ofContent (encodingOf grown) xs) = _ :=
      remove_ok hop value (encodingOf grown) xs
    refine ⟨_, _, (by rw [step, hremove]; rfl), rfl, ?_⟩
    exact h.shrink (remaining_sublist count value xs) rfl
  | trim start stop =>
    obtain ⟨hstart, hstop, hsz⟩ := hop
    have htrim := trim_ok (hsz _ hsize) hstart hstop (encodingOf grown)
    refine ⟨_, _, (by rw [step, htrim]; rfl), rfl, ?_⟩
    exact h.shrink (select_sublist _ xs) rfl
  | insert pivot value pos =>
    obtain ⟨htag, hvalue⟩ := hop
    obtain rfl : grown = false := by
      cases grown with
      | false => rfl
      | true => cases htag
    have hinsert : insert pivot value pos (ofContent (encodingOf false) xs) = _ :=
      insert_ok hvalue pivot pos xs
    refine ⟨_, _, (by rw [step, hinsert]; rfl), rfl, ?_⟩
    by_cases hpivot : xs.contains pivot
    · simp only [Plain.next, hpivot, ↓reduceIte]
      exact h.grow (fun x hx => mem_insertBeside (List.contains_iff_mem.mp hpivot) hx) rfl
    · simp only [Plain.next, hpivot, Bool.false_eq_true, ↓reduceIte]
      exact h
  | size =>
    exact ⟨_, _, (by rw [step, hsize]; rfl), rfl, h⟩

instance (o : ListObject) : (op : Op) → Decidable (Allowed o op)
  | .get index =>
      match h : o.size with
      | .ok n => decidable_of_iff (IsInt index ∧ (n : Int) ≤ LLONG_MAX) (by simp [Allowed, h])
      | .error _ => decidable_of_iff (IsInt index) (by simp [Allowed, h])
  | .remove count _ => inferInstanceAs (Decidable (LLONG_MIN < count))
  | .trim start stop =>
      match h : o.size with
      | .ok n => decidable_of_iff (IsInt start ∧ IsInt stop ∧ (n : Int) ≤ INT_MAX)
          (by simp [Allowed, h])
      | .error _ => decidable_of_iff (IsInt start ∧ IsInt stop) (by simp [Allowed, h])
  | .insert _ value _ => inferInstanceAs
      (Decidable (o.encoding = .ZIPLIST ∧ value.length ≤ ZIPLIST_MAX_ENTRY_SIZE))
  | .pushBack _ | .popFront | .popBack | .size => .isTrue trivial

/-- **A list object is a list.**  Every run of allowed calls on a new object is
answered as the plain list answers it, and the object is a deque at its end
exactly when the list had once grown; until then it is within the bounds of a
ziplist. -/
theorem run_is_plain_list (ops : List Op) (hops : Run.Guarded step Allowed new ops) :
    ∃ answers o, Run.run step ops new = .ok (answers, o) ∧
      Run.Admits Plain.next (fun p op a => a = p.answer op) Plain.empty ops answers ∧
      Holds o (ops.foldl Plain.next Plain.empty) :=
  have hnew : Holds new Plain.empty := ⟨rfl, fun _ => ⟨Nat.zero_le _, by simp [Plain.empty]⟩⟩
  Run.simulation step_holds ops new Plain.empty hnew hops

/-- An insertion, a value that makes a deque of the ziplist, and what a deque still
does. -/
def mixedOps : List Op :=
  [.pushBack [1], .pushBack [2], .insert [2] [9] .BEFORE, .insert [7] [9] .AFTER,
    .pushBack (List.replicate 65 0), .get (-1), .remove (-1) [9], .popFront, .trim 0 (-2), .popBack,
    .popBack, .size]

theorem run_is_plain_list_mixed :
    ∃ answers o, Run.run step mixedOps new = .ok (answers, o) ∧
      Run.Admits Plain.next (fun p op a => a = p.answer op) Plain.empty mixedOps answers ∧
      Holds o (mixedOps.foldl Plain.next Plain.empty) :=
  run_is_plain_list mixedOps (by decide +kernel)

end MiniRedis.ListObject
