import MiniRedis.Protocol

/-!
The parser on what is left of the input.  `parse` keeps a position and indexes
with it; `frameFrom` and `argsFrom` are the same decisions on the remaining
bytes, without an index.  `parse_eq` says that the two agree, and so that no
index of the parser is ever out of range.
-/

namespace MiniRedis.RespParser

/-- The argument loop on the remaining bytes. -/
def argsFrom : Nat → Bytes → List Bytes → ParseResult × List Bytes
  | 0, _, args => (.COMPLETE, args)
  | _ + 1, [], args => (.INCOMPLETE, args)
  | count + 1, b :: rest, args =>
      if b ≠ 36 then (.ERROR, args)
      else match findCrlf (b :: rest) with
        | none => (.INCOMPLETE, args)
        | some k =>
            let len := atoi rest
            let body := (b :: rest).drop (k + 2)
            if len < -1 then (.ERROR, args)
            else if len = -1 then argsFrom count body (args ++ [[]])
            else if len.toNat > body.length then (.INCOMPLETE, args)
            else
              let args := args ++ [body.take len.toNat]
              match body.drop len.toNat with
              | c :: d :: tail =>
                  if c ≠ 13 ∨ d ≠ 10 then (.ERROR, args) else argsFrom count tail args
              | _ => (.INCOMPLETE, args)

/-- The parser behind the leading white space. -/
def frameFrom : Bytes → ParseResult × List Bytes
  | [] => (.INCOMPLETE, [])
  | b :: rest =>
      if b ≠ 42 then (.ERROR, [])
      else match findCrlf (b :: rest) with
        | none => (.INCOMPLETE, [])
        | some k =>
            let argc := atoi rest
            if argc < 0 then (.ERROR, [])
            else if argc = 0 then (.COMPLETE, [])
            else argsFrom argc.toNat ((b :: rest).drop (k + 2)) []

theorem findCrlf_bound {s : Bytes} {k : Nat} (h : findCrlf s = some k) : k + 2 ≤ s.length := by
  induction s generalizing k with
  | nil => simp [findCrlf] at h
  | cons b s ih =>
    unfold findCrlf at h
    split at h
    · next heq =>
      cases h
      rw [heq]
      simp
    · next heq =>
      cases heq
      obtain ⟨j, hj, rfl⟩ := Option.map_eq_some_iff.mp h
      have := ih hj
      simp only [List.length_cons]
      omega
    · next heq => cases heq

/-- Reading the position of a suffix reads the head of the suffix. -/
theorem at?_drop {input rest : Bytes} {pos : Nat} {b : UInt8} (h : input.drop pos = b :: rest) :
    pos < input.length ∧ at? input pos = .ok b ∧ input.drop (pos + 1) = rest := by
  have hlt : pos < input.length := by
    have := congrArg List.length h
    simp only [List.length_drop, List.length_cons] at this
    omega
  rw [List.drop_eq_getElem_cons hlt] at h
  obtain ⟨hb, hrest⟩ := List.cons.inj h
  exact ⟨hlt, at?_ok (List.getElem?_eq_some_iff.mpr ⟨hlt, hb⟩), hrest⟩

/-- The payload of `n` bytes at `pos` and its line end, on the suffix, when the
arguments behind it are already read there. -/
theorem parseBulk_eq {input : Bytes} {count : Nat}
    (ih : ∀ pos args, pos ≤ input.length →
      parseArgs input count pos args = .ok (argsFrom count (input.drop pos) args))
    {pos : Nat} (hpos : pos ≤ input.length) (n : Nat) (args : List Bytes) :
    (if pos + n > input.length then pure (.INCOMPLETE, args)
      else do
        let arg ← substr input pos n
        let args := args ++ [arg]
        let pos := pos + n
        if pos + 2 > input.length then pure (.INCOMPLETE, args)
        else if (← at? input pos) ≠ 13 ∨ (← at? input (pos + 1)) ≠ 10 then pure (.ERROR, args)
        else parseArgs input count (pos + 2) args : Exec (ParseResult × List Bytes)) =
      .ok (if n > (input.drop pos).length then (.INCOMPLETE, args)
        else
          let args := args ++ [(input.drop pos).take n]
          match (input.drop pos).drop n with
          | c :: d :: tail => if c ≠ 13 ∨ d ≠ 10 then (.ERROR, args) else argsFrom count tail args
          | _ => (.INCOMPLETE, args)) := by
  have hlen : (input.drop pos).length = input.length - pos := List.length_drop
  by_cases hfit : pos + n > input.length
  · have hfit' : n > (input.drop pos).length := by omega
    simp only [hfit, hfit', ↓reduceIte, Exec.pure_eq]
  · have hfit' : ¬ n > (input.drop pos).length := by omega
    have hsub : ¬ pos > input.length := by omega
    have harg : input.drop (pos + n) = (input.drop pos).drop n := List.drop_drop.symm
    have hargLen : (input.drop (pos + n)).length = input.length - (pos + n) := List.length_drop
    simp only [hfit, hfit', ↓reduceIte, substr, hsub, Exec.pure_eq, Exec.ok_bind]
    cases htl : (input.drop pos).drop n with
    | nil =>
      rw [harg, htl, List.length_nil] at hargLen
      have hshort : pos + n + 2 > input.length := by omega
      simp only [hshort, ↓reduceIte]
    | cons c t =>
      rw [htl] at harg
      obtain ⟨_, hatc, hdropc⟩ := at?_drop harg
      cases t with
      | nil =>
        rw [harg, List.length_singleton] at hargLen
        have hshort : pos + n + 2 > input.length := by omega
        simp only [hshort, ↓reduceIte]
      | cons d tail =>
        obtain ⟨hlt, hatd, hdropd⟩ := at?_drop hdropc
        have hlong : ¬ pos + n + 2 > input.length := by omega
        simp only [hlong, ↓reduceIte, hatc, hatd, Exec.ok_bind]
        split
        · rfl
        · rw [ih _ _ (by omega), hdropd]

theorem parseArgs_eq (input : Bytes) (count pos : Nat) (args : List Bytes)
    (hpos : pos ≤ input.length) :
    parseArgs input count pos args = .ok (argsFrom count (input.drop pos) args) := by
  induction count generalizing pos args with
  | zero => rfl
  | succ count ih =>
    cases hrest : input.drop pos with
    | nil =>
      have hge : pos ≥ input.length := List.drop_eq_nil_iff.mp hrest
      simp only [parseArgs, hge, ↓reduceIte, argsFrom, Exec.pure_eq]
    | cons b rest =>
      obtain ⟨hlt, hat, htail⟩ := at?_drop hrest
      have hlen : input.length = pos + (b :: rest).length := by
        have := congrArg List.length hrest
        rw [List.length_drop] at this
        omega
      have hnot : ¬ pos ≥ input.length := by omega
      simp only [parseArgs, hnot, ↓reduceIte, hat, Exec.ok_bind, argsFrom, find, hrest, htail]
      by_cases hb : b = 36
      · subst hb
        simp only [ne_eq, not_true_eq_false, ↓reduceIte]
        cases hfind : findCrlf (36 :: rest) with
        | none => rfl
        | some k =>
          have hk := findCrlf_bound hfind
          have hbody : input.drop (pos + k + 2) = (36 :: rest).drop (k + 2) := by
            rw [← hrest, List.drop_drop, Nat.add_assoc]
          simp only [Option.map_some, ← hbody]
          split
          · rfl
          · split
            · rw [ih _ _ (by omega)]
            · exact parseBulk_eq ih (by omega) (atoi rest).toNat args
      · simp only [ne_eq, hb, not_false_eq_true, ↓reduceIte, Exec.pure_eq]

theorem parse_eq (input : Bytes) :
    parse input = .ok (frameFrom (input.dropWhile fun b => decide (IsSpace b))) := by
  have hskip : input.drop (skipWhitespace input 0) =
      input.dropWhile fun b => decide (IsSpace b) := by
    have hsplit := List.takeWhile_append_dropWhile (p := fun b => decide (IsSpace b)) (l := input)
    calc input.drop (skipWhitespace input 0)
      _ = input.drop (input.takeWhile fun b => decide (IsSpace b)).length := by
        simp [skipWhitespace]
      _ = (input.takeWhile (fun b => decide (IsSpace b)) ++
            input.dropWhile fun b => decide (IsSpace b)).drop
              (input.takeWhile fun b => decide (IsSpace b)).length := by rw [hsplit]
      _ = input.dropWhile fun b => decide (IsSpace b) := List.drop_left
  generalize hpos : skipWhitespace input 0 = pos at hskip
  cases hrest : input.dropWhile (fun b => decide (IsSpace b)) with
  | nil =>
    have hge : pos ≥ input.length := List.drop_eq_nil_iff.mp (hskip.trans hrest)
    simp only [parse, hpos, hge, ↓reduceIte, frameFrom, Exec.pure_eq]
  | cons b rest =>
    rw [hrest] at hskip
    obtain ⟨hlt, hat, htail⟩ := at?_drop hskip
    have hnot : ¬ pos ≥ input.length := by omega
    simp only [parse, hpos, hnot, ↓reduceIte, hat, Exec.ok_bind, frameFrom, find, hskip, htail,
      Exec.pure_eq]
    split
    · rfl
    · cases hfind : findCrlf (b :: rest) with
      | none => rfl
      | some k =>
        have hk := findCrlf_bound hfind
        have hlen := congrArg List.length hskip
        rw [List.length_drop] at hlen
        simp only [Option.map_some]
        split
        · rfl
        · split
          · rfl
          · rw [parseArgs_eq _ _ _ _ (by omega), ← hskip, List.drop_drop, Nat.add_assoc]

end MiniRedis.RespParser
