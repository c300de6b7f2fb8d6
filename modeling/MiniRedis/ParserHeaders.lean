import MiniRedis.ProtocolSuffix

/-!
The parser header by header.  Array and bulk headers are read alike: a mark, a
line, a line end.  The number is read by `atoi` from the line and everything
behind it, since the line end does not stop it when the line is blank; so what a
verdict depends on is the line together with what follows it.
-/

namespace MiniRedis.RespParser

/-! ## Line ends -/

theorem findCrlf_cons {b : UInt8} {s : Bytes} (hb : b ≠ 13) :
    findCrlf (b :: s) = (findCrlf s).map (· + 1) := by
  rw [findCrlf]
  intro t h _
  exact hb h

theorem findCrlf_line {line : Bytes} (h : (13 : UInt8) ∉ line) (t : Bytes) :
    findCrlf (line ++ (crlf ++ t)) = some line.length := by
  induction line with
  | nil => rfl
  | cons b line ih =>
    have hb : b ≠ 13 := fun hb => h (hb ▸ List.mem_cons_self ..)
    have hline := ih fun hm => h (List.mem_cons_of_mem b hm)
    rw [List.cons_append, findCrlf_cons hb, hline]
    rfl

theorem findCrlf_split {s : Bytes} {k : Nat} (h : findCrlf s = some k) :
    s = s.take k ++ crlf ++ s.drop (k + 2) := by
  induction s generalizing k with
  | nil => cases h
  | cons b s ih =>
    unfold findCrlf at h
    split at h
    · next heq =>
      cases h
      rw [heq]
      rfl
    · next heq =>
      cases heq
      obtain ⟨j, hj, rfl⟩ := Option.map_eq_some_iff.mp h
      simp only [List.take_succ_cons, List.cons_append, Nat.add_right_comm j 1 2,
        List.drop_succ_cons]
      rw [← ih hj]
    · next heq => cases heq

theorem findCrlf_append {s : Bytes} {k : Nat} (h : findCrlf s = some k) (t : Bytes) :
    findCrlf (s ++ t) = some k := by
  induction s generalizing k with
  | nil => cases h
  | cons b s ih =>
    unfold findCrlf at h
    split at h
    · next heq =>
      cases h
      rw [heq]
      rfl
    · next hnot heq =>
      cases heq
      obtain ⟨j, hj, rfl⟩ := Option.map_eq_some_iff.mp h
      rw [List.cons_append, findCrlf, ih hj]
      · rfl
      · intro r hb hs
        cases s with
        | nil => cases hj
        | cons c s => exact hnot s hb (by rw [(List.cons.inj hs).1])
    · next heq => cases heq

/-! ## One header -/

/-- What stands at the front of the input: too little, another mark, or a line
with what is behind its line end. -/
inductive Header where
  | missing
  | wrong
  | line (text body : Bytes)
  deriving DecidableEq, Repr

def readHeader (mark : UInt8) : Bytes → Header
  | [] => .missing
  | b :: rest =>
      if b ≠ mark then .wrong
      else match findCrlf rest with
        | none => .missing
        | some k => .line (rest.take k) (rest.drop (k + 2))

/-- The number `atoi` makes of a header. -/
def number (text body : Bytes) : Int := atoi (text ++ crlf ++ body)

/-- The input in front of a header line, and where the line ends. -/
theorem readHeader_line {mark : UInt8} {s text body : Bytes}
    (h : readHeader mark s = .line text body) :
    ∃ rest k, s = mark :: rest ∧ findCrlf rest = some k ∧ text = rest.take k ∧
      body = rest.drop (k + 2) ∧ rest = text ++ crlf ++ body := by
  cases s with
  | nil => cases h
  | cons b rest =>
    simp only [readHeader] at h
    split at h
    · cases h
    · next hb =>
      cases hfind : findCrlf rest with
      | none =>
        rw [hfind] at h
        cases h
      | some k =>
        rw [hfind] at h
        cases h
        have hmark : b = mark := by simpa using hb
        exact ⟨rest, k, by rw [hmark], hfind, rfl, rfl, findCrlf_split hfind⟩

theorem readHeader_append {mark : UInt8} {s text body : Bytes}
    (h : readHeader mark s = .line text body) (t : Bytes) :
    readHeader mark (s ++ t) = .line text (body ++ t) := by
  obtain ⟨rest, k, rfl, hfind, rfl, rfl, _⟩ := readHeader_line h
  have hbound := findCrlf_bound hfind
  simp only [List.cons_append, readHeader, ne_eq, not_true_eq_false, ↓reduceIte,
    findCrlf_append hfind t, List.take_append_of_le_length (show k ≤ rest.length by omega),
    List.drop_append_of_le_length hbound]

theorem readHeader_wrong_append {mark : UInt8} {s : Bytes} (h : readHeader mark s = .wrong)
    (t : Bytes) : readHeader mark (s ++ t) = .wrong := by
  cases s with
  | nil => cases h
  | cons b rest =>
    simp only [readHeader] at h
    split at h
    · next hb => exact if_pos hb
    · cases hfind : findCrlf rest with
      | none =>
        rw [hfind] at h
        cases h
      | some k =>
        rw [hfind] at h
        cases h

/-- A line without a carriage return is found whole. -/
theorem readHeader_found {text : Bytes} (h : (13 : UInt8) ∉ text) (mark : UInt8) (body : Bytes) :
    readHeader mark (mark :: (text ++ crlf ++ body)) = .line text body := by
  have hfind : findCrlf (text ++ crlf ++ body) = some text.length := by
    rw [List.append_assoc]
    exact findCrlf_line h body
  have hbody : (text ++ crlf ++ body).drop (text.length + 2) = body :=
    List.drop_left' (by simp [crlf])
  have htext : (text ++ crlf ++ body).take text.length = text := by
    rw [List.append_assoc]
    exact List.take_left
  simp only [readHeader, ne_eq, not_true_eq_false, ↓reduceIte, hfind, hbody, htext]

/-! ## One argument -/

/-- How the turn of the loop for one argument ends: with a verdict and what it
has pushed, or with an argument and what is behind it. -/
inductive Turn where
  | stop (verdict : ParseResult) (pushed : List Bytes)
  | next (arg tail : Bytes)
  deriving DecidableEq, Repr

/-- The turn behind a bulk header of the length `len`. -/
def readBulk (len : Int) (body : Bytes) : Turn :=
  if len < -1 then .stop .ERROR []
  else if len = -1 then .next [] body
  else if len.toNat > body.length then .stop .INCOMPLETE []
  else match body.drop len.toNat with
    | c :: d :: tail =>
        if c ≠ 13 ∨ d ≠ 10 then .stop .ERROR [body.take len.toNat]
        else .next (body.take len.toNat) tail
    | _ => .stop .INCOMPLETE [body.take len.toNat]

/-- An argument that was read is null, or stands in front of a line end. -/
theorem readBulk_next {len : Int} {body arg tail : Bytes}
    (h : readBulk len body = .next arg tail) :
    (len = -1 ∧ arg = [] ∧ tail = body) ∨
      (0 ≤ len ∧ arg.length = len.toNat ∧ body = arg ++ crlf ++ tail) := by
  unfold readBulk at h
  split at h
  · cases h
  · split at h
    · next hnull =>
      cases h
      exact Or.inl ⟨hnull, rfl, rfl⟩
    · split at h
      · cases h
      · next hfit =>
        rcases hd : body.drop len.toNat with _ | ⟨c, _ | ⟨d, tail'⟩⟩
        · rw [hd] at h
          cases h
        · rw [hd] at h
          cases h
        · rw [hd] at h
          simp only at h
          split at h
          · cases h
          · next hcd =>
            cases h
            obtain ⟨rfl, rfl⟩ : c = 13 ∧ d = 10 := by
              simpa only [ne_eq, not_or, not_not] using hcd
            refine Or.inr ⟨by omega, List.length_take_of_le (by omega), ?_⟩
            calc body
              _ = body.take len.toNat ++ body.drop len.toNat := (List.take_append_drop ..).symm
              _ = body.take len.toNat ++ crlf ++ tail := by rw [hd, List.append_assoc]; rfl

theorem readBulk_null (body : Bytes) : readBulk (-1) body = .next [] body := rfl

theorem readBulk_found (arg tail : Bytes) :
    readBulk arg.length (arg ++ crlf ++ tail) = .next arg tail := by
  have h1 : ¬ (arg.length : Int) < -1 := by omega
  have h2 : ¬ (arg.length : Int) = -1 := by omega
  have h3 : ¬ (arg.length : Int).toNat > (arg ++ crlf ++ tail).length := by
    simp only [Int.toNat_natCast, List.length_append]
    omega
  rw [readBulk, if_neg h1, if_neg h2, if_neg h3, Int.toNat_natCast, List.append_assoc,
    List.drop_left, List.take_left]
  rfl

/-- Bytes behind a turn that is over change nothing in it. -/
theorem readBulk_append_next {len : Int} {body arg tail : Bytes}
    (h : readBulk len body = .next arg tail) (t : Bytes) :
    readBulk len (body ++ t) = .next arg (tail ++ t) := by
  rcases readBulk_next h with ⟨rfl, rfl, rfl⟩ | ⟨hlen, harg, rfl⟩
  · exact readBulk_null _
  · have hnat : len = arg.length := by omega
    rw [hnat, List.append_assoc]
    exact readBulk_found arg (tail ++ t)

theorem readBulk_append_error {len : Int} {body : Bytes} {pushed : List Bytes}
    (h : readBulk len body = .stop .ERROR pushed) (t : Bytes) :
    readBulk len (body ++ t) = .stop .ERROR pushed := by
  unfold readBulk at h ⊢
  split at h
  · next hneg => rw [if_pos hneg, ← h]
  · next hneg =>
    rw [if_neg hneg]
    split at h
    · cases h
    · next hnull =>
      rw [if_neg hnull]
      split at h
      · cases h
      · next hfit =>
        have hfit' : ¬ len.toNat > (body ++ t).length := by
          rw [List.length_append]
          omega
        rw [if_neg hfit', List.take_append_of_le_length (by omega),
          List.drop_append_of_le_length (by omega)]
        rcases hd : body.drop len.toNat with _ | ⟨c, _ | ⟨d, tail⟩⟩
        · rw [hd] at h
          cases h
        · rw [hd] at h
          cases h
        · rw [hd] at h
          simp only [List.cons_append] at h ⊢
          split at h
          · next hcd => rw [if_pos hcd, ← h]
          · cases h

/-! ## The loops through headers -/

/-- The argument loop behind a turn. -/
def resume (count : Nat) (args : List Bytes) : Turn → ParseResult × List Bytes
  | .stop verdict pushed => (verdict, args ++ pushed)
  | .next arg tail => argsFrom count tail (args ++ [arg])

theorem readHeader_missing {mark : UInt8} {s : Bytes} (h : readHeader mark s = .missing) :
    s = [] ∨ ∃ rest, s = mark :: rest ∧ findCrlf rest = none := by
  cases s with
  | nil => exact Or.inl rfl
  | cons b rest =>
    simp only [readHeader] at h
    split at h
    · cases h
    · next hb =>
      have hmark : b = mark := by simpa using hb
      cases hfind : findCrlf rest with
      | none => exact Or.inr ⟨rest, by rw [hmark], hfind⟩
      | some k =>
        rw [hfind] at h
        cases h

theorem readHeader_wrong {mark : UInt8} {s : Bytes} (h : readHeader mark s = .wrong) :
    ∃ b rest, s = b :: rest ∧ b ≠ mark := by
  cases s with
  | nil => cases h
  | cons b rest =>
    refine ⟨b, rest, rfl, fun hb => ?_⟩
    simp only [readHeader, hb, ne_eq, not_true_eq_false, ↓reduceIte] at h
    cases hfind : findCrlf rest with
    | none =>
      rw [hfind] at h
      cases h
    | some k =>
      rw [hfind] at h
      cases h

theorem argsFrom_missing {s : Bytes} (h : readHeader 36 s = .missing) (count : Nat)
    (args : List Bytes) : argsFrom (count + 1) s args = (.INCOMPLETE, args) := by
  rcases readHeader_missing h with rfl | ⟨rest, rfl, hfind⟩
  · rfl
  · have hcrlf : findCrlf (36 :: rest) = none := by rw [findCrlf_cons (by decide), hfind]; rfl
    simp only [argsFrom, ne_eq, not_true_eq_false, ↓reduceIte, hcrlf]

theorem argsFrom_wrong {s : Bytes} (h : readHeader 36 s = .wrong) (count : Nat)
    (args : List Bytes) : argsFrom (count + 1) s args = (.ERROR, args) := by
  obtain ⟨b, rest, rfl, hb⟩ := readHeader_wrong h
  exact if_pos hb

theorem argsFrom_line {s text body : Bytes} (h : readHeader 36 s = .line text body) (count : Nat)
    (args : List Bytes) :
    argsFrom (count + 1) s args = resume count args (readBulk (number text body) body) := by
  obtain ⟨rest, k, rfl, hfind, rfl, rfl, hrest⟩ := readHeader_line h
  have hcrlf : findCrlf (36 :: rest) = some (k + 1) := by
    rw [findCrlf_cons (by decide), hfind]
    rfl
  have hdrop : (36 :: rest).drop (k + 1 + 2) = rest.drop (k + 2) := rfl
  rw [number, ← hrest]
  simp only [argsFrom, ne_eq, not_true_eq_false, ↓reduceIte, hcrlf, hdrop, readBulk]
  split
  · simp only [resume, List.append_nil]
  · split
    · rfl
    · split
      · simp only [resume, List.append_nil]
      · rcases (rest.drop (k + 2)).drop (atoi rest).toNat with _ | ⟨c, _ | ⟨d, tail⟩⟩
        · rfl
        · rfl
        · simp only
          split <;> rfl

theorem frameFrom_missing {s : Bytes} (h : readHeader 42 s = .missing) :
    frameFrom s = (.INCOMPLETE, []) := by
  rcases readHeader_missing h with rfl | ⟨rest, rfl, hfind⟩
  · rfl
  · have hcrlf : findCrlf (42 :: rest) = none := by rw [findCrlf_cons (by decide), hfind]; rfl
    simp only [frameFrom, ne_eq, not_true_eq_false, ↓reduceIte, hcrlf]

theorem frameFrom_wrong {s : Bytes} (h : readHeader 42 s = .wrong) :
    frameFrom s = (.ERROR, []) := by
  obtain ⟨b, rest, rfl, hb⟩ := readHeader_wrong h
  exact if_pos hb

theorem frameFrom_line {s text body : Bytes} (h : readHeader 42 s = .line text body) :
    frameFrom s = if number text body < 0 then (.ERROR, [])
      else argsFrom (number text body).toNat body [] := by
  obtain ⟨rest, k, rfl, hfind, rfl, rfl, hrest⟩ := readHeader_line h
  have hcrlf : findCrlf (42 :: rest) = some (k + 1) := by
    rw [findCrlf_cons (by decide), hfind]
    rfl
  rw [number, ← hrest]
  simp only [frameFrom, ne_eq, not_true_eq_false, ↓reduceIte, hcrlf]
  split
  · rfl
  · split
    · next hzero =>
      rw [hzero]
      rfl
    · rfl

/-! ## The headers of an input -/

/-- The bulk headers the argument loop reads: each line, and what is behind it. -/
def argsHeaders : Nat → Bytes → List (Bytes × Bytes)
  | 0, _ => []
  | count + 1, s =>
      match readHeader 36 s with
      | .missing | .wrong => []
      | .line text body =>
          (text, body) :: match readBulk (number text body) body with
            | .stop _ _ => []
            | .next _ tail => argsHeaders count tail

/-- The headers `parse` reads, the array header first. -/
def headers (input : Bytes) : List (Bytes × Bytes) :=
  match readHeader 42 (input.dropWhile fun b => decide (IsSpace b)) with
  | .missing | .wrong => []
  | .line text body => (text, body) :: argsHeaders (number text body).toNat body

theorem argsHeaders_line {s text body : Bytes} (h : readHeader 36 s = .line text body)
    (count : Nat) : (text, body) ∈ argsHeaders (count + 1) s := by
  simp only [argsHeaders, h]
  exact List.mem_cons_self ..

theorem argsHeaders_next {s text body arg tail : Bytes} (h : readHeader 36 s = .line text body)
    (hb : readBulk (number text body) body = .next arg tail) (count : Nat) :
    argsHeaders (count + 1) s = (text, body) :: argsHeaders count tail := by
  simp only [argsHeaders, h, hb]

end MiniRedis.RespParser
