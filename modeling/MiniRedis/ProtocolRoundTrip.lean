import Mathlib.Data.List.TakeWhile
import MiniRedis.ParserHeaders

/-!
The parser inverts the array encoding of a request.  A whole frame, after any
white space and before any further bytes, is complete with exactly its
arguments; a frame cut anywhere before its end is incomplete.
-/

namespace MiniRedis.RespParser

/-- The largest `int`. -/
def INT_MAX : Nat := 2 ^ 31 - 1

/-- `p` is a prefix of `s` and not all of it. -/
def ProperPrefix (p s : Bytes) : Prop := ∃ u, u ≠ [] ∧ p ++ u = s

/-- A cut of `a ++ b` falls inside `a` or inside `b`. -/
theorem ProperPrefix.split {p a b : Bytes} (h : ProperPrefix p (a ++ b)) :
    ProperPrefix p a ∨ ∃ q, p = a ++ q ∧ ProperPrefix q b := by
  obtain ⟨u, hu, hp⟩ := h
  rcases List.append_eq_append_iff.mp hp with ⟨v, ha, hv⟩ | ⟨q, hq, hb⟩
  · cases v with
    | nil =>
      right
      refine ⟨[], by simpa using ha.symm, u, hu, ?_⟩
      simpa using hv
    | cons c v => exact Or.inl ⟨c :: v, List.cons_ne_nil _ _, ha.symm⟩
  · exact Or.inr ⟨q, hq, u, hu, hb.symm⟩

theorem ProperPrefix.length_lt {p s : Bytes} (h : ProperPrefix p s) : p.length < s.length := by
  obtain ⟨u, hu, hp⟩ := h
  have := congrArg List.length hp
  have := List.length_pos_iff.mpr hu
  rw [List.length_append] at *
  omega

/-! ## Lines -/

/-- A line cut before its end has no line end. -/
theorem findCrlf_cut {line p : Bytes} (h : (13 : UInt8) ∉ line)
    (hp : ProperPrefix p (line ++ crlf)) : findCrlf p = none := by
  induction line generalizing p with
  | nil =>
    obtain ⟨u, hu, hpu⟩ := hp
    match p, hpu with
    | [], _ => rfl
    | [b], hpu =>
      cases hpu
      rfl
    | [b, c], hpu =>
      simp only [List.cons_append, List.nil_append, crlf, List.cons.injEq] at hpu
      exact absurd hpu.2.2 hu
    | b :: c :: d :: p, hpu => simp [crlf] at hpu
  | cons b line ih =>
    have hb : b ≠ 13 := fun hb => h (hb ▸ List.mem_cons_self ..)
    obtain ⟨u, hu, hpu⟩ := hp
    cases p with
    | nil => rfl
    | cons c p =>
      obtain ⟨hcb, hrest⟩ := List.cons.inj hpu
      rw [hcb, findCrlf_cons hb, ih (fun hm => h (List.mem_cons_of_mem b hm)) ⟨u, hu, hrest⟩]
      rfl

/-! ## Numbers -/

theorem digit_ne {b c : UInt8} (hb : Decimal.IsDigit b) (hc : ¬ Decimal.IsDigit c) : b ≠ c :=
  fun h => hc (h ▸ hb)

theorem digit_not_space {b : UInt8} (hb : Decimal.IsDigit b) : ¬ IsSpace b := by
  obtain ⟨h1, _⟩ := hb
  rintro (h | ⟨_, h⟩)
  · rw [h] at h1
    exact absurd h1 (by decide)
  · exact absurd (UInt8.le_trans h1 h) (by decide)

theorem render_no_cr (n : Nat) : (13 : UInt8) ∉ Decimal.render n :=
  fun h => absurd (Decimal.render_digits n 13 h) (by decide)

theorem longToInt_small {n : Nat} (h : n ≤ INT_MAX) : longToInt n = n := by
  simp only [longToInt, INT_MAX] at *
  omega

/-- White space in front of nothing but more bytes does not end inside them. -/
theorem dropWhile_append {s : Bytes} (hs : ∃ b ∈ s, ¬ IsSpace b) (t : Bytes) :
    ∃ c rest, s.dropWhile (fun b => decide (IsSpace b)) = c :: rest ∧
      (s ++ t).dropWhile (fun b => decide (IsSpace b)) = c :: (rest ++ t) := by
  have hne : s.dropWhile (fun b => decide (IsSpace b)) ≠ [] := by
    intro hnil
    obtain ⟨b, hb, hspace⟩ := hs
    exact hspace (by simpa using List.dropWhile_eq_nil_iff.mp hnil b hb)
  obtain ⟨c, rest, hc⟩ := List.exists_cons_of_ne_nil hne
  refine ⟨c, rest, hc, ?_⟩
  rw [List.dropWhile_append, hc]
  rfl

/-- A number that starts in front of a line end is read in front of it. -/
theorem atoi_stop {s : Bytes} (hs : ∃ b ∈ s, ¬ IsSpace b) (t : Bytes) :
    atoi (s ++ 13 :: t) = atoi s := by
  obtain ⟨c, rest, hshort, hlong⟩ := dropWhile_append hs (13 :: t)
  have hscan := fun u => Decimal.scan_stop u (by decide : ¬ Decimal.IsDigit 13) t 0
  rw [atoi, atoi, hshort, hlong]
  split
  · next heq =>
    cases heq
    simp only [hscan]
  · next heq =>
    cases heq
    simp only [hscan]
  · next hneg hpos =>
    rw [← List.cons_append, hscan]
    split
    · next heq =>
      cases heq
      exact absurd rfl (hneg _)
    · next heq =>
      cases heq
      exact absurd rfl (hpos _)
    · rfl

theorem atoi_digits {s : Bytes} (hs : ∀ b ∈ s, Decimal.IsDigit b) :
    atoi s = longToInt (Decimal.scan s 0 : Nat) := by
  cases s with
  | nil => rfl
  | cons b s =>
    have hb := hs b (List.mem_cons_self ..)
    rw [atoi, List.dropWhile_cons_of_neg (by simpa using digit_not_space hb)]
    split
    · next heq => exact absurd (List.cons.inj heq).1 (digit_ne hb (by decide))
    · next heq => exact absurd (List.cons.inj heq).1 (digit_ne hb (by decide))
    · rfl

theorem digits_visible {s : Bytes} (hne : s ≠ []) (hs : ∀ b ∈ s, Decimal.IsDigit b) :
    ∃ b ∈ s, ¬ IsSpace b := by
  obtain ⟨b, rest, rfl⟩ := List.exists_cons_of_ne_nil hne
  have hmem : b ∈ b :: rest := List.mem_cons_self ..
  exact ⟨b, hmem, digit_not_space (hs b hmem)⟩

/-- `atoi` on a rendered number that is followed by a line end. -/
theorem atoi_render_long (n : Nat) (t : Bytes) :
    atoi (Decimal.render n ++ (crlf ++ t)) = longToInt n := by
  have hdigits := Decimal.render_digits n
  have hvisible := digits_visible (Decimal.render_ne_nil n) hdigits
  calc atoi (Decimal.render n ++ (crlf ++ t))
    _ = atoi (Decimal.render n) := atoi_stop hvisible (10 :: t)
    _ = longToInt (Decimal.scan (Decimal.render n) 0 : Nat) := atoi_digits hdigits
    _ = longToInt n := by rw [Decimal.scan_render]

/-! ## One bulk string -/

/-- The header line of a bulk string, without its line end. -/
def bulkHeader (a : Bytes) : Bytes := 36 :: Decimal.render a.length

theorem encodeBulkString_eq (a t : Bytes) :
    encodeBulkString a ++ t = bulkHeader a ++ (crlf ++ (a ++ (crlf ++ t))) := by
  have hdollar : bytes "$" = [36] := by decide
  simp [encodeBulkString, bulkHeader, hdollar]

theorem bulkHeader_no_cr (a : Bytes) : (13 : UInt8) ∉ bulkHeader a := by
  intro h
  rcases List.mem_cons.mp h with h | h
  · exact absurd h (by decide)
  · exact render_no_cr a.length h

/-- A rendered header is read back whole. -/
theorem readHeader_render (mark : UInt8) (n : Nat) (body : Bytes) :
    readHeader mark (mark :: (Decimal.render n ++ (crlf ++ body))) =
      .line (Decimal.render n) body := by
  rw [← List.append_assoc]
  exact readHeader_found (render_no_cr n) mark body

theorem number_render (n : Nat) (body : Bytes) :
    number (Decimal.render n) body = longToInt n := by
  rw [number, List.append_assoc, atoi_render_long]

/-- A header cut before the end of its line is not read. -/
theorem readHeader_cut {mark : UInt8} {line p : Bytes} (h : (13 : UInt8) ∉ line)
    (hp : ProperPrefix p (mark :: (line ++ crlf))) : readHeader mark p = .missing := by
  cases p with
  | nil => rfl
  | cons b p =>
    obtain ⟨u, hu, hpu⟩ := hp
    obtain ⟨rfl, hrest⟩ := List.cons.inj hpu
    have hfind := findCrlf_cut h ⟨u, hu, hrest⟩
    simp only [readHeader, ne_eq, not_true_eq_false, ↓reduceIte, hfind]

/-- A length that does not fit in an `int` is read as a negative one. -/
theorem argsFrom_overlong {a : Bytes} (ha : longToInt a.length < -1) (count : Nat) (body : Bytes)
    (args : List Bytes) :
    argsFrom (count + 1) (bulkHeader a ++ (crlf ++ body)) args = (.ERROR, args) := by
  have hread : readHeader 36 (bulkHeader a ++ (crlf ++ body)) = .line _ body :=
    readHeader_render 36 a.length body
  rw [argsFrom_line hread, number_render, readBulk, if_pos ha, resume, List.append_nil]

theorem argsFrom_bulk {a : Bytes} (ha : a.length ≤ INT_MAX) (count : Nat) (t : Bytes)
    (args : List Bytes) :
    argsFrom (count + 1) (encodeBulkString a ++ t) args = argsFrom count t (args ++ [a]) := by
  have hread : readHeader 36 (bulkHeader a ++ (crlf ++ (a ++ (crlf ++ t)))) = .line _ _ :=
    readHeader_render 36 a.length (a ++ (crlf ++ t))
  rw [encodeBulkString_eq, argsFrom_line hread, number_render, longToInt_small ha,
    ← List.append_assoc, readBulk_found, resume]

/-- A payload cut before the end of its line is waited for. -/
theorem readBulk_cut {a q : Bytes} (hq : ProperPrefix q (a ++ crlf)) :
    ∃ pushed, readBulk a.length q = .stop .INCOMPLETE pushed := by
  have hlt := hq.length_lt
  have hcrlf : crlf.length = 2 := rfl
  rw [List.length_append, hcrlf] at hlt
  have h1 : ¬ (a.length : Int) < -1 := by omega
  have h2 : ¬ (a.length : Int) = -1 := by omega
  rw [readBulk, if_neg h1, if_neg h2, Int.toNat_natCast]
  split
  · exact ⟨_, rfl⟩
  · next hfit =>
    have hshort : (q.drop a.length).length < 2 := by
      rw [List.length_drop]
      omega
    rcases hd : q.drop a.length with _ | ⟨c, _ | ⟨d, tail⟩⟩
    · exact ⟨_, rfl⟩
    · exact ⟨_, rfl⟩
    · rw [hd] at hshort
      simp only [List.length_cons] at hshort
      omega

/-- A bulk string cut before its end is incomplete. -/
theorem argsFrom_cut {a : Bytes} (ha : a.length ≤ INT_MAX) (count : Nat) {p : Bytes}
    (args : List Bytes) (hp : ProperPrefix p (encodeBulkString a)) :
    (argsFrom (count + 1) p args).1 = .INCOMPLETE := by
  have henc := encodeBulkString_eq a []
  rw [List.append_nil, List.append_nil] at henc
  rw [henc, ← List.append_assoc] at hp
  rcases hp.split with hp | ⟨q, rfl, hq⟩
  · -- inside the header line
    rw [argsFrom_missing (readHeader_cut (render_no_cr a.length) hp)]
  · -- inside the payload or its line end
    have hread : readHeader 36 (bulkHeader a ++ (crlf ++ q)) = .line _ q :=
      readHeader_render 36 a.length q
    obtain ⟨pushed, hturn⟩ := readBulk_cut hq
    rw [List.append_assoc, argsFrom_line hread, number_render, longToInt_small ha, hturn, resume]

/-! ## The arguments -/

theorem argsFrom_all {args : List Bytes} (h : ∀ a ∈ args, a.length ≤ INT_MAX) (t : Bytes)
    (done : List Bytes) :
    argsFrom args.length (args.flatMap encodeBulkString ++ t) done = (.COMPLETE, done ++ args) := by
  induction args generalizing done with
  | nil => simp [argsFrom]
  | cons a args ih =>
    rw [List.flatMap_cons, List.append_assoc, List.length_cons,
      argsFrom_bulk (h a (List.mem_cons_self ..)),
      ih fun b hb => h b (List.mem_cons_of_mem a hb)]
    simp

theorem argsFrom_all_cut {args : List Bytes} (h : ∀ a ∈ args, a.length ≤ INT_MAX) {p : Bytes}
    (hp : ProperPrefix p (args.flatMap encodeBulkString)) (done : List Bytes) :
    (argsFrom args.length p done).1 = .INCOMPLETE := by
  induction args generalizing p done with
  | nil => exact absurd hp.length_lt (by simp)
  | cons a args ih =>
    have ha := h a (List.mem_cons_self ..)
    rw [List.flatMap_cons] at hp
    rcases hp.split with hp | ⟨q, rfl, hq⟩
    · exact argsFrom_cut ha args.length done hp
    · rw [List.length_cons, argsFrom_bulk ha]
      exact ih (fun b hb => h b (List.mem_cons_of_mem a hb)) hq _

/-! ## The frame -/

/-- The header line of a request, without its line end. -/
def arrayHeader (args : List Bytes) : Bytes := 42 :: Decimal.render args.length

theorem encodeArray_eq (args : List Bytes) :
    encodeArray args = arrayHeader args ++ crlf ++ args.flatMap encodeBulkString := by
  have hstar : bytes "*" = [42] := by decide
  simp [encodeArray, arrayHeader, hstar]

theorem arrayHeader_no_cr (args : List Bytes) : (13 : UInt8) ∉ arrayHeader args := by
  intro h
  rcases List.mem_cons.mp h with h | h
  · exact absurd h (by decide)
  · exact render_no_cr args.length h

/-- The parser behind a complete array header. -/
theorem frameFrom_header {args : List Bytes} (hlen : args.length ≤ INT_MAX) (body : Bytes) :
    frameFrom (arrayHeader args ++ crlf ++ body) = argsFrom args.length body [] := by
  have hread : readHeader 42 (arrayHeader args ++ (crlf ++ body)) = .line _ body :=
    readHeader_render 42 args.length body
  have hpos : ¬ (args.length : Int) < 0 := by omega
  rw [List.append_assoc, frameFrom_line hread, number_render, longToInt_small hlen, if_neg hpos,
    Int.toNat_natCast]

theorem frameFrom_cut {args : List Bytes} (hlen : args.length ≤ INT_MAX)
    (h : ∀ a ∈ args, a.length ≤ INT_MAX) {p : Bytes} (hp : ProperPrefix p (encodeArray args)) :
    (frameFrom p).1 = .INCOMPLETE := by
  rw [encodeArray_eq] at hp
  rcases hp.split with hp | ⟨q, rfl, hq⟩
  · rw [frameFrom_missing (readHeader_cut (render_no_cr args.length) hp)]
  · rw [frameFrom_header hlen]
    exact argsFrom_all_cut h hq []

/-! ## White space before the frame -/

theorem dropWhile_spaces {w : Bytes} (hw : ∀ b ∈ w, IsSpace b) (s : Bytes) :
    (w ++ s).dropWhile (fun b => decide (IsSpace b)) =
      s.dropWhile fun b => decide (IsSpace b) := by
  rw [List.dropWhile_append_of_pos]
  intro b hb
  simpa using hw b hb

theorem dropWhile_blank {w : Bytes} (hw : ∀ b ∈ w, IsSpace b) :
    w.dropWhile (fun b => decide (IsSpace b)) = [] :=
  List.dropWhile_eq_nil_iff.mpr fun b hb => by simpa using hw b hb

/-- No byte of a frame header is skipped as white space. -/
theorem frame_not_space {p : Bytes} {args : List Bytes} (hp : ∃ u, p ++ u = encodeArray args) :
    p.dropWhile (fun b => decide (IsSpace b)) = p := by
  cases p with
  | nil => rfl
  | cons b p =>
    obtain ⟨u, hu⟩ := hp
    rw [encodeArray_eq] at hu
    have hb : b = 42 := (List.cons.inj hu).1
    subst hb
    exact List.dropWhile_cons_of_neg (by decide)

theorem parse_frame {w : Bytes} (hw : ∀ b ∈ w, IsSpace b) {args : List Bytes}
    (hlen : args.length ≤ INT_MAX) (h : ∀ a ∈ args, a.length ≤ INT_MAX) (t : Bytes) :
    parse (w ++ encodeArray args ++ t) = .ok (.COMPLETE, args) := by
  rw [parse_eq, List.append_assoc, dropWhile_spaces hw, encodeArray_eq, List.append_assoc]
  have hstar : (arrayHeader args ++ crlf ++ (args.flatMap encodeBulkString ++ t)).dropWhile
      (fun b => decide (IsSpace b)) =
      arrayHeader args ++ crlf ++ (args.flatMap encodeBulkString ++ t) :=
    List.dropWhile_cons_of_neg (by decide)
  rw [hstar, frameFrom_header hlen, argsFrom_all h]
  rfl

/-- The parser refuses an argument whose length it reads as a negative `int`. -/
theorem parse_overlong {a b : Bytes} (ha : a.length ≤ INT_MAX)
    (hb : longToInt b.length < -1) : parse (encodeArray [a, b]) = .ok (.ERROR, [a]) := by
  have hbody : [a, b].flatMap encodeBulkString =
      encodeBulkString a ++ (bulkHeader b ++ (crlf ++ (b ++ (crlf ++ [])))) := by
    rw [← encodeBulkString_eq b, List.append_nil]
    simp
  rw [parse_eq, frame_not_space ⟨[], List.append_nil _⟩, encodeArray_eq,
    frameFrom_header (Nat.le_of_ble_eq_true rfl), hbody]
  rw [List.length_cons, argsFrom_bulk ha, List.length_singleton, argsFrom_overlong hb]
  rfl

theorem parse_cut {w : Bytes} (hw : ∀ b ∈ w, IsSpace b) {args : List Bytes}
    (hlen : args.length ≤ INT_MAX) (h : ∀ a ∈ args, a.length ≤ INT_MAX) {p : Bytes}
    (hp : ProperPrefix p (w ++ encodeArray args)) :
    ∃ rest, parse p = .ok (.INCOMPLETE, rest) := by
  have hout : (frameFrom (p.dropWhile fun b => decide (IsSpace b))).1 = .INCOMPLETE := by
    rcases hp.split with ⟨u, _, hpu⟩ | ⟨q, rfl, hq⟩
    · -- only white space so far
      rw [dropWhile_blank fun b hb => hw b (hpu ▸ List.mem_append_left u hb)]
      rfl
    · obtain ⟨u, hu, hqu⟩ := hq
      rw [dropWhile_spaces hw, frame_not_space ⟨u, hqu⟩]
      exact frameFrom_cut hlen h ⟨u, hu, hqu⟩
  exact ⟨_, by rw [parse_eq, ← hout]⟩

/-- **The parser inverts the request encoding** and waits for exactly the whole
frame: any argument list, any white space before it, any bytes after it, and any
cut before its end. -/
theorem parse_encodeArray (args : List Bytes) (w t : Bytes) (hw : ∀ b ∈ w, IsSpace b)
    (hlen : args.length ≤ INT_MAX) (hargs : ∀ a ∈ args, a.length ≤ INT_MAX) :
    parse (w ++ encodeArray args ++ t) = .ok (.COMPLETE, args) ∧
      ∀ p, ProperPrefix p (w ++ encodeArray args) →
        ∃ rest, parse p = .ok (.INCOMPLETE, rest) :=
  ⟨parse_frame hw hlen hargs t, fun _ hp => parse_cut hw hlen hargs hp⟩

theorem parse_encodeArray_binary :
    parse ([32] ++ encodeArray [[0, 13, 10], [], [36, 42]] ++ [42]) =
        .ok (.COMPLETE, [[0, 13, 10], [], [36, 42]]) ∧
      ∀ p, ProperPrefix p ([32] ++ encodeArray [[0, 13, 10], [], [36, 42]]) →
        ∃ rest, parse p = .ok (.INCOMPLETE, rest) :=
  parse_encodeArray [[0, 13, 10], [], [36, 42]] [32] [42] (by simp [IsSpace]) (by decide)
    (by decide)

end MiniRedis.RespParser
