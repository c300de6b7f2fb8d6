import MiniRedis.ParserFinality

/-!
The grammar of a request, and when the parser keeps to it.  `parse` finds the
end of a header line and leaves the number to `atoi`, which takes what it can
make of the line.  So an accepted input is a well-formed frame exactly when the
header lines it was read from are.
-/

namespace MiniRedis.RespParser

/-! ## The grammar -/

/-- `line` is a decimal number, digits only, and says `n`. -/
def Numeral (line : Bytes) (n : Nat) : Prop :=
  line ≠ [] ∧ (∀ b ∈ line, Decimal.IsDigit b) ∧ Decimal.scan line 0 = n

instance (line : Bytes) (n : Nat) : Decidable (Numeral line n) :=
  inferInstanceAs (Decidable (_ ∧ _ ∧ _))

/-- `-1`, the length of a null argument. -/
def nullLine : Bytes := [45, 49]

/-- The input begins with the bulk strings of the arguments; an empty argument
may also be a null one. -/
inductive Bulks : List Bytes → Bytes → Prop where
  | nil (rest : Bytes) : Bulks [] rest
  | null {args : List Bytes} {s : Bytes} (h : Bulks args s) :
      Bulks ([] :: args) (36 :: (nullLine ++ crlf ++ s))
  | bulk {line arg : Bytes} {args : List Bytes} {s : Bytes} (hline : Numeral line arg.length)
      (h : Bulks args s) : Bulks (arg :: args) (36 :: (line ++ crlf ++ (arg ++ crlf ++ s)))

/-- The input begins with a well-formed frame for the arguments. -/
def BeginsWithFrame (s : Bytes) (args : List Bytes) : Prop :=
  ∃ line body, Numeral line args.length ∧ Bulks args body ∧ s = 42 :: (line ++ crlf ++ body)

/-- A header line as the grammar has it: a decimal number that fits an `int`, or
the null length. -/
def Strict (line : Bytes) : Prop :=
  line = nullLine ∨ Numeral line (Decimal.scan line 0) ∧ Decimal.scan line 0 ≤ INT_MAX

instance (line : Bytes) : Decidable (Strict line) := inferInstanceAs (Decidable (_ ∨ _))

/-! ## Header lines of the grammar -/

theorem Numeral.visible {line : Bytes} {n : Nat} (h : Numeral line n) : ∃ b ∈ line, ¬ IsSpace b :=
  digits_visible h.1 h.2.1

theorem Numeral.no_cr {line : Bytes} {n : Nat} (h : Numeral line n) : (13 : UInt8) ∉ line :=
  fun hcr => absurd (h.2.1 13 hcr) (by decide)

theorem Numeral.number {line : Bytes} {n : Nat} (h : Numeral line n) (body : Bytes) :
    number line body = longToInt n := by
  rw [number_visible h.visible, atoi_digits h.2.1, h.2.2]

theorem number_null (body : Bytes) : number nullLine body = -1 :=
  number_visible ⟨45, by decide, by decide⟩ body

theorem longToInt_le (v : Int) : longToInt v ≤ INT_MAX := by
  simp only [longToInt, INT_MAX]
  omega

/-- A strict line is null, or says a number that is read as it stands. -/
theorem Strict.number {line : Bytes} (h : Strict line) (body : Bytes) :
    line = nullLine ∧ RespParser.number line body = -1 ∨
      ∃ n : Nat, Numeral line n ∧ RespParser.number line body = n := by
  rcases h with rfl | ⟨hline, hfit⟩
  · exact Or.inl ⟨rfl, number_null body⟩
  · exact Or.inr ⟨_, hline, by rw [hline.number, longToInt_small hfit]⟩

/-! ## What the argument loop has accepted -/

/-- A loop that is complete took its next argument. -/
theorem argsFrom_complete {count : Nat} {s : Bytes} {done all : List Bytes}
    (h : argsFrom (count + 1) s done = (.COMPLETE, all)) :
    ∃ text body arg tail, readHeader 36 s = .line text body ∧
      readBulk (number text body) body = .next arg tail ∧
      argsFrom count tail (done ++ [arg]) = (.COMPLETE, all) := by
  cases hread : readHeader 36 s with
  | missing =>
    rw [argsFrom_missing hread] at h
    cases h
  | wrong =>
    rw [argsFrom_wrong hread] at h
    cases h
  | line text body =>
    rw [argsFrom_line hread] at h
    cases hturn : readBulk (number text body) body with
    | stop verdict pushed =>
      rw [hturn] at h
      rcases readBulk_stop hturn with rfl | rfl <;> cases h
    | next arg tail =>
      rw [hturn] at h
      exact ⟨text, body, arg, tail, rfl, hturn, h⟩

theorem argsFrom_count {count : Nat} {s : Bytes} {done all : List Bytes}
    (h : argsFrom count s done = (.COMPLETE, all)) :
    ∃ args, all = done ++ args ∧ args.length = count := by
  induction count generalizing s done with
  | zero =>
    cases h
    exact ⟨[], (List.append_nil _).symm, rfl⟩
  | succ count ih =>
    obtain ⟨text, body, arg, tail, _, _, hrest⟩ := argsFrom_complete h
    obtain ⟨args, rfl, hlen⟩ := ih hrest
    refine ⟨arg :: args, ?_, ?_⟩
    · rw [List.append_assoc, List.singleton_append]
    · rw [List.length_cons, hlen]

/-- Strict bulk headers make the accepted arguments well-formed. -/
theorem argsFrom_sound {count : Nat} {s : Bytes} {done all : List Bytes}
    (h : argsFrom count s done = (.COMPLETE, all))
    (hstrict : ∀ h ∈ argsHeaders count s, Strict h.1) :
    ∃ args, all = done ++ args ∧ Bulks args s := by
  induction count generalizing s done with
  | zero =>
    cases h
    exact ⟨[], (List.append_nil _).symm, .nil s⟩
  | succ count ih =>
    obtain ⟨text, body, arg, tail, hread, hturn, hrest⟩ := argsFrom_complete h
    rw [argsHeaders_next hread hturn] at hstrict
    obtain ⟨args, rfl, hbulks⟩ := ih hrest fun h hh => hstrict h (List.mem_cons_of_mem _ hh)
    refine ⟨arg :: args, by rw [List.append_assoc, List.singleton_append], ?_⟩
    obtain ⟨_, _, rfl, _, _, _, rfl⟩ := readHeader_line hread
    rcases (hstrict (text, body) (List.mem_cons_self ..)).number body with
      ⟨htext, hnum⟩ | ⟨n, hline, hnum⟩
    · -- a null length
      dsimp only at htext hnum
      rw [hnum] at hturn
      rw [readBulk_null] at hturn
      cases hturn
      rw [htext]
      exact .null hbulks
    · -- a length that is read as it stands
      dsimp only at hnum hline
      rw [hnum] at hturn
      rcases readBulk_next hturn with ⟨hnull, _, _⟩ | ⟨_, harg, rfl⟩
      · omega
      · rw [Int.toNat_natCast] at harg
        exact .bulk (harg ▸ hline) hbulks

/-- What the parser reads at the front of a well-formed argument that it accepts. -/
theorem readBulk_strict {arg s arg' tail : Bytes}
    (h : readBulk (longToInt arg.length) (arg ++ crlf ++ s) = .next arg' tail) (harg : arg' = arg) :
    arg.length ≤ INT_MAX ∧ tail = s := by
  subst harg
  rcases readBulk_next h with ⟨hnull, rfl, _⟩ | ⟨hpos, hlen, hbody⟩
  · exact absurd hnull (by decide)
  · have hle := longToInt_le arg'.length
    refine ⟨by omega, ?_⟩
    simpa using hbody.symm

/-- Well-formed arguments that are accepted as such have strict bulk headers. -/
theorem Bulks.strict {args : List Bytes} {s : Bytes} (h : Bulks args s) {done : List Bytes}
    (hall : argsFrom args.length s done = (.COMPLETE, done ++ args)) :
    ∀ h ∈ argsHeaders args.length s, Strict h.1 := by
  induction h generalizing done with
  | nil rest =>
    intro h hh
    cases hh
  | @null args s _ ih =>
    have hread : readHeader 36 (36 :: (nullLine ++ crlf ++ s)) = .line nullLine s :=
      readHeader_found (by decide) 36 s
    have hturn : readBulk (number nullLine s) s = .next [] s := by
      rw [number_null, readBulk_null]
    rw [List.length_cons, argsFrom_line hread, hturn] at hall
    have hrest : argsFrom args.length s (done ++ [[]]) = (.COMPLETE, (done ++ [[]]) ++ args) := by
      rw [List.append_assoc, List.singleton_append]
      exact hall
    rw [List.length_cons, argsHeaders_next hread hturn]
    exact List.forall_mem_cons.mpr ⟨Or.inl rfl, ih hrest⟩
  | @bulk line arg args s hline _ ih =>
    have hread : readHeader 36 (36 :: (line ++ crlf ++ (arg ++ crlf ++ s))) =
        .line line (arg ++ crlf ++ s) := readHeader_found hline.no_cr 36 _
    rw [List.length_cons] at hall
    obtain ⟨text, body, arg', tail, hread', hturn, hrest⟩ := argsFrom_complete hall
    rw [hread] at hread'
    cases hread'
    obtain ⟨more, hmore, _⟩ := argsFrom_count hrest
    -- the argument that was taken is the one the grammar has there
    obtain ⟨harg, _⟩ : arg = arg' ∧ args = more := by
      rw [List.append_assoc] at hmore
      simpa using hmore
    have hturn' := hturn
    rw [hline.number] at hturn'
    obtain ⟨hfit, rfl⟩ := readBulk_strict hturn' harg.symm
    rw [← harg] at hrest
    rw [List.length_cons, argsHeaders_next hread hturn]
    refine List.forall_mem_cons.mpr ⟨Or.inr ?_, @ih (done ++ [arg]) ?_⟩
    · rw [hline.2.2]
      exact ⟨hline, hfit⟩
    · rw [hrest, List.append_assoc, List.singleton_append]

/-! ## The frame -/

/-- An input that was accepted: its array header, and the argument loop behind. -/
theorem frameFrom_complete {s : Bytes} {args : List Bytes} (h : frameFrom s = (.COMPLETE, args)) :
    ∃ text body, readHeader 42 s = .line text body ∧ 0 ≤ number text body ∧
      argsFrom (number text body).toNat body [] = (.COMPLETE, args) := by
  cases hread : readHeader 42 s with
  | missing =>
    rw [frameFrom_missing hread] at h
    cases h
  | wrong =>
    rw [frameFrom_wrong hread] at h
    cases h
  | line text body =>
    rw [frameFrom_line hread] at h
    split at h
    · cases h
    · next hneg => exact ⟨text, body, rfl, by omega, h⟩

/-- **What the parser accepts is a well-formed frame exactly when its header
lines are strict**: decimal numbers that fit an `int`, or the null length.  A
line with no digits, a sign, padding or other bytes behind the digits is
accepted as well, and then the input is no frame. -/
theorem complete_frame_iff (s : Bytes) (args : List Bytes)
    (h : parse s = .ok (.COMPLETE, args)) :
    BeginsWithFrame (s.dropWhile fun b => decide (IsSpace b)) args ↔
      ∀ h ∈ headers s, Strict h.1 := by
  rw [parse_eq] at h
  obtain ⟨text, body, hread, hpos, hargs⟩ := frameFrom_complete (Except.ok.inj h)
  have hheaders : headers s = (text, body) :: argsHeaders (number text body).toNat body := by
    simp only [headers, hread]
  obtain ⟨all, hall, hcount⟩ := argsFrom_count hargs
  rw [List.nil_append] at hall
  subst hall
  rw [hheaders, List.forall_mem_cons]
  constructor
  · rintro ⟨line, rest, hline, hbulks, hs⟩
    rw [hs, readHeader_found hline.no_cr] at hread
    cases hread
    have hnum := hline.number body
    have hfit := longToInt_le args.length
    rw [← hcount] at hargs ⊢
    refine ⟨Or.inr ?_, hbulks.strict hargs⟩
    rw [hline.2.2]
    exact ⟨hline, by omega⟩
  · rintro ⟨hstrict, hbulk⟩
    obtain ⟨args', hsame, hbulks⟩ := argsFrom_sound hargs hbulk
    rw [List.nil_append] at hsame
    subst hsame
    obtain ⟨_, _, hs, _, _, _, hrest⟩ := readHeader_line hread
    rcases hstrict.number body with ⟨_, hnum⟩ | ⟨n, hline, hnum⟩
    · dsimp only at hnum
      omega
    · dsimp only at hnum hline
      refine ⟨text, body, ?_, hbulks, by rw [hs, hrest]⟩
      have hn : args.length = n := by omega
      rwa [hn]

theorem complete_frame_iff_ping :
    BeginsWithFrame ((encodeArray [[80, 73, 78, 71]]).dropWhile fun b => decide (IsSpace b))
        [[80, 73, 78, 71]] ↔
      ∀ h ∈ headers (encodeArray [[80, 73, 78, 71]]), Strict h.1 :=
  complete_frame_iff (encodeArray [[80, 73, 78, 71]]) [[80, 73, 78, 71]] (by decide)

/-- `*+1` in front of one argument. -/
def signedFrame : Bytes := [42, 43, 49, 13, 10] ++ encodeBulkString [80, 73, 78, 71]

theorem signed_header_is_accepted :
    ¬ ∀ args, parse signedFrame = .ok (.COMPLETE, args) →
      BeginsWithFrame (signedFrame.dropWhile fun b => decide (IsSpace b)) args := by
  intro h
  obtain ⟨line, body, ⟨hne, hdigits, _⟩, _, hs⟩ := h [[80, 73, 78, 71]] (by decide)
  obtain ⟨b, rest, rfl⟩ := List.exists_cons_of_ne_nil hne
  have hb : (43 : UInt8) = b := (List.cons.inj (List.cons.inj hs).2).1
  subst hb
  exact absurd (hdigits 43 (List.mem_cons_self ..)) (by decide)

end MiniRedis.RespParser
