import Mathlib.Data.List.DropRight
import MiniRedis.ProtocolRoundTrip

/-!
When the verdict of the parser is final.  A header line with a byte other than
white space is read up to its end.  A blank one is read on into what follows: its
number stays open when that is white space, a sign and digits and nothing more,
since the bytes that arrive later can go on with it.  With no number left open a
verdict stands; with one open a few digits withdraw it.
-/

namespace MiniRedis.RespParser

/-- A verdict on `s` is still the verdict with `t` behind. -/
def Final (s t : Bytes) : Prop :=
  (∀ args, parse s = .ok (.ERROR, args) → ∃ rest, parse (s ++ t) = .ok (.ERROR, rest)) ∧
    ∀ args, parse s = .ok (.COMPLETE, args) → parse (s ++ t) = .ok (.COMPLETE, args)

/-! ## Where `atoi` stops -/

theorem atoi_spaces {w : Bytes} (hw : ∀ b ∈ w, IsSpace b) (s : Bytes) :
    atoi (w ++ s) = atoi s := by
  rw [atoi, dropWhile_spaces hw, ← atoi]

theorem number_visible {text : Bytes} (h : ∃ b ∈ text, ¬ IsSpace b) (body : Bytes) :
    number text body = atoi text := by
  rw [number, List.append_assoc]
  exact atoi_stop h (10 :: body)

/-- White space, perhaps a sign, and digits to the end: the start of a number
that more bytes can go on with. -/
def Unended (body : Bytes) : Prop :=
  ∃ space sign digits, body = space ++ (sign ++ digits) ∧ (∀ b ∈ space, IsSpace b) ∧
    (sign = [] ∨ sign = [43] ∨ sign = [45]) ∧ ∀ b ∈ digits, Decimal.IsDigit b

/-- The bytes of a header line and what stands behind it settle its number: the
line has a byte other than white space, or it is blank and the number behind it
ends inside the input. -/
def Settled (line body : Bytes) : Prop := (∃ b ∈ line, ¬ IsSpace b) ∨ ¬ Unended body

/-- The digits that the input ends in. -/
def endDigits (s : Bytes) : Bytes := s.rtakeWhile fun b => decide (Decimal.IsDigit b)

theorem atoi_plus (s : Bytes) : atoi (43 :: s) = longToInt (Decimal.scan s 0 : Nat) := by
  rw [atoi, List.dropWhile_cons_of_neg (by decide)]
  rfl

theorem atoi_minus (s : Bytes) : atoi (45 :: s) = longToInt (-(Decimal.scan s 0 : Nat)) := by
  rw [atoi, List.dropWhile_cons_of_neg (by decide)]
  rfl

theorem atoi_unsigned {c : UInt8} (hspace : ¬ IsSpace c) (h43 : c ≠ 43) (h45 : c ≠ 45)
    (s : Bytes) : atoi (c :: s) = longToInt (Decimal.scan (c :: s) 0 : Nat) := by
  rw [atoi, List.dropWhile_cons_of_neg (by simpa using hspace)]
  split
  · next heq => exact absurd (List.cons.inj heq).1 h45
  · next heq => exact absurd (List.cons.inj heq).1 h43
  · rfl

/-- A number that ends inside the input is the same with more bytes behind. -/
theorem atoi_ended {body : Bytes} (h : ¬ Unended body) (t : Bytes) :
    atoi (body ++ t) = atoi body := by
  have hsplit := List.takeWhile_append_dropWhile (p := fun b => decide (IsSpace b)) (l := body)
  generalize hspace : body.takeWhile (fun b => decide (IsSpace b)) = space at hsplit
  have hall : ∀ b ∈ space, IsSpace b := by
    intro b hb
    rw [← hspace] at hb
    simpa using List.mem_takeWhile_imp hb
  cases hrest : body.dropWhile (fun b => decide (IsSpace b)) with
  | nil =>
    rw [hrest] at hsplit
    exact absurd ⟨space, [], [], hsplit.symm, hall, Or.inl rfl, by simp⟩ h
  | cons c rest =>
    have hc : ¬ IsSpace c := by
      have := List.dropWhile_get_zero_not (fun b => decide (IsSpace b)) body (by simp [hrest])
      simpa [hrest] using this
    rw [hrest] at hsplit
    subst hsplit
    rw [List.append_assoc, List.cons_append, atoi_spaces hall, atoi_spaces hall]
    -- a number without an end would be white space, a sign and digits
    have hend : ∀ sign digits, c :: rest = sign ++ digits →
        (sign = [] ∨ sign = [43] ∨ sign = [45]) → ∃ b ∈ digits, ¬ Decimal.IsDigit b := by
      intro sign digits heq hsign
      by_contra hnone
      push Not at hnone
      exact h ⟨space, sign, digits, by rw [heq], hall, hsign, hnone⟩
    by_cases h43 : c = 43
    · subst h43
      rw [atoi_plus, atoi_plus, Decimal.scan_ended (hend [43] rest rfl (Or.inr (Or.inl rfl)))]
    · by_cases h45 : c = 45
      · subst h45
        rw [atoi_minus, atoi_minus, Decimal.scan_ended (hend [45] rest rfl (Or.inr (Or.inr rfl)))]
      · rw [atoi_unsigned hc h43 h45, atoi_unsigned hc h43 h45, ← List.cons_append,
          Decimal.scan_ended (hend [] (c :: rest) rfl (Or.inl rfl))]

theorem crlf_spaces : ∀ b ∈ crlf, IsSpace b := by simp [crlf, IsSpace]

theorem number_blank {text : Bytes} (h : ∀ b ∈ text, IsSpace b) (body : Bytes) :
    number text body = atoi body := by
  have hline : ∀ b ∈ text ++ crlf, IsSpace b := by
    intro b hb
    rcases List.mem_append.mp hb with hb | hb
    · exact h b hb
    · exact crlf_spaces b hb
  exact atoi_spaces hline body

theorem Settled.number {line body : Bytes} (h : Settled line body) (t : Bytes) :
    number line (body ++ t) = number line body := by
  by_cases hline : ∃ b ∈ line, ¬ IsSpace b
  · rw [number_visible hline, number_visible hline]
  · have hblank : ∀ b ∈ line, IsSpace b := by simpa using hline
    rw [number_blank hblank, number_blank hblank]
    exact atoi_ended (h.resolve_left hline) t

/-! ## The loops with more bytes behind -/

theorem readBulk_stop {len : Int} {body : Bytes} {verdict : ParseResult} {pushed : List Bytes}
    (h : readBulk len body = .stop verdict pushed) : verdict = .ERROR ∨ verdict = .INCOMPLETE := by
  unfold readBulk at h
  split at h
  · cases h
    exact Or.inl rfl
  · split at h
    · cases h
    · split at h
      · cases h
        exact Or.inr rfl
      · split at h
        · split at h
          · cases h
            exact Or.inl rfl
          · cases h
        · cases h
          exact Or.inr rfl

/-- The argument loop that has a verdict does the same with `t` behind, when
every header it read keeps its number. -/
theorem argsFrom_append {t : Bytes} (count : Nat) {s : Bytes} (args : List Bytes)
    (hnum : ∀ h ∈ argsHeaders count s, number h.1 (h.2 ++ t) = number h.1 h.2)
    (hend : (argsFrom count s args).1 ≠ .INCOMPLETE) :
    argsFrom count (s ++ t) args = argsFrom count s args := by
  induction count generalizing s args with
  | zero => rfl
  | succ count ih =>
    cases hread : readHeader 36 s with
    | missing =>
      rw [argsFrom_missing hread] at hend
      exact absurd rfl hend
    | wrong => rw [argsFrom_wrong hread, argsFrom_wrong (readHeader_wrong_append hread t)]
    | line text body =>
      have hsame : number text (body ++ t) = number text body :=
        hnum (text, body) (argsHeaders_line hread count)
      rw [argsFrom_line hread] at hend ⊢
      rw [argsFrom_line (readHeader_append hread t), hsame]
      cases hturn : readBulk (number text body) body with
      | stop verdict pushed =>
        rcases readBulk_stop hturn with rfl | rfl
        · rw [readBulk_append_error hturn t]
        · rw [hturn] at hend
          exact absurd rfl hend
      | next arg tail =>
        rw [hturn] at hend
        rw [readBulk_append_next hturn t]
        refine ih (args ++ [arg]) (fun h hh => hnum h ?_) hend
        rw [argsHeaders_next hread hturn]
        exact List.mem_cons_of_mem _ hh

theorem frameFrom_append {s t text body : Bytes} (hread : readHeader 42 s = .line text body)
    (hsame : number text (body ++ t) = number text body)
    (hnum : ∀ h ∈ argsHeaders (number text body).toNat body,
      number h.1 (h.2 ++ t) = number h.1 h.2)
    (hend : (frameFrom s).1 ≠ .INCOMPLETE) : frameFrom (s ++ t) = frameFrom s := by
  rw [frameFrom_line hread] at hend ⊢
  rw [frameFrom_line (readHeader_append hread t), hsame]
  split
  · rfl
  · next hneg =>
    rw [if_neg hneg] at hend
    exact argsFrom_append _ [] hnum hend

/-- The parser at an array header that is there, with `t` behind the input. -/
theorem parse_line {s text body : Bytes}
    (hread : readHeader 42 (s.dropWhile fun b => decide (IsSpace b)) = .line text body)
    (t : Bytes) :
    parse (s ++ t) = .ok (if number text (body ++ t) < 0 then (.ERROR, [])
      else argsFrom (number text (body ++ t)).toNat (body ++ t) []) := by
  have hvisible : ∃ b ∈ s, ¬ IsSpace b := by
    by_contra hnone
    rw [dropWhile_blank (by simpa using hnone)] at hread
    cases hread
  obtain ⟨c, rest, hshort, hlong⟩ := dropWhile_append hvisible t
  rw [hshort] at hread
  rw [parse_eq, hlong, ← List.cons_append, frameFrom_line (readHeader_append hread t)]

/-- A parser run that has a verdict ends alike with `t` behind the input. -/
theorem parse_append {s t : Bytes} (hnum : ∀ h ∈ headers s, number h.1 (h.2 ++ t) = number h.1 h.2)
    {verdict : ParseResult} {args : List Bytes} (h : parse s = .ok (verdict, args))
    (hend : verdict ≠ .INCOMPLETE) : parse (s ++ t) = .ok (verdict, args) := by
  rw [parse_eq] at h ⊢
  have hout : frameFrom (s.dropWhile fun b => decide (IsSpace b)) = (verdict, args) :=
    Except.ok.inj h
  by_cases hblank : ∀ b ∈ s, IsSpace b
  · rw [dropWhile_blank hblank] at hout
    exact absurd (congrArg Prod.fst hout).symm hend
  · obtain ⟨c, rest, hshort, hlong⟩ := dropWhile_append (by simpa using hblank) t
    rw [hshort] at hout
    rw [hlong, ← List.cons_append]
    have hend' : (frameFrom (c :: rest)).1 ≠ .INCOMPLETE := by rwa [hout]
    rw [headers, hshort] at hnum
    cases hread : readHeader 42 (c :: rest) with
    | missing =>
      rw [frameFrom_missing hread] at hend'
      exact absurd rfl hend'
    | wrong =>
      rw [frameFrom_wrong (readHeader_wrong_append hread t), ← hout, frameFrom_wrong hread]
    | line text body =>
      rw [hread] at hnum
      have hsame := hnum (text, body) (List.mem_cons_self ..)
      rw [frameFrom_append hread hsame (fun h hh => hnum h (List.mem_cons_of_mem _ hh)) hend', hout]

/-- Numbers that stay what they are leave nothing open. -/
theorem final_of_numbers {s t : Bytes}
    (hnum : ∀ h ∈ headers s, number h.1 (h.2 ++ t) = number h.1 h.2) : Final s t :=
  ⟨fun args herr => ⟨args, parse_append hnum herr (by decide)⟩,
    fun args hall => parse_append hnum hall (by decide)⟩

/-! ## Where the headers stand -/

theorem argsHeaders_mem {count : Nat} {s : Bytes} {h : Bytes × Bytes}
    (hmem : h ∈ argsHeaders count s) :
    ∃ n text body, count = n + 1 ∧ readHeader 36 s = .line text body ∧
      (h = (text, body) ∨ ∃ arg tail, readBulk (number text body) body = .next arg tail ∧
        h ∈ argsHeaders n tail) := by
  cases count with
  | zero => cases hmem
  | succ n =>
    cases hread : readHeader 36 s with
    | missing | wrong => simp only [argsHeaders, hread, List.not_mem_nil] at hmem
    | line text body =>
      refine ⟨n, text, body, rfl, rfl, ?_⟩
      cases hturn : readBulk (number text body) body with
      | stop verdict pushed =>
        simp only [argsHeaders, hread, hturn, List.mem_singleton] at hmem
        exact Or.inl hmem
      | next arg tail =>
        rw [argsHeaders_next hread hturn] at hmem
        exact (List.mem_cons.mp hmem).imp_right fun hrest => ⟨arg, tail, rfl, hrest⟩

theorem headers_mem {s : Bytes} {h : Bytes × Bytes} (hmem : h ∈ headers s) :
    ∃ text body, readHeader 42 (s.dropWhile fun b => decide (IsSpace b)) = .line text body ∧
      (h = (text, body) ∨ h ∈ argsHeaders (number text body).toNat body) := by
  cases hread : readHeader 42 (s.dropWhile fun b => decide (IsSpace b)) with
  | missing | wrong => simp only [headers, hread, List.not_mem_nil] at hmem
  | line text body =>
    simp only [headers, hread] at hmem
    exact ⟨text, body, rfl, List.mem_cons.mp hmem⟩

theorem readHeader_suffix {mark : UInt8} {s text body : Bytes}
    (h : readHeader mark s = .line text body) : body <:+ s := by
  obtain ⟨_, _, rfl, _, _, _, rfl⟩ := readHeader_line h
  exact ⟨mark :: (text ++ crlf), rfl⟩

theorem readBulk_suffix {len : Int} {body arg tail : Bytes}
    (h : readBulk len body = .next arg tail) : tail <:+ body := by
  rcases readBulk_next h with ⟨_, _, rfl⟩ | ⟨_, _, rfl⟩
  · exact List.suffix_rfl
  · exact List.suffix_append (arg ++ crlf) tail

theorem argsHeaders_suffix {count : Nat} {s : Bytes} {h : Bytes × Bytes}
    (hmem : h ∈ argsHeaders count s) : h.2 <:+ s := by
  induction count generalizing s with
  | zero => cases hmem
  | succ count ih =>
    obtain ⟨_, text, body, hn, hread, rfl | ⟨arg, tail, hturn, hrest⟩⟩ := argsHeaders_mem hmem
    · exact readHeader_suffix hread
    · cases hn
      exact ((ih hrest).trans (readBulk_suffix hturn)).trans (readHeader_suffix hread)

theorem headers_suffix {s : Bytes} {h : Bytes × Bytes} (hmem : h ∈ headers s) : h.2 <:+ s := by
  obtain ⟨text, body, hread, rfl | hrest⟩ := headers_mem hmem
  · exact (readHeader_suffix hread).trans (List.dropWhile_suffix _)
  · exact ((argsHeaders_suffix hrest).trans (readHeader_suffix hread)).trans
      (List.dropWhile_suffix _)

/-! ## Headers with more bytes behind -/

theorem Unended.no_dollar {body : Bytes} (h : Unended body) : (36 : UInt8) ∉ body := by
  obtain ⟨space, sign, digits, rfl, hspace, hsign, hdigits⟩ := h
  intro hmem
  rcases List.mem_append.mp hmem with hmem | hmem
  · exact absurd (hspace 36 hmem) (by decide)
  · rcases List.mem_append.mp hmem with hmem | hmem
    · rcases hsign with rfl | rfl | rfl <;> simp at hmem
    · exact absurd (hdigits 36 hmem) (by decide)

theorem not_settled {line body : Bytes} (h : ¬ Settled line body) :
    (∀ b ∈ line, IsSpace b) ∧ Unended body := by
  rw [Settled, not_or, not_not] at h
  exact ⟨by simpa using h.1, h.2⟩

/-- No header stands behind an open number. -/
theorem Unended.no_headers {body tail : Bytes} (h : Unended body) (htail : tail <:+ body)
    {count : Nat} {header : Bytes × Bytes} : header ∉ argsHeaders count tail := by
  intro hmem
  obtain ⟨_, _, _, _, hread, _⟩ := argsHeaders_mem hmem
  obtain ⟨_, _, rfl, _⟩ := readHeader_line hread
  exact h.no_dollar (htail.mem (List.mem_cons_self ..))

/-- A header with another one behind has its number settled. -/
theorem settled_of_next {text body tail : Bytes} (htail : tail <:+ body) {count : Nat}
    {header : Bytes × Bytes} (hmem : header ∈ argsHeaders count tail) : Settled text body := by
  by_contra hopen
  exact (not_settled hopen).2.no_headers htail hmem

/-- The argument loop gets to each of its headers, whatever stands behind the input. -/
theorem argsFrom_reaches {line body : Bytes} (t : Bytes) {count : Nat} {s : Bytes}
    (hmem : (line, body) ∈ argsHeaders count s) (args : List Bytes) :
    ∃ left done, argsFrom count (s ++ t) args =
      resume left done (readBulk (number line (body ++ t)) (body ++ t)) := by
  induction count generalizing s args with
  | zero => cases hmem
  | succ count ih =>
    obtain ⟨_, text, front, hn, hread, heq | ⟨arg, tail, hturn, hrest⟩⟩ := argsHeaders_mem hmem
    · cases heq
      exact ⟨count, args, argsFrom_line (readHeader_append hread t) count args⟩
    · cases hn
      have hsettled : Settled text front := settled_of_next (readBulk_suffix hturn) hrest
      rw [argsFrom_line (readHeader_append hread t), hsettled.number t,
        readBulk_append_next hturn t]
      exact ih hrest (args ++ [arg])

/-- So does the parser, and what it makes of the number there is what it returns:
at the array header, or in the argument loop. -/
theorem parse_reaches {s line body : Bytes} (hmem : (line, body) ∈ headers s) :
    (∀ t, parse (s ++ t) = .ok (if number line (body ++ t) < 0 then (.ERROR, [])
      else argsFrom (number line (body ++ t)).toNat (body ++ t) [])) ∨
    ∀ t, ∃ left done, parse (s ++ t) =
      .ok (resume left done (readBulk (number line (body ++ t)) (body ++ t))) := by
  obtain ⟨text, front, hread, heq | hrest⟩ := headers_mem hmem
  · cases heq
    exact Or.inl (parse_line hread)
  · right
    intro t
    have hsettled : Settled text front := settled_of_next List.suffix_rfl hrest
    have hpos : ¬ number text front < 0 := by
      intro hneg
      rw [Int.toNat_of_nonpos (by omega)] at hrest
      cases hrest
    obtain ⟨left, done, hloop⟩ := argsFrom_reaches t hrest []
    exact ⟨left, done, by rw [parse_line hread, hsettled.number t, if_neg hpos, hloop]⟩

/-! ## Where an open number can get -/

theorem atoi_signed {sign : Bytes} (hsign : sign = [] ∨ sign = [43] ∨ sign = [45]) :
    ∃ σ : Int, (σ = 1 ∨ σ = -1) ∧ ∀ digits : Bytes, (∀ b ∈ digits, Decimal.IsDigit b) →
      atoi (sign ++ digits) = longToInt (σ * (Decimal.scan digits 0 : Nat)) := by
  rcases hsign with rfl | rfl | rfl
  · refine ⟨1, Or.inl rfl, fun digits hdigits => ?_⟩
    rw [List.nil_append, atoi_digits hdigits, Int.one_mul]
  · refine ⟨1, Or.inl rfl, fun digits _ => ?_⟩
    rw [List.singleton_append, atoi_plus, Int.one_mul]
  · refine ⟨-1, Or.inr rfl, fun digits _ => ?_⟩
    rw [List.singleton_append, atoi_minus, Int.neg_one_mul]

/-- Ten digits behind at most eight leave room for every residue of an `int`. -/
theorem longToInt_reaches {v : Nat} (hv : v < 10 ^ 8) {σ m : Int} (hσ : σ = 1 ∨ σ = -1)
    (hlow : -2 ^ 31 ≤ m) (hhigh : m < 2 ^ 31) :
    ∃ n < 10 ^ 10, longToInt (σ * (v * 10 ^ 10 + n : Nat)) = m := by
  refine ⟨((σ * m - v * 10 ^ 10) % 2 ^ 32).toNat, by omega, ?_⟩
  simp only [longToInt]
  rcases hσ with rfl | rfl
  · omega
  · omega

theorem length_le_endDigits {digits : Bytes} (hdigits : ∀ b ∈ digits, Decimal.IsDigit b)
    (front : Bytes) : digits.length ≤ (endDigits (front ++ digits)).length := by
  have hall : ∀ b ∈ digits.reverse, decide (Decimal.IsDigit b) = true := by
    intro b hb
    simpa using hdigits b (List.mem_reverse.mp hb)
  rw [endDigits, List.rtakeWhile, List.reverse_append, List.takeWhile_append_of_pos hall,
    List.length_reverse, List.length_append, List.length_reverse]
  omega

/-- Ten more digits make any `int` of an open number of at most eight. -/
theorem number_reaches {line body : Bytes} (hopen : ¬ Settled line body)
    (hshort : (endDigits body).length ≤ 8) {m : Int} (hlow : -2 ^ 31 ≤ m) (hhigh : m < 2 ^ 31) :
    ∃ t : Bytes, t.length = 10 ∧ number line (body ++ t) = m := by
  obtain ⟨hblank, space, sign, digits, rfl, hspace, hsign, hdigits⟩ := not_settled hopen
  have hv : Decimal.scan digits 0 < 10 ^ 8 := by
    have hlen := length_le_endDigits hdigits (space ++ sign)
    rw [List.append_assoc] at hlen
    exact (Decimal.scan_lt hdigits).trans_le (Nat.pow_le_pow_right (by omega) (by omega))
  obtain ⟨σ, hσ, hatoi⟩ := atoi_signed hsign
  obtain ⟨n, hn, hm⟩ := longToInt_reaches hv hσ hlow hhigh
  obtain ⟨t, hlen, ht, hscan⟩ := Decimal.exists_digits hn
  refine ⟨t, hlen, ?_⟩
  calc number line (space ++ (sign ++ digits) ++ t)
    _ = atoi (sign ++ (digits ++ t)) := by
      rw [number_blank hblank, List.append_assoc, atoi_spaces hspace, List.append_assoc]
    _ = longToInt (σ * (Decimal.scan (digits ++ t) 0 : Nat)) :=
      hatoi _ (List.forall_mem_append.mpr ⟨hdigits, ht⟩)
    _ = m := by rw [Decimal.scan_append hdigits, hscan, hm]

/-- Digits that make an open number negative turn the verdict into ERROR. -/
theorem open_can_fail {s line body : Bytes} (hmem : (line, body) ∈ headers s)
    (hopen : ¬ Settled line body) (hshort : (endDigits body).length ≤ 8) :
    ∃ t args, parse (s ++ t) = .ok (.ERROR, args) := by
  obtain ⟨t, _, hnum⟩ := number_reaches hopen hshort (m := -2) (by omega) (by omega)
  rcases parse_reaches hmem with harray | hbulk
  · exact ⟨t, [], by rw [harray, hnum]; rfl⟩
  · obtain ⟨left, done, hparse⟩ := hbulk t
    exact ⟨t, done ++ [], by rw [hparse, hnum]; rfl⟩

/-- Digits can also turn it into something else: zero arguments are complete, and
a length beyond the input is waited for. -/
theorem open_can_pass {s line body : Bytes} (hmem : (line, body) ∈ headers s)
    (hopen : ¬ Settled line body) (hshort : (endDigits body).length ≤ 8)
    (hlen : s.length + 10 < INT_MAX) :
    ∃ t verdict args, parse (s ++ t) = .ok (verdict, args) ∧ verdict ≠ .ERROR := by
  rcases parse_reaches hmem with harray | hbulk
  · obtain ⟨t, _, hnum⟩ := number_reaches hopen hshort (m := 0) (by omega) (by omega)
    exact ⟨t, .COMPLETE, [], by rw [harray, hnum]; rfl, by decide⟩
  · obtain ⟨t, ht, hnum⟩ := number_reaches hopen hshort (m := 2 ^ 31 - 1) (by omega) (by omega)
    obtain ⟨left, done, hparse⟩ := hbulk t
    have hbody := (headers_suffix hmem).length_le
    have hwait : readBulk (2 ^ 31 - 1) (body ++ t) = .stop .INCOMPLETE [] := by
      rw [readBulk, if_neg (by omega), if_neg (by omega), if_pos]
      rw [List.length_append, ht]
      simp only [INT_MAX] at hlen hbody
      omega
    exact ⟨t, .INCOMPLETE, done ++ [], by rw [hparse, hnum, hwait]; rfl, by decide⟩

theorem endDigits_suffix {s body : Bytes} (h : body <:+ s) :
    (endDigits body).length ≤ (endDigits s).length := by
  obtain ⟨front, rfl⟩ := h
  obtain ⟨rest, hrest⟩ : endDigits body <:+ body := List.rtakeWhile_suffix _ _
  have hdigits : ∀ b ∈ endDigits body, Decimal.IsDigit b := fun b hb => by
    simpa using List.mem_rtakeWhile_imp hb
  have hle := length_le_endDigits hdigits (front ++ rest)
  rwa [List.append_assoc, hrest] at hle

/-! ## A blank array header -/

theorem atoi_dollar (s : Bytes) : atoi (36 :: s) = 0 := by
  have hdigit : ¬ Decimal.IsDigit 36 := by decide
  rw [atoi_unsigned (by decide) (by decide) (by decide), Decimal.scan, if_neg hdigit]
  rfl

theorem atoi_nonzero {s : Bytes} (h : atoi s ≠ 0) : ∃ b rest, s = b :: rest ∧ b ≠ 36 := by
  cases s with
  | nil => exact absurd rfl h
  | cons b rest =>
    refine ⟨b, rest, rfl, ?_⟩
    rintro rfl
    exact h (atoi_dollar rest)

/-- At a blank array header the parser either finishes at once, or looks for the
first argument at the number it has just read. -/
theorem parse_blank {s text body : Bytes}
    (hread : readHeader 42 (s.dropWhile fun b => decide (IsSpace b)) = .line text body)
    (hblank : ∀ b ∈ text, IsSpace b) (t : Bytes) :
    parse (s ++ t) = .ok (if atoi (body ++ t) = 0 then (.COMPLETE, []) else (.ERROR, [])) := by
  rw [parse_line hread, number_blank hblank]
  by_cases hzero : atoi (body ++ t) = 0
  · rw [hzero]
    rfl
  · rw [if_neg hzero]
    split
    · rfl
    · obtain ⟨b, rest, heq, hb⟩ := atoi_nonzero hzero
      obtain ⟨count, hcount⟩ : ∃ count, (atoi (body ++ t)).toNat = count + 1 :=
        ⟨(atoi (body ++ t)).toNat - 1, by omega⟩
      rw [hcount, heq]
      exact congrArg _ (if_pos hb)

/-! ## Final verdicts -/

/-- A blank array header leaves the verdict open exactly when the bytes behind
make its number zero, or make it other than zero. -/
theorem final_blank_iff {s text body : Bytes}
    (hread : readHeader 42 (s.dropWhile fun b => decide (IsSpace b)) = .line text body)
    (hblank : ∀ b ∈ text, IsSpace b) (t : Bytes) :
    Final s t ↔ (atoi body = 0 ↔ atoi (body ++ t) = 0) := by
  have hshort := parse_blank hread hblank []
  rw [List.append_nil, List.append_nil] at hshort
  simp only [Final, hshort, parse_blank hread hblank t]
  by_cases hzero : atoi body = 0
  · by_cases hzero' : atoi (body ++ t) = 0
    · simp [hzero, hzero']
    · simp [hzero, hzero']
  · by_cases hzero' : atoi (body ++ t) = 0
    · simp [hzero, hzero']
    · simp [hzero, hzero']

/-- **A verdict is final when the bytes settle the numbers it rests on**: whatever
comes behind, a malformed input stays malformed and a complete one keeps its
arguments, as long as no header line is blank with nothing but white space, a
sign and digits behind it.  Such a line leaves the verdict open: a few digits
more withdraw it.  (Behind more than eight digits they need not: `strtol` may be
at the end of its range.) -/
theorem verdict_final_when (s : Bytes) :
    ((∀ h ∈ headers s, Settled h.1 h.2) → ∀ t, Final s t) ∧
      ∀ verdict args, parse s = .ok (verdict, args) → verdict ≠ .INCOMPLETE →
        (endDigits s).length ≤ 8 → s.length + 10 < INT_MAX →
        ((∀ t, Final s t) ↔ ∀ h ∈ headers s, Settled h.1 h.2) := by
  have hfinal : (∀ h ∈ headers s, Settled h.1 h.2) → ∀ t, Final s t := fun hsettled t =>
    final_of_numbers fun h hh => (hsettled h hh).number t
  refine ⟨hfinal, fun verdict args hparse hend hshort hlen => ⟨?_, hfinal⟩⟩
  rintro hall ⟨line, body⟩ hmem
  by_contra hopen
  have hshort' : (endDigits body).length ≤ 8 :=
    (endDigits_suffix (headers_suffix hmem)).trans hshort
  cases verdict with
  | INCOMPLETE => exact hend rfl
  | COMPLETE =>
    obtain ⟨t, _, hfail⟩ := open_can_fail hmem hopen hshort'
    rw [(hall t).2 args hparse] at hfail
    cases hfail
  | ERROR =>
    obtain ⟨t, other, _, hpass, hne⟩ := open_can_pass hmem hopen hshort' hlen
    obtain ⟨rest, herr⟩ := (hall t).1 args hparse
    rw [herr] at hpass
    cases hpass
    exact hne rfl

/-- One command is final; one whose bulk header is blank is not. -/
theorem verdict_final_when_pipelined :
    (∀ t, Final (encodeArray [[80, 73, 78, 71]]) t) ∧
      ¬ ∀ t, Final [42, 49, 13, 10, 36, 13, 10, 13, 10] t := by
  constructor
  · have hvisible : ∀ h ∈ headers (encodeArray [[80, 73, 78, 71]]), ∃ b ∈ h.1, ¬ IsSpace b := by
      decide
    exact (verdict_final_when _).1 fun h hh => Or.inl (hvisible h hh)
  · intro hall
    have hsettled := ((verdict_final_when [42, 49, 13, 10, 36, 13, 10, 13, 10]).2 .COMPLETE [[]]
      (by decide) (by decide) (by decide) (by decide)).mp hall ([], [13, 10]) (by decide)
    have hopen : Unended [13, 10] := ⟨crlf, [], [], rfl, crlf_spaces, Or.inl rfl, by simp⟩
    rcases hsettled with ⟨_, hmem, _⟩ | hended
    · cases hmem
    · exact hended hopen

/-- The empty array header is complete, and malformed once a digit follows it. -/
theorem verdict_is_withdrawn : ¬ Final [42, 13, 10] [53] := by
  intro h
  have hlong : parse ([42, 13, 10] ++ [53]) = .ok (.COMPLETE, []) := h.2 [] rfl
  cases hlong

end MiniRedis.RespParser
