import MiniRedis.ReplyFrame

/-!
A client that reads frames.  Whatever follows a frame on the stream, the client
takes exactly the frame off it; so from frames sent one behind the other it gets
each of them.
-/

namespace MiniRedis

open RespParser

/-! ## The client -/

/-- The first line of the stream and what is behind its end. -/
def readLine (s : Bytes) : Option (Bytes × Bytes) :=
  (findCrlf s).map fun k => (s.take k, s.drop (k + 2))

/-- What is behind the first `count` bulk strings. -/
def skipBulks : Nat → Bytes → Option Bytes
  | 0, s => some s
  | count + 1, s => do
      let (line, body) ← readLine s
      skipBulks count (body.drop (Decimal.scan (line.drop 1) 0 + 2))

/-- What is behind the first frame. -/
def skipFrame (s : Bytes) : Option Bytes := do
  let (line, body) ← readLine s
  match line with
  | 36 :: 45 :: _ => some body
  | 36 :: _ => skipBulks 1 s
  | 42 :: digits => skipBulks (Decimal.scan digits 0) body
  | _ => some body

/-- The first `count` frames, and what is behind them. -/
def readFrames : Nat → Bytes → Option (List Bytes × Bytes)
  | 0, s => some ([], s)
  | count + 1, s => do
      let rest ← skipFrame s
      let (frames, t) ← readFrames count rest
      some (s.take (s.length - rest.length) :: frames, t)

/-! ## One frame -/

theorem readLine_line {line : Bytes} (h : (13 : UInt8) ∉ line) (t : Bytes) :
    readLine (line ++ (crlf ++ t)) = some (line, t) := by
  have hbody : (line ++ (crlf ++ t)).drop (line.length + 2) = t := by
    rw [← List.append_assoc]
    exact List.drop_left' (by simp [crlf])
  rw [readLine, findCrlf_line h, Option.map_some, List.take_left, hbody]

theorem skipBulks_bulk (value : Bytes) (count : Nat) (t : Bytes) :
    skipBulks (count + 1) (encodeBulkString value ++ t) = skipBulks count t := by
  have hbody : (value ++ (crlf ++ t)).drop (value.length + 2) = t := by
    rw [← List.append_assoc]
    exact List.drop_left' (by simp [crlf])
  rw [encodeBulkString_eq, skipBulks, readLine_line (bulkHeader_no_cr value)]
  simp only [Option.bind_eq_bind, Option.bind_some, bulkHeader, List.drop_succ_cons,
    List.drop_zero, Decimal.scan_render, hbody]

theorem skipBulks_all (values : List Bytes) (t : Bytes) :
    skipBulks values.length (values.flatMap encodeBulkString ++ t) = some t := by
  induction values with
  | nil => rfl
  | cons value values ih =>
    rw [List.flatMap_cons, List.append_assoc, List.length_cons, skipBulks_bulk, ih]

/-- A frame of one line, whose first byte announces nothing more. -/
theorem skipFrame_line {b : UInt8} {text : Bytes} (hb : b ≠ 36 ∧ b ≠ 42)
    (h : (13 : UInt8) ∉ b :: text) (t : Bytes) :
    skipFrame (b :: text ++ (crlf ++ t)) = some t := by
  simp only [skipFrame, readLine_line h, Option.bind_eq_bind, Option.bind_some]
  split
  · next heq => exact absurd (List.cons.inj heq).1 hb.1
  · next heq => exact absurd (List.cons.inj heq).1 hb.1
  · next heq => exact absurd (List.cons.inj heq).1 hb.2
  · rfl

theorem toString_no_cr (n : Int) : (13 : UInt8) ∉ RespParser.toString n := by
  unfold RespParser.toString
  split
  · intro h
    rcases List.mem_append.mp h with h | h
    · exact absurd h (by decide)
    · exact render_no_cr _ h
  · exact render_no_cr _

/-- Whatever follows it, a frame ends where the client says. -/
theorem Frame.skip {f : Bytes} (h : Frame f) (t : Bytes) : skipFrame (f ++ t) = some t := by
  cases h with
  | @simple text htext =>
    rw [bytes_plus, List.append_assoc]
    exact skipFrame_line (by decide) (List.not_mem_cons_of_ne_of_not_mem (by decide) htext.1) t
  | @error text htext =>
    rw [bytes_minus, List.append_assoc]
    exact skipFrame_line (by decide) (List.not_mem_cons_of_ne_of_not_mem (by decide) htext.1) t
  | integer n =>
    rw [bytes_colon, List.append_assoc]
    exact skipFrame_line (by decide)
      (List.not_mem_cons_of_ne_of_not_mem (by decide) (toString_no_cr n)) t
  | null =>
    rw [bytes_null, List.append_assoc, skipFrame, readLine_line (by decide)]
    rfl
  | bulk value =>
    have hline := readLine_line (bulkHeader_no_cr value) (value ++ (crlf ++ t))
    have hbulk := skipBulks_bulk value 0 t
    rw [← encodeBulkString_eq] at hline
    show skipFrame (encodeBulkString value ++ t) = some t
    simp only [skipFrame, hline, Option.bind_eq_bind, Option.bind_some]
    split
    · next heq =>
      -- the length does not start with a minus sign
      have hdigit : (45 : UInt8) ∈ Decimal.render value.length :=
        (List.cons.inj heq).2 ▸ List.mem_cons_self ..
      exact absurd (Decimal.render_digits _ _ hdigit) (by decide)
    · exact hbulk
    · next heq => exact absurd (List.cons.inj heq).1 (by decide)
    · next h _ => exact absurd rfl (h _)
  | array values =>
    show skipFrame (encodeArray values ++ t) = some t
    rw [encodeArray_eq, List.append_assoc, List.append_assoc, skipFrame,
      readLine_line (arrayHeader_no_cr values)]
    simp only [Option.bind_eq_bind, Option.bind_some, arrayHeader, Decimal.scan_render,
      skipBulks_all]

/-- The client gets the frames it is sent, one by one. -/
theorem readFrames_frames {frames : List Bytes} (h : ∀ f ∈ frames, Frame f) (t : Bytes) :
    readFrames frames.length (frames.flatten ++ t) = some (frames, t) := by
  induction frames with
  | nil => rfl
  | cons f frames ih =>
    obtain ⟨hf, hframes⟩ := List.forall_mem_cons.mp h
    have hfirst : (f ++ (frames.flatten ++ t)).take
        ((f ++ (frames.flatten ++ t)).length - (frames.flatten ++ t).length) = f := by
      rw [List.length_append, Nat.add_sub_cancel, List.take_left]
    rw [List.flatten_cons, List.append_assoc, List.length_cons, readFrames, hf.skip]
    simp only [Option.bind_eq_bind, Option.bind_some, ih hframes, hfirst]

end MiniRedis
