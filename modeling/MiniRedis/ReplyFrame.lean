import MiniRedis.ProtocolRoundTrip
import MiniRedis.Safety

/-!
Which replies are one RESP value.  Text goes into a reply unescaped only in the
simple string and the error line; there a CR or LF breaks the line.  The one
reply that carries a client's bytes in such a line is the one to an unknown
command.
-/

namespace MiniRedis

open RespParser CommandHandler

/-- The byte strings that are exactly one RESP value. -/
inductive Frame : Bytes → Prop
  | simple {text : Bytes} : OneLine text → Frame (bytes "+" ++ text ++ crlf)
  | error {text : Bytes} : OneLine text → Frame (bytes "-" ++ text ++ crlf)
  | integer (n : Int) : Frame (bytes ":" ++ RespParser.toString n ++ crlf)
  | null : Frame (bytes "$-1" ++ crlf)
  | bulk (value : Bytes) :
      Frame (bytes "$" ++ Decimal.render value.length ++ crlf ++ value ++ crlf)
  | array (values : List Bytes) :
      Frame (bytes "*" ++ Decimal.render values.length ++ crlf ++
        values.flatMap fun value =>
          bytes "$" ++ Decimal.render value.length ++ crlf ++ value ++ crlf)

/-! ## Lines -/

theorem oneLine_append {a b : Bytes} : OneLine (a ++ b) ↔ OneLine a ∧ OneLine b := by
  simp only [OneLine, List.mem_append, not_or]
  exact and_and_and_comm

theorem bytes_plus : bytes "+" = [43] := by decide
theorem bytes_minus : bytes "-" = [45] := by decide
theorem bytes_colon : bytes ":" = [58] := by decide
theorem bytes_dollar : bytes "$" = [36] := by decide
theorem bytes_null : bytes "$-1" = [36, 45, 49] := by decide
theorem bytes_star : bytes "*" = [42] := by decide

theorem crlf_cancel {a b : Bytes} (h : a ++ crlf = b ++ crlf) : a = b :=
  List.append_cancel_right h

/-- A simple string is a frame only if its text is one line. -/
theorem Frame.simple_iff {text : Bytes} : Frame (bytes "+" ++ text ++ crlf) ↔ OneLine text := by
  refine ⟨fun h => ?_, .simple⟩
  generalize hb : bytes "+" ++ text ++ crlf = b at h
  cases h with
  | simple h => exact (List.append_cancel_left (crlf_cancel hb)) ▸ h
  | error => simp [bytes_plus, bytes_minus] at hb
  | integer => simp [bytes_plus, bytes_colon] at hb
  | null => simp [bytes_plus, bytes_null] at hb
  | bulk => simp [bytes_plus, bytes_dollar] at hb
  | array => simp [bytes_plus, bytes_star] at hb

theorem Frame.error_iff {text : Bytes} : Frame (bytes "-" ++ text ++ crlf) ↔ OneLine text := by
  refine ⟨fun h => ?_, .error⟩
  generalize hb : bytes "-" ++ text ++ crlf = b at h
  cases h with
  | error h => exact (List.append_cancel_left (crlf_cancel hb)) ▸ h
  | simple => simp [bytes_plus, bytes_minus] at hb
  | integer => simp [bytes_minus, bytes_colon] at hb
  | null => simp [bytes_minus, bytes_null] at hb
  | bulk => simp [bytes_minus, bytes_dollar] at hb
  | array => simp [bytes_minus, bytes_star] at hb

/-! ## Replies -/

/-- The text of the reply, if it has one, is one line. -/
def Reply.Lined : Reply → Prop
  | .simple text => OneLine text
  | .error msg => OneLine msg
  | _ => True

instance : (reply : Reply) → Decidable reply.Lined
  | .simple text => inferInstanceAs (Decidable (OneLine text))
  | .error msg => inferInstanceAs (Decidable (OneLine msg))
  | .integer _ => .isTrue trivial
  | .null => .isTrue trivial
  | .bulk _ => .isTrue trivial
  | .array _ => .isTrue trivial

theorem Reply.frame_iff (reply : Reply) : Frame reply.encode ↔ reply.Lined := by
  cases reply with
  | simple text => exact Frame.simple_iff
  | error msg =>
    have hsplit : bytes "-ERR " = bytes "-" ++ bytes "ERR " := by decide
    have herr : OneLine (bytes "ERR ") := by decide
    rw [Reply.encode, encodeError, hsplit, List.append_assoc (bytes "-"), Frame.error_iff,
      oneLine_append]
    exact ⟨fun h => h.2, fun h => ⟨herr, h⟩⟩
  | integer n => exact ⟨fun _ => trivial, fun _ => .integer n⟩
  | null => exact ⟨fun _ => trivial, fun _ => .null⟩
  | bulk value => exact ⟨fun _ => trivial, fun _ => .bulk value⟩
  | array values => exact ⟨fun _ => trivial, fun _ => .array values⟩

theorem Reply.ofOption_lined (value : Option Bytes) : (Reply.ofOption value).Lined := by
  cases value <;> trivial

namespace CommandHandler

variable {hash : Bytes → Nat}

/-- An answer to anything but a refused request has no text of the client's in a
line. -/
theorem perform_lined {env : Surroundings} {r : Request} {w w' : World} {reply : Reply}
    (hs : w.db.Safe) (h : perform hash env r w = .ok (reply, w'))
    (hr : ∀ msg, r ≠ .refused msg) : reply.Lined := by
  cases r with
  | refused msg => exact absurd rfl (hr msg)
  | ping =>
    cases h
    decide
  | set key value =>
    cases h
    decide
  | get key =>
    cases h
    exact Reply.ofOption_lined _
  | hset key field value =>
    rcases hs.hset hash key field value with ⟨s, _, hset⟩ | ⟨hashObj, _, hset⟩
    · simp only [perform, hset] at h
      cases h
      decide
    · simp only [perform, hset] at h
      cases h
      trivial
  | hget key field =>
    obtain ⟨v, _, hv⟩ := Exec.bind_eq_ok.mp h
    cases hv
    exact Reply.ofOption_lined v
  | del keys =>
    cases h
    trivial
  | exist keys =>
    cases h
    trivial
  | keys pattern =>
    cases h
    trivial
  | save =>
    obtain ⟨⟨saved, dump⟩, _, hv⟩ := Exec.bind_eq_ok.mp h
    cases hv
    cases saved <;> decide

/-! ## Refusals -/

/-- A command name that is none has no line end in it. -/
def LineSafe (args : List Bytes) : Prop :=
  ∀ name rest, args = name :: rest → toUpper name ∉ AssocList.keys commands → OneLine name

theorem lineSafe_cons {name : Bytes} {rest : List Bytes} : LineSafe (name :: rest) ↔
    (toUpper name ∉ AssocList.keys commands → OneLine name) := by
  constructor
  · exact fun h => h name rest rfl
  · rintro h _ _ ⟨⟩
    exact h

/-- The request of a command line is refused in one line, unless its name is
unknown and is not one. -/
theorem request_refused_iff (args : List Bytes) :
    (∀ msg, request args = .refused msg → OneLine msg) ↔ LineSafe args := by
  cases args with
  | nil =>
    constructor
    · rintro _ name rest ⟨⟩
    · rintro _ msg ⟨⟩
      decide
  | cons name args =>
    rw [lineSafe_cons, ← AssocList.lookup_eq_none]
    simp only [request]
    cases hcmd : commands.lookup (toUpper name) with
    | some pick =>
      constructor
      · rintro _ ⟨⟩
      · intro _ msg hr
        have hpick := commands_pick (AssocList.mem_of_lookup hcmd) (name :: args)
        simp only [hr] at hpick
        exact hpick.oneLine
    | none =>
      have hquote : OneLine (bytes "unknown command `") ∧ OneLine (bytes "`") := by decide
      constructor
      · intro h _
        exact (oneLine_append.mp (oneLine_append.mp (h _ rfl)).1).2
      · rintro h _ ⟨⟩
        exact oneLine_append.mpr ⟨oneLine_append.mpr ⟨hquote.1, h rfl⟩, hquote.2⟩

theorem reply_frame_iff {env : Surroundings} {args : List Bytes} {w w' : World} {resp : Bytes}
    (hs : w.db.Safe) (h : execute hash env args w = .ok (resp, w')) :
    Frame resp ↔ LineSafe args := by
  obtain ⟨reply, hrun, rfl⟩ := execute_ok h
  rw [Reply.frame_iff, ← request_refused_iff]
  by_cases hr : ∃ msg, request args = .refused msg
  · obtain ⟨msg, hr⟩ := hr
    rw [hr] at hrun ⊢
    cases hrun
    constructor
    · rintro h _ ⟨⟩
      exact h
    · exact fun h => h msg rfl
  · have hr : ∀ msg, request args ≠ .refused msg := fun msg h => hr ⟨msg, h⟩
    exact ⟨fun _ msg h => absurd h (hr msg), fun _ => perform_lined hs hrun hr⟩

/-- **One command, one reply frame**, exactly for the commands that are known or
whose name is one line. -/
theorem execute_frame_iff (hash : Bytes → Nat) (env : Surroundings) (args : List Bytes) (w : World)
    (hs : w.db.Safe) :
    ∃ resp w', execute hash env args w = .ok (resp, w') ∧ (Frame resp ↔ LineSafe args) := by
  obtain ⟨resp, w', hrun, _⟩ := execute_safe hash env args hs
  exact ⟨resp, w', hrun, reply_frame_iff hs hrun⟩

theorem execute_frame_iff_set :
    ∃ resp w', execute (fun _ => 0) ⟨.stored, true⟩ [bytes "set", [13, 10], [10]] World.empty =
      .ok (resp, w') ∧ (Frame resp ↔ LineSafe [bytes "set", [13, 10], [10]]) :=
  execute_frame_iff (fun _ => 0) ⟨.stored, true⟩ _ World.empty Database.empty_safe

/-- An unknown command whose name is a line of its own. -/
def brokenName : List Bytes := [bytes "x\r\n"]

theorem unknown_command_breaks_frame : ¬ ∀ resp w',
    execute (fun _ => 0) ⟨.stored, true⟩ brokenName World.empty = .ok (resp, w') → Frame resp := by
  intro h
  have hframe :
      Frame (Reply.error (bytes "unknown command `" ++ bytes "x\r\n" ++ bytes "`")).encode :=
    h _ World.empty rfl
  exact absurd ((Reply.frame_iff _).mp hframe) (by decide)

end CommandHandler

end MiniRedis
