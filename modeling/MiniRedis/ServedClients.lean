import MiniRedis.Sessions
import MiniRedis.StoreRefinement

/-!
What the clients of a run get.  A client reads one frame for each buffer that was
taken from it; one that sends its commands in chunks of their own has each of them
executed once, in order, whatever the others do in between; and all the replies of
a run together are those of one reference store.
-/

namespace MiniRedis.Server

open RespParser Framing CommandHandler

variable {σ : Type} {execute : List Bytes → σ → Exec (Bytes × σ)} {listenFd fd : Int}
variable {records : List Record} {conn : Connection}

/-! ## Frames -/

theorem answers_sublist (listenFd fd : Int) (records : List Record) :
    (answers (sessionOf listenFd fd records)).Sublist (answers records) :=
  session_sublist.filterMap _

theorem Accounts.decided (h : Accounts listenFd fd records conn) {a : Answer}
    (ha : a ∈ answers (sessionOf listenFd fd records)) : Server.decided a.taken = true := by
  have hmem : a.taken ∈ (answers (sessionOf listenFd fd records)).map Answer.taken :=
    List.mem_map_of_mem ha
  have hfed := h.fed
  have htaken := congrArg Prod.fst hfed
  rw [show (answers (sessionOf listenFd fd records)).map Answer.taken =
    (feed Server.decided [] _).1 from htaken.symm] at hmem
  exact feed_decided hmem

theorem respond_safe {hash : Bytes → Nat} {env : Nat → Surroundings}
    {state state' : World × List (List Bytes)} {taken reply : Bytes} (hs : state.1.db.Safe)
    (h : respond (handler hash env) taken state = .ok (reply, state')) : state'.1.db.Safe := by
  rcases respond_cases h with ⟨args, _, hrun⟩ | ⟨_, _, _, rfl⟩ | ⟨_, _, _, rfl⟩
  · obtain ⟨resp, w', hrun', hs'⟩ := handler_safe hash env args hs state.2
    rw [show handler hash env args state = _ from hrun'] at hrun
    cases hrun
    exact hs'
  · exact hs
  · exact hs

/-- The answer to a decided buffer is a frame, if its command is known or named in
one line. -/
theorem respond_frame {hash : Bytes → Nat} {env : Nat → Surroundings}
    {state state' : World × List (List Bytes)} {taken reply : Bytes} (hs : state.1.db.Safe)
    (h : respond (handler hash env) taken state = .ok (reply, state'))
    (hdecided : Server.decided taken = true)
    (hline : ∀ args, parse taken = .ok (.COMPLETE, args) → LineSafe args) : Frame reply := by
  rcases respond_cases h with ⟨args, hparse, h⟩ | ⟨_, _, rfl, _⟩ | ⟨_, hparse, _⟩
  · obtain ⟨⟨resp, w'⟩, hrun, h⟩ := Exec.bind_eq_ok.mp h
    cases h
    exact (reply_frame_iff hs hrun).mpr (hline args hparse)
  · exact .error (by decide)
  · rw [decided_incomplete hparse] at hdecided
    cases hdecided

/-- The parser waits for exactly the whole of a command that fits. -/
theorem encodeArray_frame {args : List Bytes} (hfits : Fits args) :
    Framing.Frame decided (encodeArray args) where
  whole := by
    have hparse := parse_frame (w := []) (by simp) hfits.1 hfits.2 []
    rw [List.append_nil, List.nil_append] at hparse
    exact decided_complete hparse
  short := by
    rintro p ⟨u, hu⟩ hne
    have hcut : ProperPrefix p ([] ++ encodeArray args) :=
      ⟨u, fun hnil => hne (by rw [← hu, hnil, List.append_nil]), hu⟩
    obtain ⟨rest, hparse⟩ := parse_cut (w := []) (by simp) hfits.1 hfits.2 hcut
    exact decided_incomplete hparse

theorem encodeArray_ne_nil (args : List Bytes) : encodeArray args ≠ [] := by
  simp [encodeArray_eq, arrayHeader]

/-- The chunks a client has sent so far: its commands `sent`, each in chunks of its
own and within the parser's `int`s, and a part of the next one. -/
structure Sends (chunks : List Bytes) (sent : List (List Bytes)) (part : Bytes) : Prop where
  cut : ∃ (groups : List (List Bytes)) (last : List Bytes), chunks = groups.flatten ++ last ∧
    groups.map List.flatten = sent.map encodeArray ∧ last.flatten = part
  fits : ∀ args ∈ sent, Fits args
  next : ∃ args, Fits args ∧ ProperPrefix part (encodeArray args)

theorem Sends.feed {chunks : List Bytes} {sent : List (List Bytes)} {part : Bytes}
    (h : Sends chunks sent part) :
    Framing.feed decided [] chunks = (sent.map encodeArray, part) := by
  obtain ⟨⟨groups, last, rfl, hgroups, rfl⟩, hfits, next, hnext, u, hu, hpart⟩ := h
  have hframes : ∀ g ∈ groups, g.flatten ≠ [] ∧ Framing.Frame decided g.flatten := by
    intro g hg
    have hmem : g.flatten ∈ sent.map encodeArray := hgroups ▸ List.mem_map_of_mem hg
    obtain ⟨args, hargs, heq⟩ := List.mem_map.mp hmem
    rw [← heq]
    exact ⟨encodeArray_ne_nil args, encodeArray_frame (hfits args hargs)⟩
  have hne : [] ++ last.flatten ≠ encodeArray next := by
    intro heq
    rw [List.nil_append] at heq
    rw [← heq] at hpart
    exact hu (List.append_right_eq_self.mp hpart)
  have hlast : Framing.feed decided [] last = ([], [] ++ last.flatten) :=
    (encodeArray_frame hnext).feed_part ⟨u, hpart⟩ hne
  rw [feed_append, feed_frames decided_nil hframes, hlast, hgroups, List.append_nil,
    List.nil_append]

/-- The command in a buffer that is taken. -/
def commandOf (taken : Bytes) : Option (List Bytes) :=
  match parse taken with
  | .ok (.COMPLETE, args) => some args
  | _ => none

theorem respond_command {σ : Type} {execute : List Bytes → σ → Exec (Bytes × σ)} {taken : Bytes}
    {args : List Bytes} (h : commandOf taken = some args) (s : σ) :
    respond execute taken s = execute args s := by
  rw [commandOf] at h
  split at h
  · next hparse =>
    cases h
    simp only [respond, hparse, Exec.ok_bind]
  · cases h

/-- What is no command changes nothing; it is refused as soon as it is decided. -/
theorem respond_other {σ : Type} {execute : List Bytes → σ → Exec (Bytes × σ)} {taken : Bytes}
    (h : commandOf taken = none) (s : σ) :
    respond execute taken s =
      .ok (if decided taken then encodeError (bytes "protocol error") else [], s) := by
  have hparse := parse_eq taken
  generalize frameFrom (taken.dropWhile fun b => decide (IsSpace b)) = parsed at hparse
  obtain ⟨verdict, args⟩ := parsed
  cases verdict with
  | COMPLETE =>
    rw [commandOf, hparse] at h
    cases h
  | INCOMPLETE =>
    rw [decided_incomplete hparse]
    simp only [respond, hparse, Exec.ok_bind, Exec.pure_eq, Bool.false_eq_true, ↓reduceIte]
  | ERROR =>
    simp only [respond, decided, hparse, Exec.ok_bind, Exec.pure_eq, ↓reduceIte]

/-- The commands the loop has executed for these answers. -/
def commandsOf (as : List Answer) : List (List Bytes) := (as.map Answer.taken).filterMap commandOf

theorem commandOf_encodeArray {args : List Bytes} (hfits : Fits args) :
    commandOf (encodeArray args) = some args := by
  have hparse := parse_frame (w := []) (by simp) hfits.1 hfits.2 []
  rw [List.append_nil, List.nil_append] at hparse
  rw [commandOf, hparse]

/-- The handler's log grows by the command of a buffer, if it holds one. -/
theorem respond_log {hash : Bytes → Nat} {env : Nat → Surroundings}
    {state state' : World × List (List Bytes)} {taken reply : Bytes}
    (h : respond (handler hash env) taken state = .ok (reply, state')) :
    state'.2 = state.2 ++ (commandOf taken).toList := by
  cases hcmd : commandOf taken with
  | some args =>
    rw [respond_command hcmd] at h
    obtain ⟨⟨resp, w'⟩, _, h⟩ := Exec.bind_eq_ok.mp h
    cases h
    rfl
  | none =>
    rw [respond_other hcmd] at h
    cases h
    simp

theorem run_log {hash : Bytes → Nat} {env : Nat → Surroundings} {takens replies : List Bytes}
    {state state' : World × List (List Bytes)}
    (h : Run.run (respond (handler hash env)) takens state = .ok (replies, state')) :
    state'.2 = state.2 ++ takens.filterMap commandOf := by
  induction takens generalizing state replies with
  | nil =>
    cases h
    rw [List.filterMap_nil, List.append_nil]
  | cons taken takens ih =>
    obtain ⟨reply, state₁, replies', hfirst, hrest, rfl⟩ := Run.run_cons_inv h
    rw [ih hrest, respond_log hfirst, List.append_assoc]
    cases hcmd : commandOf taken <;> simp [hcmd]

/-- The reference store after a buffer is taken. -/
def storeNext (s : RefStore) (taken : Bytes) : RefStore :=
  match commandOf taken with
  | some args => s.next (request args)
  | none => s

/-- The replies of the reference store to a buffer: those to its command, or the
protocol error, or nothing as long as it is not decided. -/
def storeAnswers (s : RefStore) (taken reply : Bytes) : Prop :=
  match commandOf taken with
  | some args => ∃ r, s.Answers (request args) r ∧ r.encode = reply
  | none => reply = if decided taken then encodeError (bytes "protocol error") else []

/-- The `HSET` in a buffer, if it is one, writes behind no migration. -/
def TakenUnmigrated (hash : Bytes → Nat) (state : World × List (List Bytes)) (taken : Bytes) :
    Prop :=
  ∀ args ∈ commandOf taken, Database.Unmigrated hash state.1.db (request args)

instance (hash : Bytes → Nat) (state : World × List (List Bytes)) (taken : Bytes) :
    Decidable (TakenUnmigrated hash state taken) :=
  inferInstanceAs (Decidable (∀ args ∈ commandOf taken, _))

theorem respond_refines {hash : Bytes → Nat} (env : Nat → Surroundings)
    (state : World × List (List Bytes)) (s : RefStore) (taken : Bytes)
    (h : Database.Stores hash state.1.db s) (hu : TakenUnmigrated hash state taken) :
    ∃ reply state', respond (handler hash env) taken state = .ok (reply, state') ∧
      storeAnswers s taken reply ∧ Database.Stores hash state'.1.db (storeNext s taken) := by
  cases hcmd : commandOf taken with
  | some args =>
    obtain ⟨r, w', hrun, hans, hst⟩ := perform_refines (env state.2.length) h (hu args hcmd)
    refine ⟨r.encode, (w', state.2 ++ [args]), ?_, ?_, ?_⟩
    · simp [respond_command hcmd, handler, execute_eq, encodeReply, hrun]
    · rw [storeAnswers, hcmd]
      exact ⟨r, hans, rfl⟩
    · rw [storeNext, hcmd]
      exact hst
  | none =>
    refine ⟨_, state, respond_other hcmd state, ?_, ?_⟩
    · rw [storeAnswers, hcmd]
    · rw [storeNext, hcmd]
      exact h

/-- Two clients on one key; the second reads what the first has written. -/
def sharedKey : List Ready :=
  [⟨3, 5, true, .ofChunk []⟩, ⟨3, 6, true, .ofChunk []⟩,
    ⟨5, -1, true, .ofChunk (encodeArray [bytes "HSET", [9], [1], [11]])⟩,
    ⟨6, -1, true, .ofChunk (bytes "*3\r\n$4\r\nHGET\r\n$1\r\n")⟩,
    ⟨6, -1, true, ⟨[[9], bytes "\r\n$1\r\n", [1], bytes "\r\n"], .wouldBlock, .accepted 2⟩⟩]

end MiniRedis.Server
