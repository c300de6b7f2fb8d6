import MiniRedis.ProtocolRoundTrip
import MiniRedis.Safety
import MiniRedis.Server

/-!
The event loop on one connection.  Commands whose bytes arrive in chunks of
their own are executed one by one whatever the cuts; a chunk that goes on behind
the command it completes loses what is behind it.
-/

namespace MiniRedis

namespace Event

/-- The bytes read. -/
def data (e : Event) : Bytes := e.chunks.flatten

/-- The connection stays open. -/
def Open (e : Event) : Prop := e.readEnd = .wouldBlock ∧ e.write ≠ .failed

instance (e : Event) : Decidable e.Open := inferInstanceAs (Decidable (_ ∧ _))

/-- One chunk, and then no more for now. -/
def ofChunk (chunk : Bytes) : Event := ⟨[chunk], .wouldBlock, .wouldBlock⟩

end Event

namespace Server

open RespParser

variable {σ : Type} {execute : List Bytes → σ → Exec (Bytes × σ)}

/-! ## One event -/

/-- An event that does not end with `EAGAIN` erases the connection and does
nothing else. -/
theorem clientEvent_closed {e : Event} (he : e.readEnd ≠ .wouldBlock) (conn : Connection)
    (s : σ) : clientEvent execute e (some conn, s) = .ok ([], (none, s)) := by
  cases hend : e.readEnd with
  | eof => simp only [clientEvent, Connection.readFromSocket, hend, Exec.pure_eq]
  | wouldBlock => exact absurd hend he
  | failed => simp only [clientEvent, Connection.readFromSocket, hend, Exec.pure_eq]

/-- Writing moves bytes from the buffer to the wire. -/
theorem writeToSocket_open {e : Event} (he : e.Open) (conn : Connection) :
    ∃ sent conn', conn.writeToSocket e = (true, sent, conn') ∧
      conn'.readBuffer = conn.readBuffer ∧ sent ++ conn'.writeBuffer = conn.writeBuffer := by
  unfold Connection.writeToSocket
  split
  · exact ⟨[], conn, rfl, rfl, rfl⟩
  · split
    · exact ⟨_, _, rfl, rfl, List.take_append_drop ..⟩
    · exact ⟨[], conn, rfl, rfl, rfl⟩
    · next h => exact absurd h he.2

/-- The events turn a read buffer `buffer` into `buffer'`, queue `queued` and take
the handler from `s` to `s'`, on every connection with that buffer. -/
def Serves (execute : List Bytes → σ → Exec (Bytes × σ)) (events : List Event) (buffer : Bytes)
    (s : σ) (buffer' queued : Bytes) (s' : σ) : Prop :=
  ∀ conn : Connection, conn.readBuffer = buffer → ∃ sent conn',
    Run.run (clientEvent execute) events (some conn, s) = .ok (sent, (some conn', s')) ∧
      conn'.readBuffer = buffer' ∧ sent.flatten ++ conn'.writeBuffer = conn.writeBuffer ++ queued

theorem Serves.nil (buffer : Bytes) (s : σ) : Serves execute [] buffer s buffer [] s :=
  fun conn hconn => ⟨[], conn, rfl, hconn, by simp⟩

theorem Serves.append {events events' : List Event} {b b' b'' q q' : Bytes} {s s' s'' : σ}
    (h : Serves execute events b s b' q s') (h' : Serves execute events' b' s' b'' q' s'') :
    Serves execute (events ++ events') b s b'' (q ++ q') s'' := by
  intro conn hconn
  obtain ⟨sent, conn₁, hrun, hbuf, hq⟩ := h conn hconn
  obtain ⟨sent', conn₂, hrun', hbuf', hq'⟩ := h' conn₁ hbuf
  refine ⟨sent ++ sent', conn₂, Run.run_append_ok hrun hrun', hbuf', ?_⟩
  rw [List.flatten_append, List.append_assoc, hq', ← List.append_assoc, hq, List.append_assoc]

/-- The loop is deterministic. -/
theorem Serves.unique {events : List Event} {b b' b'' q q' : Bytes} {s s' s'' : σ}
    (h : Serves execute events b s b' q s') (h' : Serves execute events b s b'' q' s'') :
    s' = s'' := by
  obtain ⟨sent, conn, hrun, _⟩ := h ⟨0, b, [], false⟩ rfl
  obtain ⟨sent', conn', hrun', _⟩ := h' ⟨0, b, [], false⟩ rfl
  rw [hrun] at hrun'
  cases hrun'
  rfl

/-- An event on an open connection does what `handleInput` does to the longer
buffer. -/
theorem serves_event {e : Event} (he : e.Open) {buffer buffer' queued : Bytes} {s s' : σ}
    (h : ∀ conn : Connection, conn.readBuffer = buffer ++ e.data → ∃ conn',
      handleInput execute conn s = .ok (conn', s') ∧ conn'.readBuffer = buffer' ∧
        conn'.writeBuffer = conn.writeBuffer ++ queued) :
    Serves execute [e] buffer s buffer' queued s' := by
  intro conn hconn
  obtain ⟨conn₁, hin, hbuf, hq⟩ :=
    h { conn with readBuffer := conn.readBuffer ++ e.data } (by rw [hconn])
  obtain ⟨sent, conn₂, hwrite, hbuf', hq'⟩ := writeToSocket_open he conn₁
  have hread : conn.readFromSocket e =
      (true, { conn with readBuffer := conn.readBuffer ++ e.data }) := by
    simp only [Connection.readFromSocket, he.1, Event.data]
  refine ⟨[sent], conn₂, ?_, hbuf'.trans hbuf, ?_⟩
  · refine Run.run_cons_ok ?_ rfl
    simp only [clientEvent, hread, hin, Exec.ok_bind, hwrite, Exec.pure_eq]
  · rw [List.flatten_singleton, hq', hq]

/-- An incomplete command waits. -/
theorem serves_incomplete (execute : List Bytes → σ → Exec (Bytes × σ)) {e : Event}
    (he : e.Open) {buffer : Bytes} {rest : List Bytes}
    (hparse : parse (buffer ++ e.data) = .ok (.INCOMPLETE, rest)) (s : σ) :
    Serves execute [e] buffer s (buffer ++ e.data) [] s := by
  refine serves_event he fun conn hconn => ⟨conn, ?_, hconn, by simp⟩
  simp only [handleInput, hconn, hparse, Exec.ok_bind, Exec.pure_eq]

/-- A reply goes with the whole buffer. -/
theorem serves_reply {e : Event} (he : e.Open) {buffer resp : Bytes} {s s' : σ}
    (h : ∀ conn : Connection, conn.readBuffer = buffer ++ e.data → handleInput execute conn s =
      .ok ((conn.sendResponse resp).consumeInput conn.readBuffer.length, s')) :
    Serves execute [e] buffer s [] resp s' := by
  refine serves_event he fun conn hconn => ⟨_, h conn hconn, ?_, ?_⟩
  all_goals simp only [Connection.sendResponse, Connection.consumeInput, ge_iff_le, Nat.le_refl,
    ↓reduceIte]

/-- A complete command is executed, and the whole buffer is dropped. -/
theorem serves_complete {e : Event} (he : e.Open) {buffer : Bytes} {args : List Bytes}
    (hparse : parse (buffer ++ e.data) = .ok (.COMPLETE, args)) {s s' : σ} {resp : Bytes}
    (hx : execute args s = .ok (resp, s')) : Serves execute [e] buffer s [] resp s' := by
  refine serves_reply he fun conn hconn => ?_
  simp only [handleInput, hconn, hparse, Exec.ok_bind, hx, Connection.sendResponse, Exec.pure_eq]

/-- A buffer the parser refuses is answered by an error and dropped. -/
theorem serves_error (execute : List Bytes → σ → Exec (Bytes × σ)) {e : Event} (he : e.Open)
    {buffer : Bytes} {rest : List Bytes} (hparse : parse (buffer ++ e.data) = .ok (.ERROR, rest))
    (s : σ) : Serves execute [e] buffer s [] (encodeError (bytes "protocol error")) s := by
  refine serves_reply he fun conn hconn => ?_
  simp only [handleInput, hconn, hparse, Exec.ok_bind, Connection.sendResponse, Exec.pure_eq]

/-! ## One command -/

/-- Empty chunks behind an empty buffer do nothing. -/
theorem serves_quiet (execute : List Bytes → σ → Exec (Bytes × σ)) {events : List Event}
    (hopen : ∀ e ∈ events, e.Open) (hdata : events.flatMap Event.data = []) (s : σ) :
    Serves execute events [] s [] [] s := by
  induction events with
  | nil => exact .nil [] s
  | cons e events ih =>
    obtain ⟨he, hopen⟩ := List.forall_mem_cons.mp hopen
    obtain ⟨hnone, hdata⟩ := List.append_eq_nil_iff.mp hdata
    have hparse : parse ([] ++ e.data) = .ok (.INCOMPLETE, []) := by
      rw [hnone]
      rfl
    have hfirst := serves_incomplete execute he hparse s
    rw [hnone] at hfirst
    exact hfirst.append (ih hopen hdata)

/-- The command fits the parser's `int`s. -/
def Fits (args : List Bytes) : Prop :=
  args.length ≤ INT_MAX ∧ ∀ a ∈ args, a.length ≤ INT_MAX

instance (args : List Bytes) : Decidable (Fits args) := inferInstanceAs (Decidable (_ ∧ _))

/-- However the rest of a command is cut, it is executed once. -/
theorem serves_command {args : List Bytes} (hfits : Fits args) {events : List Event}
    (hopen : ∀ e ∈ events, e.Open) {buffer : Bytes} (hbuf : ProperPrefix buffer (encodeArray args))
    (hdata : buffer ++ events.flatMap Event.data = encodeArray args) {s s' : σ} {resp : Bytes}
    (hx : execute args s = .ok (resp, s')) : Serves execute events buffer s [] resp s' := by
  induction events generalizing buffer with
  | nil =>
    have := hbuf.length_lt
    rw [← hdata, List.flatMap_nil, List.append_nil] at this
    exact absurd this (Nat.lt_irrefl _)
  | cons e events ih =>
    obtain ⟨he, hopen⟩ := List.forall_mem_cons.mp hopen
    rw [List.flatMap_cons, ← List.append_assoc] at hdata
    by_cases hrest : events.flatMap Event.data = []
    · -- this chunk completes the command
      rw [hrest, List.append_nil] at hdata
      have hparse : parse (buffer ++ e.data) = .ok (.COMPLETE, args) := by
        have hframe := parse_frame (w := []) (by simp) hfits.1 hfits.2 []
        rw [List.append_nil, List.nil_append, ← hdata] at hframe
        exact hframe
      have hlast := serves_quiet execute hopen hrest s'
      have hfirst := (serves_complete he hparse hx).append hlast
      rw [List.append_nil] at hfirst
      exact hfirst
    · have hcut : ProperPrefix (buffer ++ e.data) (encodeArray args) := ⟨_, hrest, hdata⟩
      obtain ⟨rest, hparse⟩ :=
        parse_cut (w := []) (by simp) hfits.1 hfits.2 (p := buffer ++ e.data) hcut
      exact (serves_incomplete execute he hparse s).append (ih hopen hcut hdata)

/-! ## Many commands -/

/-- The events carry exactly the bytes of one command, in any cut. -/
def Carries (args : List Bytes) (events : List Event) : Prop :=
  Fits args ∧ (∀ e ∈ events, e.Open) ∧ events.flatMap Event.data = encodeArray args

instance (args : List Bytes) (events : List Event) : Decidable (Carries args events) :=
  inferInstanceAs (Decidable (_ ∧ _))

theorem serves_commands {groups : List (List Bytes × List Event)}
    (hg : ∀ g ∈ groups, Carries g.1 g.2) {s s' : σ} {replies : List Bytes}
    (hx : Run.run execute (groups.map Prod.fst) s = .ok (replies, s')) :
    Serves execute (groups.flatMap Prod.snd) [] s [] replies.flatten s' := by
  induction groups generalizing s replies with
  | nil =>
    cases hx
    exact .nil [] _
  | cons g groups ih =>
    obtain ⟨⟨hfits, hopen, hdata⟩, hg⟩ := List.forall_mem_cons.mp hg
    obtain ⟨resp, s₁, rest, hfirst, hrest, rfl⟩ := Run.run_cons_inv hx
    have hnil : ProperPrefix [] (encodeArray g.1) :=
      ⟨encodeArray g.1, by simp [encodeArray_eq, arrayHeader], rfl⟩
    rw [List.flatMap_cons, List.flatten_cons]
    exact (serves_command hfits hopen hnil hdata hfirst).append (ih hg hrest)

/-- The handler of the process.  Its state is the world and the commands executed
so far; the `n`-th command finds the surroundings `env n`. -/
def handler (hash : Bytes → Nat) (env : Nat → Surroundings) (args : List Bytes)
    (state : World × List (List Bytes)) : Exec (Bytes × (World × List (List Bytes))) := do
  let (resp, w) ← CommandHandler.execute hash (env state.2.length) args state.1
  pure (resp, (w, state.2 ++ [args]))

theorem handler_safe (hash : Bytes → Nat) (env : Nat → Surroundings) (args : List Bytes)
    {w : World} (hs : w.db.Safe) (done : List (List Bytes)) :
    ∃ resp w', handler hash env args (w, done) = .ok (resp, (w', done ++ [args])) ∧
      w'.db.Safe := by
  obtain ⟨resp, w', hrun, hs'⟩ := CommandHandler.execute_safe hash (env done.length) args hs
  exact ⟨resp, w', by simp [handler, hrun], hs'⟩

/-- Every list of commands is executed to its end. -/
theorem handler_run (hash : Bytes → Nat) (env : Nat → Surroundings) (cmds : List (List Bytes))
    {w : World} (hs : w.db.Safe) (done : List (List Bytes)) :
    ∃ replies w', Run.run (handler hash env) cmds (w, done) =
      .ok (replies, (w', done ++ cmds)) := by
  induction cmds generalizing w done with
  | nil => exact ⟨[], w, by simp [Run.run]⟩
  | cons args cmds ih =>
    obtain ⟨resp, w₁, hfirst, hs₁⟩ := handler_safe hash env args hs done
    obtain ⟨replies, w', hrest⟩ := ih hs₁ (done ++ [args])
    rw [List.append_assoc] at hrest
    exact ⟨resp :: replies, w', Run.run_cons_ok hfirst hrest⟩

/-- From a read buffer `buffer` the events make the loop execute exactly `cmds`, in
order, queue exactly their replies and leave the read buffer `buffer'`. -/
def Handles (hash : Bytes → Nat) (env : Nat → Surroundings) (events : List Event)
    (buffer : Bytes) (cmds : List (List Bytes)) (buffer' : Bytes)
    (state : World × List (List Bytes)) : Prop :=
  ∃ replies w', Run.run (handler hash env) cmds state = .ok (replies, (w', state.2 ++ cmds)) ∧
    Serves (handler hash env) events buffer state buffer' replies.flatten (w', state.2 ++ cmds)

/-- **Commands in chunks of their own** are executed in order and answered in
order, whatever the cuts.  A chunk that goes on behind the command it completes
executes that command once, and the bytes behind it are dropped. -/
theorem loop_executes_commands (hash : Bytes → Nat) (env : Nat → Surroundings)
    (state : World × List (List Bytes)) (hs : state.1.db.Safe) :
    (∀ groups : List (List Bytes × List Event), (∀ g ∈ groups, Carries g.1 g.2) →
      Handles hash env (groups.flatMap Prod.snd) [] (groups.map Prod.fst) [] state) ∧
    ∀ buffer e args t, Fits args → e.Open → buffer ++ e.data = encodeArray args ++ t →
      Handles hash env [e] buffer [args] [] state := by
  obtain ⟨w, done⟩ := state
  constructor
  · intro groups hg
    obtain ⟨replies, w', hrun⟩ := handler_run hash env (groups.map Prod.fst) hs done
    exact ⟨replies, w', hrun, serves_commands hg hrun⟩
  · intro buffer e args t hfits he hdata
    obtain ⟨resp, w', hrun, _⟩ := handler_safe hash env args hs done
    have hparse : parse (buffer ++ e.data) = .ok (.COMPLETE, args) := by
      have hframe := parse_frame (w := []) (by simp) hfits.1 hfits.2 t
      rw [List.nil_append, ← hdata] at hframe
      exact hframe
    refine ⟨[resp], w', Run.run_cons_ok hrun rfl, ?_⟩
    rw [List.flatten_singleton]
    exact serves_complete he hparse hrun

/-- `PING` cut in two, and a second `PING` behind it. -/
def twoPings : List (List Bytes × List Event) :=
  [([bytes "PING"], [.ofChunk (bytes "*1\r\n$4"), .ofChunk (bytes "\r\nPING\r\n")]),
    ([bytes "PING"], [.ofChunk (bytes "*1\r\n$4\r\nPING\r\n")])]

theorem loop_executes_two_pings :
    Handles (fun _ => 0) (fun _ => ⟨.stored, true⟩) (twoPings.flatMap Prod.snd) []
      (twoPings.map Prod.fst) [] (World.empty, []) :=
  (loop_executes_commands (fun _ => 0) (fun _ => ⟨.stored, true⟩) (World.empty, [])
    Database.empty_safe).1 twoPings (by decide)

/-- An argument whose length the parser reads as a negative `int`. -/
def overlong : List Bytes := [bytes "PING", List.replicate (2 ^ 31) 0]

/-- Of two commands in one chunk the second is lost; and a command that does not
fit is not executed, even in a chunk of its own. -/
theorem pipelined_command_is_lost :
    (¬ ∀ cmds events, (∀ args ∈ cmds, args ≠ []) → (∀ e ∈ events, e.Open) →
      events.flatMap Event.data = cmds.flatMap encodeArray →
      ∃ buffer, Handles (fun _ => 0) (fun _ => ⟨.stored, true⟩) events [] cmds buffer
        (World.empty, [])) ∧
    ¬ ∃ buffer, Handles (fun _ => 0) (fun _ => ⟨.stored, true⟩) [.ofChunk (encodeArray overlong)]
      [] [overlong] buffer (World.empty, []) := by
  constructor
  · intro h
    obtain ⟨buffer, replies, w', _, hserves⟩ := h [[bytes "PING"], [bytes "PING"]]
      [.ofChunk (encodeArray [bytes "PING"] ++ encodeArray [bytes "PING"])]
      (by decide) (by decide) (by decide)
    have hparse : parse ([] ++ (Event.ofChunk
        (encodeArray [bytes "PING"] ++ encodeArray [bytes "PING"])).data) =
        .ok (.COMPLETE, [bytes "PING"]) := by decide
    have hfirst := serves_complete (by decide) hparse
      (rfl : handler (fun _ => 0) (fun _ => ⟨.stored, true⟩) [bytes "PING"] (World.empty, []) =
        .ok (encodeSimpleString (bytes "PONG"), (World.empty, [[bytes "PING"]])))
    have hlog := congrArg (fun state => state.2.length) (hfirst.unique hserves)
    exact absurd hlog (by simp)
  · rintro ⟨buffer, replies, w', _, hserves⟩
    have hparse : parse ([] ++ (Event.ofChunk (encodeArray overlong)).data) =
        .ok (.ERROR, [bytes "PING"]) := by
      rw [List.nil_append, Event.data, Event.ofChunk, List.flatten_singleton]
      refine parse_overlong (by decide) ?_
      rw [List.length_replicate]
      decide
    have hrefused := serves_error (handler (fun _ => 0) fun _ => ⟨.stored, true⟩)
      ⟨rfl, by simp [Event.ofChunk]⟩ hparse (World.empty, [])
    have hlog := congrArg (fun state => state.2.length) (hrefused.unique hserves)
    exact absurd hlog (by simp)

end Server

end MiniRedis
