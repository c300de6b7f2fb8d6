import MiniRedis.ServerLoop

/-!
Commands of a client that goes away.  The client branch erases a connection as
soon as a `read` reports the end of the stream, before it looks at the bytes that
came with it.
-/

namespace MiniRedis.Server

open RespParser

variable {σ : Type} {execute : List Bytes → σ → Exec (Bytes × σ)}

/-- The command has been executed between the two states of the process. -/
def Executed (hash : Bytes → Nat) (env : Nat → Surroundings) (args : List Bytes)
    (state state' : World × List (List Bytes)) : Prop :=
  ∃ resp, handler hash env args state = .ok (resp, state')

theorem executed_ne {hash : Bytes → Nat} {env : Nat → Surroundings} {args : List Bytes}
    {state state' : World × List (List Bytes)} (h : Executed hash env args state state') :
    state' ≠ state := by
  obtain ⟨resp, hrun⟩ := h
  obtain ⟨⟨resp', w'⟩, _, hlog⟩ := Exec.bind_eq_ok.mp hrun
  cases hlog
  intro heq
  have hlen := congrArg (fun s => s.2.length) heq
  simp only [List.length_append, List.length_singleton] at hlen
  omega

/-! ## One event -/

/-- A complete command is executed, whatever `write` does with its reply. -/
theorem clientEvent_complete {e : Event} (he : e.readEnd = .wouldBlock) {conn : Connection}
    {args : List Bytes} (hparse : parse (conn.readBuffer ++ e.data) = .ok (.COMPLETE, args))
    {s s' : σ} {resp : Bytes} (hx : execute args s = .ok (resp, s')) :
    ∃ sent conn', clientEvent execute e (some conn, s) = .ok (sent, (conn', s')) := by
  have hread : conn.readFromSocket e =
      (true, { conn with readBuffer := conn.readBuffer ++ e.data }) := by
    simp only [Connection.readFromSocket, he, Event.data]
  have hin : handleInput execute { conn with readBuffer := conn.readBuffer ++ e.data } s =
      .ok (({ conn with readBuffer := conn.readBuffer ++ e.data }.sendResponse resp).consumeInput
        (conn.readBuffer ++ e.data).length, s') := by
    simp only [handleInput, hparse, Exec.ok_bind, hx, Connection.sendResponse, Exec.pure_eq]
  simp only [clientEvent, hread, hin, Exec.ok_bind]
  split
  · exact ⟨_, none, rfl⟩
  · exact ⟨_, _, rfl⟩

/-! ## A command in several events -/

/-- A command that is not complete yet waits, whatever the cuts. -/
theorem serves_partial (execute : List Bytes → σ → Exec (Bytes × σ)) {args : List Bytes}
    (hfits : Fits args) {events : List Event} (hopen : ∀ e ∈ events, e.Open) {buffer : Bytes}
    (hcut : ProperPrefix (buffer ++ events.flatMap Event.data) (encodeArray args)) (s : σ) :
    Serves execute events buffer s (buffer ++ events.flatMap Event.data) [] s := by
  induction events generalizing buffer with
  | nil =>
    rw [List.flatMap_nil, List.append_nil]
    exact .nil buffer s
  | cons e events ih =>
    obtain ⟨he, hopen⟩ := List.forall_mem_cons.mp hopen
    rw [List.flatMap_cons, ← List.append_assoc] at hcut ⊢
    obtain ⟨t, ht, hdata⟩ := hcut
    have hfirst : ProperPrefix (buffer ++ e.data) (encodeArray args) :=
      ⟨events.flatMap Event.data ++ t, by simp [ht], by simp [← hdata]⟩
    obtain ⟨rest, hparse⟩ :=
      parse_cut (w := []) (by simp) hfits.1 hfits.2 (p := buffer ++ e.data) hfirst
    exact (serves_incomplete execute he hparse s).append (ih hopen ⟨t, ht, hdata⟩)

/-- The events of a client that sends one command and closes. -/
structure SendsAndCloses (args : List Bytes) (events : List Event) (last : Event) : Prop where
  fits : Fits args
  isOpen : ∀ e ∈ events, e.Open
  ends : last.readEnd = .eof
  data : events.flatMap Event.data ++ last.data = encodeArray args

/-- The close comes with some of the bytes: nothing is executed. -/
theorem close_with_data {args : List Bytes} {events : List Event} {last : Event}
    (h : SendsAndCloses args events last) (hdata : last.data ≠ []) (sockfd : Int) (s : σ) :
    ∃ sent, Run.run (clientEvent execute) (events ++ [last]) (some (.new sockfd), s) =
      .ok (sent, (none, s)) := by
  have hcut : ProperPrefix ([] ++ events.flatMap Event.data) (encodeArray args) :=
    ⟨last.data, hdata, h.data⟩
  have hserves := serves_partial execute h.fits h.isOpen hcut s
  obtain ⟨sent, conn, hrun, _⟩ := hserves (.new sockfd) rfl
  have hclose := @clientEvent_closed _ execute last (by simp [h.ends]) conn s
  exact ⟨_, Run.run_append_ok hrun (Run.run_cons_ok hclose rfl)⟩

/-- The close comes alone: the command has been executed. -/
theorem close_alone {args : List Bytes} {events : List Event} {last : Event}
    (h : SendsAndCloses args events last) (hdata : last.data = []) (sockfd : Int) {s s' : σ}
    {resp : Bytes} (hx : execute args s = .ok (resp, s')) :
    ∃ sent, Run.run (clientEvent execute) (events ++ [last]) (some (.new sockfd), s) =
      .ok (sent, (none, s')) := by
  have hall : [] ++ events.flatMap Event.data = encodeArray args := by
    rw [List.nil_append, ← h.data, hdata, List.append_nil]
  have hnil : ProperPrefix [] (encodeArray args) :=
    ⟨encodeArray args, by simp [encodeArray_eq, arrayHeader], rfl⟩
  obtain ⟨sent, conn, hrun, _⟩ :=
    serves_command h.fits h.isOpen hnil hall hx (.new sockfd) rfl
  have hclose := @clientEvent_closed _ execute last (by simp [h.ends]) conn s'
  exact ⟨_, Run.run_append_ok hrun (Run.run_cons_ok hclose rfl)⟩

/-- **A command at the end of the stream.**  The event that completes a command
executes it exactly when its `read` calls end with `EAGAIN`; so a command of a
client that closes behind it is executed exactly when the close is seen in an
event of its own. -/
theorem command_executed_iff (hash : Bytes → Nat) (env : Nat → Surroundings)
    (state : World × List (List Bytes)) (hs : state.1.db.Safe) :
    (∀ conn e args, parse (conn.readBuffer ++ e.data) = .ok (.COMPLETE, args) →
      ∃ sent conn' state', clientEvent (handler hash env) e (some conn, state) =
        .ok (sent, (conn', state')) ∧
        (Executed hash env args state state' ↔ e.readEnd = .wouldBlock)) ∧
    ∀ args events last sockfd, SendsAndCloses args events last →
      ∃ sent state', Run.run (clientEvent (handler hash env)) (events ++ [last])
        (some (.new sockfd), state) = .ok (sent, (none, state')) ∧
        (Executed hash env args state state' ↔ last.data = []) := by
  obtain ⟨w, done⟩ := state
  constructor
  · intro conn e args hparse
    by_cases he : e.readEnd = .wouldBlock
    · obtain ⟨resp, w', hx, _⟩ := handler_safe hash env args hs done
      obtain ⟨sent, conn', hrun⟩ := clientEvent_complete he hparse hx
      exact ⟨sent, conn', _, hrun, iff_of_true ⟨resp, hx⟩ he⟩
    · exact ⟨[], none, _, clientEvent_closed he conn _,
        iff_of_false (fun h => executed_ne h rfl) he⟩
  · intro args events last sockfd h
    by_cases hdata : last.data = []
    · obtain ⟨resp, w', hx, _⟩ := handler_safe hash env args hs done
      obtain ⟨sent, hrun⟩ := close_alone h hdata sockfd hx
      exact ⟨sent, _, hrun, iff_of_true ⟨resp, hx⟩ hdata⟩
    · obtain ⟨sent, hrun⟩ := close_with_data h hdata sockfd (w, done)
      exact ⟨sent, _, hrun, iff_of_false (fun h => executed_ne h rfl) hdata⟩

/-- `SET k v` and the close, in one event. -/
def setAndClose : Event := ⟨[encodeArray [bytes "SET", bytes "k", bytes "v"]], .eof, .wouldBlock⟩

theorem command_executed_iff_set :
    ∃ sent conn' state', clientEvent (handler (fun _ => 0) fun _ => ⟨.stored, true⟩)
      { setAndClose with readEnd := .wouldBlock } (some (.new 5), (World.empty, [])) =
        .ok (sent, (conn', state')) ∧
      (Executed (fun _ => 0) (fun _ => ⟨.stored, true⟩) [bytes "SET", bytes "k", bytes "v"]
        (World.empty, []) state' ↔ ReadEnd.wouldBlock = .wouldBlock) :=
  (command_executed_iff (fun _ => 0) (fun _ => ⟨.stored, true⟩) (World.empty, [])
    Database.empty_safe).1 (.new 5) { setAndClose with readEnd := .wouldBlock } _ (by decide)

/-- The command is in the buffer when the connection is erased. -/
theorem command_is_dropped_at_close :
    ¬ ∀ (hash : Bytes → Nat) (env : Nat → Surroundings) (state : World × List (List Bytes))
      (conn : Connection) (e : Event) (args : List Bytes), state.1.db.Safe → e.readEnd = .eof →
      parse (conn.readBuffer ++ e.data) = .ok (.COMPLETE, args) →
      ∃ sent conn' state', clientEvent (handler hash env) e (some conn, state) =
        .ok (sent, (conn', state')) ∧ Executed hash env args state state' := by
  intro h
  obtain ⟨sent, conn', state', hrun, hexecuted⟩ := h (fun _ => 0) (fun _ => ⟨.stored, true⟩)
    (World.empty, []) (.new 5) setAndClose [bytes "SET", bytes "k", bytes "v"]
    Database.empty_safe rfl (by decide)
  rw [clientEvent_closed (by decide)] at hrun
  cases hrun
  exact executed_ne hexecuted rfl

end MiniRedis.Server
