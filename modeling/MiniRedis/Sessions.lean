import MiniRedis.Descriptors
import MiniRedis.Lib.Framing
import MiniRedis.ReplyStream

/-!
Whole runs of the loop as the clients see them.  The loop is a serial machine: it
takes one decided buffer after the other, from whichever connection, and queues
one reply for it.  What it takes for a client depends on that client's chunks
alone, and what that client has been sent and will be sent are its own replies.
-/

namespace MiniRedis.Server

open RespParser Framing

variable {σ : Type} {execute : List Bytes → σ → Exec (Bytes × σ)} {Good : σ → Prop}

/-! ## Answers -/

/-- A buffer that is taken, and what is queued for it. -/
structure Answer where
  taken : Bytes
  reply : Bytes
  deriving DecidableEq, Repr

/-- The parser does not wait for more of the buffer. -/
def decided (buffer : Bytes) : Bool :=
  match parse buffer with
  | .ok (.INCOMPLETE, _) => false
  | _ => true

/-- What the client branch does with a buffer. -/
def respond (execute : List Bytes → σ → Exec (Bytes × σ)) (taken : Bytes) (s : σ) :
    Exec (Bytes × σ) := do
  let (result, args) ← parse taken
  match result with
  | .COMPLETE => execute args s
  | .ERROR => pure (encodeError (bytes "protocol error"), s)
  | .INCOMPLETE => pure ([], s)

/-- A response is that of a command, or the protocol error, or nothing yet. -/
theorem respond_cases {taken reply : Bytes} {s s' : σ}
    (h : respond execute taken s = .ok (reply, s')) :
    (∃ args, parse taken = .ok (.COMPLETE, args) ∧ execute args s = .ok (reply, s')) ∨
      (∃ args, parse taken = .ok (.ERROR, args) ∧
        reply = encodeError (bytes "protocol error") ∧ s' = s) ∨
      ∃ args, parse taken = .ok (.INCOMPLETE, args) ∧ reply = [] ∧ s' = s := by
  obtain ⟨⟨verdict, args⟩, hparse, h⟩ := Exec.bind_eq_ok.mp h
  cases verdict with
  | COMPLETE => exact Or.inl ⟨args, hparse, h⟩
  | ERROR =>
    cases h
    exact Or.inr (Or.inl ⟨args, hparse, rfl, rfl⟩)
  | INCOMPLETE =>
    cases h
    exact Or.inr (Or.inr ⟨args, hparse, rfl, rfl⟩)

theorem decided_nil : decided [] = false := rfl

theorem decided_incomplete {buffer : Bytes} {rest : List Bytes}
    (h : parse buffer = .ok (.INCOMPLETE, rest)) : decided buffer = false := by
  rw [decided, h]

theorem decided_complete {buffer : Bytes} {args : List Bytes}
    (h : parse buffer = .ok (.COMPLETE, args)) : decided buffer = true := by
  rw [decided, h]

/-- What steps 2 and 3 do: nothing, or take the buffer and queue its reply. -/
inductive Takes (execute : List Bytes → σ → Exec (Bytes × σ)) (conn : Connection) (s : σ) :
    Option Answer → Connection → σ → Prop
  | waits (hwait : decided conn.readBuffer = false) : Takes execute conn s none conn s
  | answers {reply : Bytes} {s' : σ} (hdecided : decided conn.readBuffer = true)
      (hrun : respond execute conn.readBuffer s = .ok (reply, s')) :
      Takes execute conn s (some ⟨conn.readBuffer, reply⟩)
        { conn with readBuffer := [], writeBuffer := conn.writeBuffer ++ reply } s'

theorem handleInput_takes (hx : Total execute Good) (conn : Connection) {s : σ} (hs : Good s) :
    ∃ answer conn' s', handleInput execute conn s = .ok (conn', s') ∧ Good s' ∧
      Takes execute conn s answer conn' s' := by
  have hparse := parse_eq conn.readBuffer
  generalize frameFrom (conn.readBuffer.dropWhile fun b => decide (IsSpace b)) = parsed at hparse
  obtain ⟨verdict, args⟩ := parsed
  rw [handleInput, hparse, Exec.ok_bind]
  cases verdict with
  | COMPLETE =>
    obtain ⟨resp, s', hrun, hs'⟩ := hx args s hs
    simp only [hrun, Exec.ok_bind, Exec.pure_eq, Connection.sendResponse,
      Connection.consumeInput, ge_iff_le, Nat.le_refl, ↓reduceIte]
    refine ⟨_, _, s', rfl, hs', .answers (decided_complete hparse) ?_⟩
    simp only [respond, hparse, Exec.ok_bind, hrun]
  | INCOMPLETE => exact ⟨none, conn, s, rfl, hs, .waits (decided_incomplete hparse)⟩
  | ERROR =>
    simp only [Exec.pure_eq, Connection.sendResponse, Connection.consumeInput, ge_iff_le,
      Nat.le_refl, ↓reduceIte]
    refine ⟨_, _, s, rfl, hs, .answers (by rw [decided, hparse]) ?_⟩
    simp only [respond, hparse, Exec.ok_bind, Exec.pure_eq]

/-! ## One event -/

/-- What one event does to a connection: it is erased before its bytes are looked
at, it is erased when its reply cannot be written, or it is kept. -/
inductive Handled (execute : List Bytes → σ → Exec (Bytes × σ)) (e : Event) (conn : Connection)
    (s : σ) : Option Answer → Bytes → Option Connection → σ → Prop
  | closed : Handled execute e conn s none [] none s
  | broken {answer : Option Answer} {conn₁ : Connection} {s' : σ} (hend : e.readEnd = .wouldBlock)
      (htakes : Takes execute { conn with readBuffer := conn.readBuffer ++ e.data } s answer
        conn₁ s') : Handled execute e conn s answer [] none s'
  | kept {answer : Option Answer} {conn₁ conn' : Connection} {sent : Bytes} {s' : σ}
      (hend : e.readEnd = .wouldBlock)
      (htakes : Takes execute { conn with readBuffer := conn.readBuffer ++ e.data } s answer
        conn₁ s') (hread : conn'.readBuffer = conn₁.readBuffer)
      (hsent : sent ++ conn'.writeBuffer = conn₁.writeBuffer) :
      Handled execute e conn s answer sent (some conn') s'

/-- Writing takes a prefix of what is queued, or fails and takes nothing. -/
theorem writeToSocket_splits (e : Event) (conn : Connection) :
    (∃ conn', conn.writeToSocket e = (false, [], conn')) ∨
      ∃ sent conn', conn.writeToSocket e = (true, sent, conn') ∧
        conn'.readBuffer = conn.readBuffer ∧ sent ++ conn'.writeBuffer = conn.writeBuffer := by
  unfold Connection.writeToSocket
  split
  · exact Or.inr ⟨[], conn, rfl, rfl, rfl⟩
  · split
    · exact Or.inr ⟨_, _, rfl, rfl, List.take_append_drop ..⟩
    · exact Or.inr ⟨[], conn, rfl, rfl, rfl⟩
    · exact Or.inl ⟨_, rfl⟩

theorem clientEvent_handled (hx : Total execute Good) (e : Event) (conn : Connection) {s : σ}
    (hs : Good s) :
    ∃ answer sent left s', clientEvent execute e (some conn, s) = .ok (sent, (left, s')) ∧
      Good s' ∧ Handled execute e conn s answer sent left s' := by
  by_cases hend : e.readEnd = .wouldBlock
  · obtain ⟨answer, conn₁, s', hin, hs', htakes⟩ :=
      handleInput_takes hx { conn with readBuffer := conn.readBuffer ++ e.data } hs
    have hread : conn.readFromSocket e =
        (true, { conn with readBuffer := conn.readBuffer ++ e.data }) := by
      simp only [Connection.readFromSocket, hend, Event.data]
    simp only [clientEvent, hread, hin, Exec.ok_bind]
    rcases writeToSocket_splits e conn₁ with ⟨conn', hwrite⟩ | ⟨sent, conn', hwrite, hbuf, hsent⟩
    · rw [hwrite]
      exact ⟨answer, [], none, s', rfl, hs', .broken hend htakes⟩
    · rw [hwrite]
      exact ⟨answer, sent, some conn', s', rfl, hs', .kept hend htakes hbuf hsent⟩
  · exact ⟨none, [], none, s, clientEvent_closed hend conn s, hs, .closed⟩

/-! ## The journal of a run -/

/-- One turn of the loop: the event, what was done for it, and the buffer it
answered, if any. -/
structure Record where
  ready : Ready
  turn : Turn
  answer : Option Answer
  deriving DecidableEq, Repr

/-- The answers of a run, in the order in which they were given. -/
def answers (records : List Record) : List Answer := records.filterMap Record.answer

/-- The event registers a new client with this descriptor. -/
def joins (listenFd fd : Int) (r : Ready) : Bool :=
  decide (r.fd = listenFd) && decide (r.accepted = fd) && r.registered

/-- The events of the client that has the descriptor, since it was accepted. -/
def sessionOf (listenFd fd : Int) (records : List Record) : List Record :=
  session (fun x => joins listenFd fd x.ready) (fun x => decide (x.ready.fd = fd)) records

/-- What has been taken from a client, what waits in its buffers and what it has
been sent add up. -/
structure Accounts (listenFd fd : Int) (records : List Record) (conn : Connection) : Prop where
  fed : feed decided [] ((sessionOf listenFd fd records).map fun x => x.ready.socket.data) =
    ((answers (sessionOf listenFd fd records)).map Answer.taken, conn.readBuffer)
  sent : (sessionOf listenFd fd records).flatMap (fun x => x.turn.sent) ++ conn.writeBuffer =
    (answers (sessionOf listenFd fd records)).flatMap Answer.reply

/-- Every buffer the event makes the loop take meets the condition in the state
in which it is taken. -/
def Offers (G : σ → Bytes → Prop) (sys : System σ) (r : Ready) : Prop :=
  ∀ conn ∈ sys.connections.lookup r.fd, r.socket.readEnd = .wouldBlock →
    G sys.handler (conn.readBuffer ++ r.socket.data)

instance {G : σ → Bytes → Prop} [∀ s taken, Decidable (G s taken)] (sys : System σ) (r : Ready) :
    Decidable (Offers G sys r) :=
  inferInstanceAs (Decidable (∀ conn ∈ sys.connections.lookup r.fd, _ → _))

/-- What holds of the records of a run whenever the loop waits. -/
structure Journal (listenFd : Int) (execute : List Bytes → σ → Exec (Bytes × σ))
    (Good : σ → Prop) (G : σ → Bytes → Prop) (s₀ : σ) (records : List Record) (sys : System σ) :
    Prop where
  tracks : Tracks listenFd sys
  good : Good sys.handler
  serial : Run.run (respond execute) ((answers records).map Answer.taken) s₀ =
    .ok ((answers records).map Answer.reply, sys.handler)
  guarded : Run.Guarded (respond execute) G s₀ ((answers records).map Answer.taken)
  own : ∀ fd conn, sys.connections.lookup fd = some conn → Accounts listenFd fd records conn

theorem answers_concat (records : List Record) (x : Record) :
    answers (records ++ [x]) = answers records ++ x.answer.toList := by
  cases h : x.answer <;> simp [answers, h]

/-! ## One turn -/

section Turn

variable {listenFd fd : Int} {G : σ → Bytes → Prop} {s₀ s s' : σ} {records : List Record}
variable {x : Record} {conn conn' : Connection} {sys : System σ} {r : Ready}

theorem Takes.serial {answer : Option Answer} (h : Takes execute conn s answer conn' s')
    {takens replies : List Bytes} (hrun : Run.run (respond execute) takens s₀ = .ok (replies, s)) :
    Run.run (respond execute) (takens ++ answer.toList.map Answer.taken) s₀ =
      .ok (replies ++ answer.toList.map Answer.reply, s') := by
  cases h with
  | waits => simpa using hrun
  | answers _ hrespond => exact Run.run_append_ok hrun (Run.run_cons_ok hrespond rfl)

theorem Takes.guarded {answer : Option Answer} (h : Takes execute conn s answer conn' s')
    {takens replies : List Bytes} (hrun : Run.run (respond execute) takens s₀ = .ok (replies, s))
    (hg : Run.Guarded (respond execute) G s₀ takens) (hG : G s conn.readBuffer) :
    Run.Guarded (respond execute) G s₀ (takens ++ answer.toList.map Answer.taken) := by
  cases h with
  | waits => simpa using hg
  | answers => exact Run.guarded_concat hg hrun hG

/-- The serial history goes on with what one event has made the loop take. -/
theorem Handled.serial {e : Event} {answer : Option Answer} {sent : Bytes}
    {left : Option Connection} (h : Handled execute e conn s answer sent left s')
    (hG : e.readEnd = .wouldBlock → G s (conn.readBuffer ++ e.data))
    {takens replies : List Bytes} (hrun : Run.run (respond execute) takens s₀ = .ok (replies, s))
    (hg : Run.Guarded (respond execute) G s₀ takens) :
    Run.run (respond execute) (takens ++ answer.toList.map Answer.taken) s₀ =
        .ok (replies ++ answer.toList.map Answer.reply, s') ∧
      Run.Guarded (respond execute) G s₀ (takens ++ answer.toList.map Answer.taken) := by
  cases h with
  | closed => simpa using ⟨hrun, hg⟩
  | broken hend htakes => exact ⟨htakes.serial hrun, htakes.guarded hrun hg (hG hend)⟩
  | kept hend htakes => exact ⟨htakes.serial hrun, htakes.guarded hrun hg (hG hend)⟩

theorem sessionOf_joins (h : joins listenFd fd x.ready = true) :
    sessionOf listenFd fd (records ++ [x]) = [] := by
  unfold sessionOf
  exact session_opens h

theorem sessionOf_other (h : joins listenFd fd x.ready = false) (hfd : x.ready.fd ≠ fd) :
    sessionOf listenFd fd (records ++ [x]) = sessionOf listenFd fd records := by
  unfold sessionOf
  exact session_other h (by simpa using hfd)

theorem sessionOf_own (hne : fd ≠ listenFd) (hfd : x.ready.fd = fd) :
    sessionOf listenFd fd (records ++ [x]) = sessionOf listenFd fd records ++ [x] := by
  have hjoins : joins listenFd fd x.ready = false := by
    simp [joins, hfd, hne]
  unfold sessionOf
  exact session_own hjoins (by simpa using hfd)

/-- A client starts with nothing. -/
theorem accounts_new (h : joins listenFd fd x.ready = true) (sockfd : Int) :
    Accounts listenFd fd (records ++ [x]) (.new sockfd) := by
  constructor <;> rw [sessionOf_joins h] <;> rfl

/-- The events of others are nothing to a client. -/
theorem Accounts.other (ha : Accounts listenFd fd records conn)
    (h : joins listenFd fd x.ready = false) (hfd : x.ready.fd ≠ fd) :
    Accounts listenFd fd (records ++ [x]) conn := by
  constructor <;> rw [sessionOf_other h hfd]
  · exact ha.fed
  · exact ha.sent

/-- An event of its own adds a chunk, at most one answer, and what was sent. -/
theorem Accounts.own (ha : Accounts listenFd fd records conn) (hne : fd ≠ listenFd)
    (hfd : x.ready.fd = fd)
    (h : Handled execute x.ready.socket conn s x.answer x.turn.sent (some conn') s') :
    Accounts listenFd fd (records ++ [x]) conn' := by
  obtain ⟨r, ⟨calls, sent⟩, answer⟩ := x
  dsimp only at h
  have hfed := ha.fed
  have hsent := ha.sent
  constructor <;> rw [sessionOf_own hne hfd, answers_concat]
  · simp only [List.map_append, List.map_cons, List.map_nil]
    cases h with
    | kept _ htakes hread _ =>
      rw [hread]
      cases htakes with
      | waits hwait => simpa using feed_waits hfed hwait
      | answers hdecided => exact feed_taken hfed hdecided
  · simp only [List.flatMap_append, List.flatMap_singleton, List.append_assoc]
    cases h with
    | kept _ htakes _ hout =>
      rw [hout, ← hsent]
      cases htakes with
      | waits => simp
      | answers => simp

/-- A connection of another descriptor is new, or is what it was. -/
theorem Moves.others {t : Turn} {connections : Connections}
    (h : Moves listenFd r sys t connections s) (hpos : 0 ≤ fd) (hfd : r.fd ≠ fd)
    (hconn : connections.lookup fd = some conn) :
    joins listenFd fd r = true ∧ conn = .new fd ∨
      joins listenFd fd r = false ∧ sys.connections.lookup fd = some conn := by
  cases h with
  | idle hidle =>
    refine Or.inr ⟨?_, hconn⟩
    rcases hidle with ⟨_, hfail⟩ | ⟨hne, _⟩
    · have : r.accepted ≠ fd := by omega
      simp [joins, this]
    · simp [joins, hne]
  | joined hlisten _ _ _ hreg =>
    by_cases ha : fd = r.accepted
    · subst ha
      rw [AList.lookup_insert] at hconn
      exact Or.inl ⟨by simp [joins, hlisten, hreg], (Option.some.inj hconn).symm⟩
    · rw [AList.lookup_insert_ne ha] at hconn
      exact Or.inr ⟨by simp [joins, Ne.symm ha], hconn⟩
  | refused _ _ _ hreg =>
    rw [lookup_erase_if] at hconn
    split at hconn
    · cases hconn
    · next ha =>
      rw [AList.lookup_insert_ne ha] at hconn
      exact Or.inr ⟨by simp [joins, hreg], hconn⟩
  | served hne =>
    rw [AList.lookup_insert_ne hfd.symm] at hconn
    exact Or.inr ⟨by simp [joins, hne], hconn⟩
  | left hne =>
    rw [AList.lookup_erase_ne hfd.symm] at hconn
    exact Or.inr ⟨by simp [joins, hne], hconn⟩

/-- A turn handles an event of a connection, or answers nothing and leaves no
connection under the descriptor it is for. -/
theorem turn_handled (hx : Total execute Good) (ht : Tracks listenFd sys) (hs : Good sys.handler)
    (hfresh : Fresh listenFd sys r) :
    ∃ t answer connections s, turn listenFd execute r sys =
        .ok (t, ⟨connections, s, t.calls.foldl Kernel.after sys.kernel⟩) ∧ Good s ∧
      Moves listenFd r sys t connections s ∧
      (answer = none ∧ s = sys.handler ∧
          (r.fd = listenFd ∨ connections.lookup r.fd = none) ∨
        ∃ conn, sys.connections.lookup r.fd = some conn ∧
          Handled execute r.socket conn sys.handler answer t.sent (connections.lookup r.fd) s) := by
  obtain ⟨t, connections, s, hrun, hs', hmoves⟩ := turn_moves hx ht hs hfresh
  by_cases hfd : r.fd = listenFd
  · refine ⟨t, none, connections, s, hrun, hs', hmoves, Or.inl ⟨rfl, ?_, Or.inl hfd⟩⟩
    cases hmoves with
    | idle => rfl
    | joined => rfl
    | refused => rfl
    | served hne => exact absurd hfd hne
    | left hne => exact absurd hfd hne
  · simp only [turn, dispatch, hfd, ↓reduceIte] at hrun
    cases hconn : sys.connections.lookup r.fd with
    | none =>
      simp only [clientReady, hconn, Exec.pure_eq, Exec.ok_bind] at hrun
      refine ⟨t, none, connections, s, ?_, hs', hmoves, Or.inl ⟨rfl, ?_, Or.inr ?_⟩⟩
      · simp only [turn, dispatch, hfd, ↓reduceIte, clientReady, hconn, Exec.pure_eq, Exec.ok_bind]
        exact hrun
      · cases hrun
        rfl
      · cases hrun
        exact hconn
    | some conn =>
      obtain ⟨answer, sent, left, s₁, hevent, _, hhandled⟩ :=
        clientEvent_handled hx r.socket conn hs
      have hready := hrun
      simp only [clientReady, hconn, hevent, Exec.ok_bind] at hready
      refine ⟨t, answer, connections, s, ?_, hs', hmoves, Or.inr ⟨conn, rfl, ?_⟩⟩
      · simp only [turn, dispatch, hfd, ↓reduceIte]
        exact hrun
      · cases left with
        | some conn' =>
          cases hready
          rw [AList.lookup_insert]
          exact hhandled
        | none =>
          simp only [erase, hconn, Exec.pure_eq, Exec.ok_bind] at hready
          cases hready
          rw [AList.lookup_erase]
          exact hhandled

/-- **Step.**  A turn adds one record to the journal. -/
theorem turn_journal (hx : Total execute Good)
    (hj : Journal listenFd execute Good G s₀ records sys) (hfresh : Fresh listenFd sys r)
    (hoffers : Offers G sys r) :
    ∃ t answer sys', turn listenFd execute r sys = .ok (t, sys') ∧
      Journal listenFd execute Good G s₀ (records ++ [⟨r, t, answer⟩]) sys' := by
  obtain ⟨t, answer, connections, s, hrun, hs, hmoves, hdone⟩ :=
    turn_handled hx hj.tracks hj.good hfresh
  have ht := hmoves.tracks hj.tracks
  refine ⟨t, answer, _, hrun, ht, hs, ?_, ?_, fun fd conn hconn => ?_⟩
  · rw [answers_concat, List.map_append, List.map_append]
    rcases hdone with ⟨rfl, rfl, _⟩ | ⟨conn, hconn, hhandled⟩
    · simpa using hj.serial
    · exact (hhandled.serial (hoffers conn hconn) hj.serial hj.guarded).1
  · rw [answers_concat, List.map_append]
    rcases hdone with ⟨rfl, rfl, _⟩ | ⟨conn, hconn, hhandled⟩
    · simpa using hj.guarded
    · exact (hhandled.serial (hoffers conn hconn) hj.serial hj.guarded).2
  · obtain ⟨_, hpos, hne⟩ := ht.owned fd conn hconn
    by_cases hfd : r.fd = fd
    · subst hfd
      rcases hdone with ⟨_, _, hlisten | hnone⟩ | ⟨conn₀, hconn₀, hhandled⟩
      · exact absurd hlisten hne
      · rw [hnone] at hconn
        cases hconn
      · rw [hconn] at hhandled
        exact (hj.own r.fd conn₀ hconn₀).own hne rfl hhandled
    · rcases hmoves.others hpos hfd hconn with ⟨hjoins, rfl⟩ | ⟨hjoins, hconn₀⟩
      · exact accounts_new hjoins fd
      · exact (hj.own fd conn hconn₀).other hjoins hfd

theorem start_journal {s₀ : σ} (hs : Good s₀) :
    Journal listenFd execute Good G s₀ [] (start s₀) where
  tracks := start_tracks listenFd s₀
  good := hs
  serial := rfl
  guarded := trivial
  own := fun fd conn h => by cases h

end Turn

/-! ## Runs -/

/-- **Run.**  Every run has a journal. -/
theorem run_journal (hx : Total execute Good) {listenFd : Int} {G : σ → Bytes → Prop} {s₀ : σ}
    (hs : Good s₀) {rs : List Ready}
    (hg : Run.Guarded (turn listenFd execute) (fun sys r => Fresh listenFd sys r ∧ Offers G sys r)
      (start s₀) rs) :
    ∃ records sys, records.map Record.ready = rs ∧
      Run.run (turn listenFd execute) rs (start s₀) = .ok (records.map Record.turn, sys) ∧
      Journal listenFd execute Good G s₀ records sys := by
  have hstep : ∀ (is : List Ready) (os : List Turn) (sys : System σ) (r : Ready),
      (∃ records, records.map Record.ready = is ∧ records.map Record.turn = os ∧
        Journal listenFd execute Good G s₀ records sys) →
      Fresh listenFd sys r ∧ Offers G sys r →
      ∃ t sys', turn listenFd execute r sys = .ok (t, sys') ∧
        ∃ records, records.map Record.ready = is ++ [r] ∧ records.map Record.turn = os ++ [t] ∧
          Journal listenFd execute Good G s₀ records sys' := by
    rintro _ _ sys r ⟨records, rfl, rfl, hj⟩ ⟨hfresh, hoffers⟩
    obtain ⟨t, answer, sys', hrun, hj'⟩ := turn_journal hx hj hfresh hoffers
    exact ⟨t, sys', hrun, records ++ [⟨r, t, answer⟩], by simp, by simp, hj'⟩
  obtain ⟨turns, sys, hrun, records, hready, hturn, hj⟩ :=
    Run.record hstep rs [] [] (start s₀) ⟨[], rfl, rfl, start_journal hs⟩ hg
  refine ⟨records, sys, by simpa using hready, ?_, hj⟩
  rw [hrun, hturn]
  rfl

/-- What has been taken from a client and what waits are the bytes it has sent. -/
theorem Accounts.bytes {listenFd fd : Int} {records : List Record} {conn : Connection}
    (h : Accounts listenFd fd records conn) :
    (answers (sessionOf listenFd fd records)).flatMap Answer.taken ++ conn.readBuffer =
      (sessionOf listenFd fd records).flatMap fun x => x.ready.socket.data := by
  have hpartition := @feed_partition _ decided []
    ((sessionOf listenFd fd records).map fun x => x.ready.socket.data)
  rw [h.fed, List.nil_append, ← List.flatMap_def, ← List.flatMap_def] at hpartition
  exact hpartition

/-- Two clients; the first sends `PING` in two parts, between which the second
sends what is no array, and the socket takes three bytes of the reply. -/
def twoSessions : List Ready :=
  [⟨3, 5, true, .ofChunk []⟩, ⟨3, 6, true, .ofChunk []⟩,
    ⟨5, -1, true, .ofChunk (bytes "*1\r\n$4")⟩, ⟨6, -1, true, .ofChunk (bytes "hello")⟩,
    ⟨5, -1, true, ⟨[bytes "\r\nPI", bytes "NG\r\n"], .wouldBlock, .accepted 3⟩⟩]

end MiniRedis.Server
