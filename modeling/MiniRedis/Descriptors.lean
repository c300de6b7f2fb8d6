import MiniRedis.EventLoop
import MiniRedis.ServerLoop

/-!
Descriptors over whole runs.  `connections_`, the open client descriptors and the
registered ones are the same set whenever the loop waits; what a run closes twice
are the descriptors that could not be registered.
-/

namespace MiniRedis

/-- `accept` and `close` as entries of a ledger of descriptors. -/
def Call.entry : Call → Option (Ledger.Entry Int)
  | .accept fd => some (.acquire fd)
  | .close fd => some (.release fd)
  | .epollAdd .. => none
  | .epollDel _ => none

def ledger (calls : List Call) : List (Ledger.Entry Int) := calls.filterMap Call.entry

/-- The kernel keeps open what the ledger holds. -/
theorem Kernel.opened_after (calls : List Call) (k : Kernel) :
    (calls.foldl Kernel.after k).opened = Ledger.held (ledger calls) k.opened := by
  induction calls generalizing k with
  | nil => rfl
  | cons call calls ih =>
    rw [List.foldl_cons, ih]
    cases call with
    | accept fd => rfl
    | epollAdd fd events ok => cases ok <;> rfl
    | epollDel fd => rfl
    | close fd => rfl

theorem lookup_erase_if {ν : Type} (m : AList fun _ : Int => ν) (fd a : Int) :
    (m.erase fd).lookup a = if a = fd then none else m.lookup a := by
  split
  · next ha => rw [ha, AList.lookup_erase]
  · next ha => rw [AList.lookup_erase_ne ha]

theorem mem_of_lookup {ν : Type} {m : AList fun _ : Int => ν} {fd : Int} {v : ν}
    (h : m.lookup fd = some v) : fd ∈ m :=
  AList.lookup_isSome.mp (Option.isSome_of_mem h)

namespace Server

open RespParser

variable {σ : Type} {execute : List Bytes → σ → Exec (Bytes × σ)} {Good : σ → Prop}
variable {listenFd : Int} {r : Ready} {sys : System σ}

/-! ## One event on a connection -/

/-- In the states in `Good` every command is answered, and leads to such a state. -/
def Total (execute : List Bytes → σ → Exec (Bytes × σ)) (Good : σ → Prop) : Prop :=
  ∀ args s, Good s → ∃ resp s', execute args s = .ok (resp, s') ∧ Good s'

/-- What `write` took of the buffer and a reply behind it, and what it left. -/
structure Written (e : Event) (conn : Connection) (reply sent : Bytes) (conn' : Connection) :
    Prop where
  sockfd : conn'.sockfd = conn.sockfd
  split : sent ++ conn'.writeBuffer = conn.writeBuffer ++ reply
  taken : ∀ n, e.write = .accepted n → sent = (conn.writeBuffer ++ reply).take n
  blocked : e.write = .wouldBlock → sent = []

/-- Steps 2 and 3 queue a reply, or nothing. -/
theorem handleInput_queues (hx : Total execute Good) (conn : Connection) {s : σ} (hs : Good s) :
    ∃ reply conn' s', handleInput execute conn s = .ok (conn', s') ∧ Good s' ∧
      conn'.sockfd = conn.sockfd ∧ conn'.writeBuffer = conn.writeBuffer ++ reply := by
  rw [handleInput, parse_eq, Exec.ok_bind]
  generalize frameFrom (conn.readBuffer.dropWhile fun b => decide (IsSpace b)) = parsed
  obtain ⟨verdict, args⟩ := parsed
  cases verdict with
  | COMPLETE =>
    obtain ⟨resp, s', hrun, hs'⟩ := hx args s hs
    simp only [hrun, Exec.ok_bind, Exec.pure_eq, Connection.sendResponse,
      Connection.consumeInput, ge_iff_le, Nat.le_refl, ↓reduceIte]
    exact ⟨resp, _, s', rfl, hs', rfl, rfl⟩
  | INCOMPLETE => exact ⟨[], conn, s, rfl, hs, rfl, by simp⟩
  | ERROR =>
    simp only [Exec.pure_eq, Connection.sendResponse, Connection.consumeInput, ge_iff_le,
      Nat.le_refl, ↓reduceIte]
    exact ⟨encodeError (bytes "protocol error"), _, s, rfl, hs, rfl, rfl⟩

/-- A write that does not fail sends a prefix of what is queued. -/
theorem writeToSocket_written (e : Event) (conn : Connection) {conn₁ : Connection} {reply : Bytes}
    (hfd : conn₁.sockfd = conn.sockfd) (hq : conn₁.writeBuffer = conn.writeBuffer ++ reply) :
    (conn₁.writeToSocket e).1 = false ∧ (conn₁.writeToSocket e).2.1 = [] ∧ ¬ e.Open ∨
      (conn₁.writeToSocket e).1 = true ∧
        Written e conn reply (conn₁.writeToSocket e).2.1 (conn₁.writeToSocket e).2.2 := by
  unfold Connection.writeToSocket
  split
  · next hempty =>
    refine Or.inr ⟨rfl, hfd, by rw [← hq]; rfl, fun n _ => ?_, fun _ => rfl⟩
    rw [← hq, hempty, List.take_nil]
  · split
    · next n hn =>
      refine Or.inr ⟨rfl, hfd, ?_, fun m hm => ?_, fun hb => ?_⟩
      · rw [← hq, List.take_append_drop]
      · rw [hn] at hm
        rw [← hq, WriteResult.accepted.inj hm]
      · rw [hn] at hb
        cases hb
    · next hblock =>
      refine Or.inr ⟨rfl, hfd, by rw [← hq]; rfl, fun n hn => ?_, fun _ => rfl⟩
      rw [hblock] at hn
      cases hn
    · next hfail => exact Or.inl ⟨rfl, rfl, fun hopen => hopen.2 hfail⟩

/-- An event ends the connection or leaves it with what the wire did not take. -/
theorem clientEvent_outcome (hx : Total execute Good) (e : Event) (conn : Connection) {s : σ}
    (hs : Good s) :
    (∃ s', clientEvent execute e (some conn, s) = .ok ([], (none, s')) ∧ Good s' ∧ ¬ e.Open) ∨
      ∃ reply sent conn' s', clientEvent execute e (some conn, s) = .ok (sent, (some conn', s')) ∧
        Good s' ∧ Written e conn reply sent conn' := by
  by_cases hend : e.readEnd = .wouldBlock
  · obtain ⟨reply, conn₁, s', hin, hs', hfd, hq⟩ := handleInput_queues hx
      { conn with readBuffer := conn.readBuffer ++ e.chunks.flatten } hs
    have hwrite := writeToSocket_written e conn hfd hq
    simp only [clientEvent, Connection.readFromSocket, hend, hin, Exec.ok_bind]
    generalize conn₁.writeToSocket e = w at hwrite
    obtain ⟨alive, sent, conn'⟩ := w
    rcases hwrite with ⟨rfl, rfl, hopen⟩ | ⟨rfl, hwritten⟩
    · exact Or.inl ⟨s', rfl, hs', hopen⟩
    · exact Or.inr ⟨reply, sent, conn', s', rfl, hs', hwritten⟩
  · exact Or.inl ⟨s, clientEvent_closed hend conn s, hs, fun hopen => hend hopen.1⟩

/-! ## One turn of the loop -/

/-- Each connection has its key for descriptor, and the connections are the open
and the registered descriptors. -/
structure Tracks (listenFd : Int) (sys : System σ) : Prop where
  owned : ∀ fd conn, sys.connections.lookup fd = some conn →
    conn.sockfd = fd ∧ 0 ≤ fd ∧ fd ≠ listenFd
  opened : ∀ fd, fd ∈ sys.kernel.opened ↔ fd ∈ sys.connections
  interest : ∀ fd, sys.kernel.interest.lookup fd =
    if fd ∈ sys.connections then some EPOLLIN else none

theorem start_tracks (listenFd : Int) (s : σ) : Tracks listenFd (start s) where
  owned fd conn h := by cases h
  opened fd := by simp [start]
  interest fd := by simp [start]

/-- The new descriptor cannot be registered. -/
def Refused (listenFd : Int) (r : Ready) : Prop :=
  r.fd = listenFd ∧ r.accepted ≠ -1 ∧ r.registered = false

instance (listenFd : Int) (r : Ready) : Decidable (Refused listenFd r) :=
  inferInstanceAs (Decidable (_ ∧ _))

/-- What a turn can do: nothing, accept a client, fail to register one, serve one
or let one go. -/
inductive Moves (listenFd : Int) (r : Ready) (sys : System σ) : Turn → Connections → σ → Prop where
  | idle (hfd : r.fd = listenFd ∧ r.accepted = -1 ∨
      r.fd ≠ listenFd ∧ sys.connections.lookup r.fd = none) :
      Moves listenFd r sys ⟨[], []⟩ sys.connections sys.handler
  | joined (hfd : r.fd = listenFd) (hpos : 0 ≤ r.accepted) (hne : r.accepted ≠ listenFd)
      (hfresh : r.accepted ∉ sys.kernel.opened) (hreg : r.registered = true) :
      Moves listenFd r sys ⟨[.accept r.accepted, .epollAdd r.accepted EPOLLIN true], []⟩
        (sys.connections.insert r.accepted (.new r.accepted)) sys.handler
  | refused (hfd : r.fd = listenFd) (hpos : 0 ≤ r.accepted)
      (hfresh : r.accepted ∉ sys.kernel.opened) (hreg : r.registered = false) :
      Moves listenFd r sys ⟨[.accept r.accepted, .epollAdd r.accepted EPOLLIN false,
        .close r.accepted, .close r.accepted], []⟩
        ((sys.connections.insert r.accepted (.new r.accepted)).erase r.accepted) sys.handler
  | served (hfd : r.fd ≠ listenFd) {conn conn' : Connection} {reply sent : Bytes} (s : σ)
      (hconn : sys.connections.lookup r.fd = some conn)
      (hwritten : Written r.socket conn reply sent conn') :
      Moves listenFd r sys ⟨[], sent⟩ (sys.connections.insert r.fd conn') s
  | left (hfd : r.fd ≠ listenFd) (s : σ) (hmem : r.fd ∈ sys.connections)
      (hclosed : ¬ r.socket.Open) :
      Moves listenFd r sys ⟨[.epollDel r.fd, .close r.fd], []⟩ (sys.connections.erase r.fd) s

theorem destroy_ok {conn : Connection} {fd : Int} (hfd : conn.sockfd = fd) (hpos : 0 ≤ fd) :
    destroy conn = [.close fd] := by
  rw [destroy, hfd, if_pos (by omega)]

theorem acceptClient_moves (ht : Tracks listenFd sys) (hfd : r.fd = listenFd)
    (hfresh : Fresh listenFd sys r) :
    Moves listenFd r sys ⟨(acceptClient r sys.connections).1, []⟩
      (acceptClient r sys.connections).2 sys.handler := by
  by_cases hfail : r.accepted = -1
  · rw [acceptClient, if_pos hfail]
    exact .idle (.inl ⟨hfd, hfail⟩)
  · obtain ⟨hpos, hne, hnot⟩ := (hfresh hfd).resolve_left hfail
    have hnone : sys.connections.lookup r.accepted = none :=
      AList.lookup_eq_none.mpr fun hmem => hnot ((ht.opened _).mpr hmem)
    rw [acceptClient, if_neg hfail]
    simp only [store, hnone]
    cases hreg : r.registered with
    | true => exact .joined hfd hpos hne hnot hreg
    | false =>
      have hdestroy : destroy (.new r.accepted) = [.close r.accepted] := destroy_ok rfl hpos
      simp only [erase, AList.lookup_insert, hdestroy]
      exact .refused hfd hpos hnot hreg

theorem clientReady_moves (hx : Total execute Good) (ht : Tracks listenFd sys)
    (hs : Good sys.handler) (hfd : r.fd ≠ listenFd) :
    ∃ t connections s, clientReady execute r sys.connections sys.handler =
      .ok (t, connections, s) ∧ Good s ∧ Moves listenFd r sys t connections s := by
  cases hconn : sys.connections.lookup r.fd with
  | none =>
    refine ⟨_, _, _, ?_, hs, .idle (.inr ⟨hfd, hconn⟩)⟩
    simp only [clientReady, hconn, Exec.pure_eq]
  | some conn =>
    obtain ⟨hsockfd, hpos, _⟩ := ht.owned _ _ hconn
    have hmem : r.fd ∈ sys.connections := mem_of_lookup hconn
    rcases clientEvent_outcome hx r.socket conn hs with
      ⟨s, hrun, hs', hclosed⟩ | ⟨reply, sent, conn', s, hrun, hs', hwritten⟩
    · refine ⟨_, _, s, ?_, hs', .left hfd s hmem hclosed⟩
      simp only [clientReady, hconn, hrun, Exec.ok_bind, Exec.pure_eq, erase,
        destroy_ok hsockfd hpos]
    · refine ⟨_, _, s, ?_, hs', .served hfd s hconn hwritten⟩
      simp only [clientReady, hconn, hrun, Exec.ok_bind, Exec.pure_eq]

/-- Every turn is one of the moves. -/
theorem turn_moves (hx : Total execute Good) (ht : Tracks listenFd sys) (hs : Good sys.handler)
    (hfresh : Fresh listenFd sys r) :
    ∃ t connections s, turn listenFd execute r sys =
      .ok (t, ⟨connections, s, t.calls.foldl Kernel.after sys.kernel⟩) ∧ Good s ∧
        Moves listenFd r sys t connections s := by
  by_cases hfd : r.fd = listenFd
  · refine ⟨_, _, _, ?_, hs, acceptClient_moves ht hfd hfresh⟩
    simp only [turn, dispatch, hfd, ↓reduceIte, Exec.pure_eq, Exec.ok_bind]
  · obtain ⟨t, connections, s, hrun, hs', hmoves⟩ := clientReady_moves hx ht hs hfd
    refine ⟨t, connections, s, ?_, hs', hmoves⟩
    simp only [turn, dispatch, hfd, ↓reduceIte, hrun, Exec.pure_eq, Exec.ok_bind]

/-! ## What a move keeps -/

/-- A descriptor that is opened, entered and registered. -/
theorem Tracks.insert (ht : Tracks listenFd sys) {fd : Int} (hpos : 0 ≤ fd) (hne : fd ≠ listenFd)
    (s : σ) :
    Tracks listenFd ⟨sys.connections.insert fd (.new fd), s,
      ⟨insert fd sys.kernel.opened, sys.kernel.interest.insert fd EPOLLIN⟩⟩ where
  owned a conn h := by
    by_cases ha : a = fd
    · subst ha
      rw [AList.lookup_insert] at h
      cases h
      exact ⟨rfl, hpos, hne⟩
    · rw [AList.lookup_insert_ne ha] at h
      exact ht.owned a conn h
  opened a := by rw [Finset.mem_insert, AList.mem_insert, ht.opened]
  interest a := by
    by_cases ha : a = fd
    · subst ha
      rw [AList.lookup_insert, if_pos ((AList.mem_insert _).mpr (.inl rfl))]
    · simp only [AList.lookup_insert_ne ha, AList.mem_insert, ha, false_or]
      exact ht.interest a

/-- A descriptor that is closed, taken out and no longer registered. -/
theorem Tracks.without (ht : Tracks listenFd sys) (fd : Int) {sys' : System σ}
    (hconn : ∀ a, sys'.connections.lookup a = if a = fd then none else sys.connections.lookup a)
    (hopened : ∀ a, a ∈ sys'.kernel.opened ↔ a ≠ fd ∧ a ∈ sys.kernel.opened)
    (hinterest : ∀ a, sys'.kernel.interest.lookup a =
      if a = fd then none else sys.kernel.interest.lookup a) : Tracks listenFd sys' := by
  have hmem : ∀ a, a ∈ sys'.connections ↔ a ≠ fd ∧ a ∈ sys.connections := by
    intro a
    rw [← AList.lookup_isSome, ← AList.lookup_isSome, hconn]
    split <;> simp [*]
  refine ⟨fun a conn h => ?_, fun a => ?_, fun a => ?_⟩
  · rw [hconn] at h
    split at h
    · cases h
    · exact ht.owned a conn h
  · rw [hopened, hmem, ht.opened]
  · simp only [hinterest, hmem, ht.interest]
    split <;> simp [*]

/-- Serving a client changes neither its descriptor nor the kernel. -/
theorem Tracks.replace (ht : Tracks listenFd sys) {fd : Int} {conn conn' : Connection}
    (hconn : sys.connections.lookup fd = some conn) (hfd : conn'.sockfd = conn.sockfd) (s : σ) :
    Tracks listenFd ⟨sys.connections.insert fd conn', s, sys.kernel⟩ := by
  have hin : fd ∈ sys.connections := mem_of_lookup hconn
  have hmem : ∀ a, a ∈ sys.connections.insert fd conn' ↔ a ∈ sys.connections := by
    intro a
    rw [AList.mem_insert]
    exact ⟨fun h => h.elim (fun heq => heq ▸ hin) id, Or.inr⟩
  refine ⟨fun a c h => ?_, fun a => by rw [ht.opened, hmem], fun a => ?_⟩
  · by_cases ha : a = fd
    · subst ha
      rw [AList.lookup_insert] at h
      cases h
      rw [hfd]
      exact ht.owned a conn hconn
    · rw [AList.lookup_insert_ne ha] at h
      exact ht.owned a c h
  · simp only [ht.interest, hmem]

theorem Moves.tracks {t : Turn} {connections : Connections} {s : σ}
    (h : Moves listenFd r sys t connections s) (ht : Tracks listenFd sys) :
    Tracks listenFd ⟨connections, s, t.calls.foldl Kernel.after sys.kernel⟩ := by
  cases h with
  | idle => exact ht
  | joined _ hpos hne => exact ht.insert hpos hne _
  | refused =>
    -- the new descriptor is in the map only between the two calls
    refine ht.without r.accepted (fun a => ?_) (fun a => ?_) fun a => ?_
    · rw [lookup_erase_if]
      split
      · rfl
      · next ha => rw [AList.lookup_insert_ne ha]
    · simp [Kernel.after]
    · simp only [List.foldl, Kernel.after, lookup_erase_if]
      split <;> rfl
  | served _ s hconn hwritten => exact ht.replace hconn hwritten.sockfd s
  | left =>
    refine ht.without r.fd (lookup_erase_if _ _) (fun a => ?_) fun a => ?_
    · simp [Kernel.after]
    · simp only [List.foldl, Kernel.after, lookup_erase_if]
      split <;> rfl

/-- A move is orderly unless a descriptor is refused, which is then closed twice. -/
theorem Moves.ledger {t : Turn} {connections : Connections} {s : σ}
    (h : Moves listenFd r sys t connections s) (ht : Tracks listenFd sys) :
    ¬ Refused listenFd r ∧ Ledger.Orderly (ledger t.calls) sys.kernel.opened ∨
      Refused listenFd r ∧ ∃ fd, ledger t.calls = [.acquire fd, .release fd, .release fd] := by
  cases h with
  | idle hfd =>
    refine Or.inl ⟨?_, trivial⟩
    rintro ⟨hlisten, hok, _⟩
    rcases hfd with ⟨_, hfail⟩ | ⟨hne, _⟩
    · exact hok hfail
    · exact hne hlisten
  | joined _ _ _ hfresh hreg =>
    exact Or.inl ⟨fun href => by simp [Refused, hreg] at href, hfresh, trivial⟩
  | refused hfd hpos _ hreg => exact Or.inr ⟨⟨hfd, by omega, hreg⟩, r.accepted, rfl⟩
  | served hfd => exact Or.inl ⟨fun href => hfd href.1, trivial⟩
  | left hfd _ hmem =>
    exact Or.inl ⟨fun href => hfd href.1, (ht.opened _).mpr hmem, trivial⟩

/-! ## Runs -/

/-- The calls of a run. -/
def callsOf (turns : List Turn) : List Call := turns.flatMap Turn.calls

theorem ledger_concat (turns : List Turn) (t : Turn) :
    ledger (callsOf (turns ++ [t])) = ledger (callsOf turns) ++ ledger t.calls := by
  simp [callsOf, ledger]

/-- The ledger of a run is orderly, or it holds a descriptor that was refused. -/
def Accounted (listenFd : Int) (rs : List Ready) (turns : List Turn) : Prop :=
  (∀ r ∈ rs, ¬ Refused listenFd r) ∧ Ledger.Orderly (ledger (callsOf turns)) ∅ ∨
    (∃ r ∈ rs, Refused listenFd r) ∧ ∃ front fd back, ledger (callsOf turns) =
      front ++ .acquire fd :: .release fd :: .release fd :: back

/-- What holds whenever the loop waits. -/
structure Waiting (listenFd : Int) (Good : σ → Prop) (rs : List Ready) (turns : List Turn)
    (sys : System σ) : Prop where
  tracks : Tracks listenFd sys
  good : Good sys.handler
  held : sys.kernel.opened = Ledger.held (ledger (callsOf turns)) ∅
  accounted : Accounted listenFd rs turns

theorem start_waiting {s : σ} (hs : Good s) : Waiting listenFd Good [] [] (start s) where
  tracks := start_tracks listenFd s
  good := hs
  held := rfl
  accounted := Or.inl ⟨by simp, trivial⟩

theorem turn_waiting (hx : Total execute Good) {rs : List Ready} {turns : List Turn}
    (hw : Waiting listenFd Good rs turns sys) (hfresh : Fresh listenFd sys r) :
    ∃ t sys', turn listenFd execute r sys = .ok (t, sys') ∧
      Waiting listenFd Good (rs ++ [r]) (turns ++ [t]) sys' := by
  obtain ⟨t, connections, s, hrun, hs, hmoves⟩ := turn_moves hx hw.tracks hw.good hfresh
  refine ⟨t, _, hrun, hmoves.tracks hw.tracks, hs, ?_, ?_⟩
  · rw [Kernel.opened_after, hw.held, ledger_concat, Ledger.held_append]
  · rw [Accounted, ledger_concat]
    rcases hw.accounted with ⟨hnone, horderly⟩ | ⟨⟨q, hq, href⟩, front, fd, back, hcalls⟩
    · rcases hmoves.ledger hw.tracks with ⟨hr, hturn⟩ | ⟨hr, fd, hcalls⟩
      · rw [hw.held] at hturn
        refine Or.inl ⟨fun q hq => ?_, Ledger.orderly_append.mpr ⟨horderly, hturn⟩⟩
        rcases List.mem_append.mp hq with hq | hq
        · exact hnone q hq
        · rwa [List.mem_singleton.mp hq]
      · refine Or.inr ⟨⟨r, by simp, hr⟩, ledger (callsOf turns), fd, [], ?_⟩
        rw [hcalls]
    · refine Or.inr ⟨⟨q, List.mem_append_left _ hq, href⟩, front, fd, back ++ ledger t.calls, ?_⟩
      rw [hcalls]
      simp

theorem run_waiting (hx : Total execute Good) {s : σ} (hs : Good s) {rs : List Ready}
    (hg : Run.Guarded (turn listenFd execute) (Fresh listenFd) (start s) rs) :
    ∃ turns sys, Run.run (turn listenFd execute) rs (start s) = .ok (turns, sys) ∧
      Waiting listenFd Good rs turns sys := by
  obtain ⟨turns, sys, hrun, hw⟩ :=
    Run.record (fun _ _ _ _ hw hfresh => turn_waiting hx hw hfresh) rs [] [] (start s)
      (start_waiting hs) hg
  exact ⟨turns, sys, hrun, by simpa using hw⟩

/-- The handler of the process answers every command while its hash objects are safe. -/
theorem handler_total (hash : Bytes → Nat) (env : Nat → Surroundings) :
    Total (handler hash env) fun state => state.1.db.Safe := by
  rintro args ⟨w, done⟩ hs
  obtain ⟨resp, w', hrun, hs'⟩ := handler_safe hash env args hs done
  exact ⟨resp, _, hrun, hs'⟩

/-- **Descriptors.**  In every run the connections are the open descriptors and
the registered ones whenever the loop waits; and every accepted descriptor is
closed once exactly when each could be registered. -/
theorem descriptors_closed_once_iff (hash : Bytes → Nat) (env : Nat → Surroundings)
    (listenFd : Int) (state : World × List (List Bytes)) (rs : List Ready)
    (hs : state.1.db.Safe)
    (hg : Run.Guarded (turn listenFd (handler hash env)) (Fresh listenFd) (start state) rs) :
    ∃ turns sys, Run.run (turn listenFd (handler hash env)) rs (start state) = .ok (turns, sys) ∧
      (∀ fd, fd ∈ sys.kernel.opened ↔ fd ∈ sys.connections) ∧
      (∀ fd, fd ∈ sys.kernel.interest ↔ fd ∈ sys.connections) ∧
      (Ledger.ReleasedOnce (ledger (callsOf turns)) ∅ ↔ ∀ r ∈ rs, ¬ Refused listenFd r) := by
  obtain ⟨turns, sys, hrun, hw⟩ := run_waiting (handler_total hash env) hs hg
  refine ⟨turns, sys, hrun, hw.tracks.opened, fun fd => ?_, ?_⟩
  · rw [← AList.lookup_isSome, hw.tracks.interest]
    split <;> simp [*]
  · rcases hw.accounted with ⟨hnone, horderly⟩ | ⟨⟨r, hr, href⟩, front, fd, back, hcalls⟩
    · exact iff_of_true horderly.releasedOnce hnone
    · rw [hcalls]
      exact iff_of_false (Ledger.not_releasedOnce_twice front back fd ∅) fun h => h r hr href

/-- A client that comes, sends `PING` and closes, and another that gets its
descriptor. -/
def reused : List Ready :=
  [⟨3, 5, true, .ofChunk []⟩, ⟨5, -1, true, .ofChunk (encodeArray [bytes "PING"])⟩,
    ⟨5, -1, true, ⟨[], .eof, .wouldBlock⟩⟩, ⟨3, 5, true, .ofChunk []⟩]

theorem descriptors_closed_once_reused :
    ∃ turns sys, Run.run (turn 3 (handler (fun _ => 0) fun _ => ⟨.stored, true⟩)) reused
        (start (World.empty, [])) = .ok (turns, sys) ∧
      (∀ fd, fd ∈ sys.kernel.opened ↔ fd ∈ sys.connections) ∧
      (∀ fd, fd ∈ sys.kernel.interest ↔ fd ∈ sys.connections) ∧
      (Ledger.ReleasedOnce (ledger (callsOf turns)) ∅ ↔ ∀ r ∈ reused, ¬ Refused 3 r) :=
  descriptors_closed_once_iff (fun _ => 0) (fun _ => ⟨.stored, true⟩) 3 (World.empty, []) reused
    Database.empty_safe (by decide +kernel)

/-- Descriptor 5 is accepted, cannot be registered, and is closed twice. -/
theorem refused_descriptor_closed_twice :
    ¬ ∀ (hash : Bytes → Nat) (env : Nat → Surroundings) (listenFd : Int)
      (state : World × List (List Bytes)) (rs : List Ready), state.1.db.Safe →
      Run.Guarded (turn listenFd (handler hash env)) (Fresh listenFd) (start state) rs →
      ∃ turns sys, Run.run (turn listenFd (handler hash env)) rs (start state) =
        .ok (turns, sys) ∧ Ledger.ReleasedOnce (ledger (callsOf turns)) ∅ := by
  intro h
  obtain ⟨turns, sys, hrun, honce⟩ := h (fun _ => 0) (fun _ => ⟨.stored, true⟩) 3
    (World.empty, []) [⟨3, 5, false, .ofChunk []⟩] Database.empty_safe (by decide +kernel)
  have hcalls : Run.run (turn 3 (handler (fun _ => 0) fun _ => ⟨.stored, true⟩))
      [⟨3, 5, false, .ofChunk []⟩] (start (World.empty, [])) =
      .ok ([⟨[.accept 5, .epollAdd 5 EPOLLIN false, .close 5, .close 5], []⟩], _) := rfl
  rw [hcalls] at hrun
  cases hrun
  exact Ledger.not_releasedOnce_twice [] [] 5 ∅ honce

end Server

end MiniRedis
