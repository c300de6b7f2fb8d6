import MiniRedis.Descriptors

/-!
Replies that the socket does not take at once.  A client is registered for
`EPOLLIN` and for nothing else, so what is left of a reply waits in the write
buffer for the next bytes of that client.
-/

namespace MiniRedis.Server

open RespParser

variable {σ : Type} {execute : List Bytes → σ → Exec (Bytes × σ)} {Good : σ → Prop}
variable {listenFd : Int} {r : Ready} {sys : System σ} {fd : Int} {conn : Connection}

/-- `epoll_wait` reports the descriptor when it can be written to. -/
def Writable (sys : System σ) (fd : Int) : Prop :=
  ∃ events ∈ sys.kernel.interest.lookup fd, events &&& EPOLLOUT ≠ 0

/-- An event of another descriptor leaves a connection alone. -/
theorem Moves.frame {t : Turn} {connections : Connections} {s : σ}
    (h : Moves listenFd r sys t connections s) (ht : Tracks listenFd sys)
    (hconn : sys.connections.lookup fd = some conn) (hfd : r.fd ≠ fd) :
    connections.lookup fd = some conn := by
  have hopen : fd ∈ sys.kernel.opened :=
    (ht.opened fd).mpr (mem_of_lookup hconn)
  cases h with
  | idle => exact hconn
  | joined _ _ _ hfresh =>
    have hne : fd ≠ r.accepted := fun heq => hfresh (heq ▸ hopen)
    rw [AList.lookup_insert_ne hne, hconn]
  | refused _ _ hfresh =>
    have hne : fd ≠ r.accepted := fun heq => hfresh (heq ▸ hopen)
    rw [AList.lookup_erase_ne hne, AList.lookup_insert_ne hne, hconn]
  | served => rw [AList.lookup_insert_ne hfd.symm, hconn]
  | left => rw [AList.lookup_erase_ne hfd.symm, hconn]

/-- An event that keeps its connection open offers the wire what was left. -/
theorem Moves.flush {t : Turn} {connections : Connections} {s : σ}
    (h : Moves listenFd r sys t connections s) (ht : Tracks listenFd sys)
    (hconn : sys.connections.lookup r.fd = some conn) (hopen : r.socket.Open) :
    ∃ reply conn', connections.lookup r.fd = some conn' ∧
      Written r.socket conn reply t.sent conn' := by
  have hne : r.fd ≠ listenFd := (ht.owned _ _ hconn).2.2
  cases h with
  | idle hidle =>
    rcases hidle with ⟨hfd, _⟩ | ⟨_, hnone⟩
    · exact absurd hfd hne
    · rw [hconn] at hnone
      cases hnone
  | joined hfd => exact absurd hfd hne
  | refused hfd => exact absurd hfd hne
  | @served _ conn₀ conn' reply sent s hconn₀ hwritten =>
    rw [hconn] at hconn₀
    cases hconn₀
    exact ⟨reply, conn', AList.lookup_insert .., hwritten⟩
  | left _ _ _ hclosed => exact absurd hopen hclosed

/-- Until its own next event a connection stays as it is, whatever the others do. -/
theorem run_frame (hx : Total execute Good) (ht : Tracks listenFd sys) (hs : Good sys.handler)
    (hconn : sys.connections.lookup fd = some conn) {rs : List Ready}
    (hg : Run.Guarded (turn listenFd execute) (Fresh listenFd) sys rs)
    (hothers : ∀ r ∈ rs, r.fd ≠ fd) :
    ∃ turns sys', Run.run (turn listenFd execute) rs sys = .ok (turns, sys') ∧
      Tracks listenFd sys' ∧ Good sys'.handler ∧ sys'.connections.lookup fd = some conn := by
  have hstep : ∀ (is : List Ready) (os : List Turn) (sys : System σ) (r : Ready),
      (Tracks listenFd sys ∧ Good sys.handler ∧
        ((∀ r ∈ is, r.fd ≠ fd) → sys.connections.lookup fd = some conn)) →
      Fresh listenFd sys r → ∃ t sys', turn listenFd execute r sys = .ok (t, sys') ∧
        (Tracks listenFd sys' ∧ Good sys'.handler ∧
          ((∀ q ∈ is ++ [r], q.fd ≠ fd) → sys'.connections.lookup fd = some conn)) := by
    rintro is _ sys r ⟨ht, hs, hconn⟩ hfresh
    obtain ⟨t, connections, s, hrun, hs', hmoves⟩ := turn_moves hx ht hs hfresh
    refine ⟨t, _, hrun, hmoves.tracks ht, hs', fun hothers => ?_⟩
    exact hmoves.frame ht (hconn fun q hq => hothers q (List.mem_append_left _ hq))
      (hothers r (by simp))
  obtain ⟨turns, sys', hrun, ht', hs', hconn'⟩ :=
    Run.record (R := fun is _ sys => Tracks listenFd sys ∧ Good sys.handler ∧
      ((∀ r ∈ is, r.fd ≠ fd) → sys.connections.lookup fd = some conn))
      hstep rs [] [] sys ⟨ht, hs, fun _ => hconn⟩ hg
  exact ⟨turns, sys', hrun, ht', hs', hconn' (by simpa using hothers)⟩

/-- Whatever happens on other descriptors, the connection stays as it is; and at
its own next event, unless that closes it, `write` is offered what is in its
buffer in front of any new reply. -/
def Waits (listenFd : Int) (execute : List Bytes → σ → Exec (Bytes × σ)) (sys : System σ)
    (fd : Int) (conn : Connection) : Prop :=
  ∀ others, Run.Guarded (turn listenFd execute) (Fresh listenFd) sys others →
    (∀ r ∈ others, r.fd ≠ fd) → ∃ turns sys₁,
      Run.run (turn listenFd execute) others sys = .ok (turns, sys₁) ∧
      sys₁.connections.lookup fd = some conn ∧
      ∀ r, r.fd = fd → r.socket.Open → ∃ t sys₂ reply conn',
        turn listenFd execute r sys₁ = .ok (t, sys₂) ∧
        sys₂.connections.lookup fd = some conn' ∧ Written r.socket conn reply t.sent conn'

theorem waits (hx : Total execute Good) (ht : Tracks listenFd sys) (hs : Good sys.handler)
    (hconn : sys.connections.lookup fd = some conn) : Waits listenFd execute sys fd conn := by
  intro others hothers hne
  obtain ⟨turns, sys₁, hrun₁, ht₁, hs₁, hconn₁⟩ := run_frame hx ht hs hconn hothers hne
  refine ⟨turns, sys₁, hrun₁, hconn₁, ?_⟩
  rintro r rfl hopen
  have hfresh : Fresh listenFd sys₁ r := fun hfd => absurd hfd (ht₁.owned _ _ hconn₁).2.2
  obtain ⟨t, connections, s, hturn, _, hmoves⟩ := turn_moves hx ht₁ hs₁ hfresh
  obtain ⟨reply, conn', hconn', hwritten⟩ := hmoves.flush ht₁ hconn₁ hopen
  exact ⟨t, _, reply, conn', hturn, hconn', hwritten⟩

/-- **The remainder waits for the client.**  Whenever the loop waits, every open
connection is registered for `EPOLLIN` only, and what is left of its replies
waits for its next event. -/
theorem remainder_waits_for_client (hash : Bytes → Nat) (env : Nat → Surroundings)
    (listenFd : Int) (state : World × List (List Bytes)) (rs : List Ready)
    (hs : state.1.db.Safe)
    (hg : Run.Guarded (turn listenFd (handler hash env)) (Fresh listenFd) (start state) rs) :
    ∃ turns sys, Run.run (turn listenFd (handler hash env)) rs (start state) = .ok (turns, sys) ∧
      ∀ fd conn, sys.connections.lookup fd = some conn →
        sys.kernel.interest.lookup fd = some EPOLLIN ∧ ¬ Writable sys fd ∧
          Waits listenFd (handler hash env) sys fd conn := by
  have hx := handler_total hash env
  obtain ⟨turns, sys, hrun, hw⟩ := run_waiting hx hs hg
  refine ⟨turns, sys, hrun, fun fd conn hconn => ?_⟩
  have hmem : fd ∈ sys.connections := mem_of_lookup hconn
  have hinterest : sys.kernel.interest.lookup fd = some EPOLLIN := by
    rw [hw.tracks.interest, if_pos hmem]
  refine ⟨hinterest, ?_, waits hx hw.tracks hw.good hconn⟩
  rintro ⟨events, hevents, hout⟩
  rw [hinterest] at hevents
  cases hevents
  exact hout (by decide)

/-- A client whose `PING` is answered while its socket takes nothing. -/
def blocked : List Ready :=
  [⟨3, 5, true, .ofChunk []⟩, ⟨5, -1, true, .ofChunk (encodeArray [bytes "PING"])⟩]

theorem remainder_waits_for_client_blocked :
    ∃ turns sys, Run.run (turn 3 (handler (fun _ => 0) fun _ => ⟨.stored, true⟩)) blocked
        (start (World.empty, [])) = .ok (turns, sys) ∧
      ∀ fd conn, sys.connections.lookup fd = some conn →
        sys.kernel.interest.lookup fd = some EPOLLIN ∧ ¬ Writable sys fd ∧
          Waits 3 (handler (fun _ => 0) fun _ => ⟨.stored, true⟩) sys fd conn :=
  remainder_waits_for_client (fun _ => 0) (fun _ => ⟨.stored, true⟩) 3 (World.empty, []) blocked
    Database.empty_safe (by decide +kernel)

/-- The reply to `PING` is queued, and nothing but input will be reported. -/
theorem reply_is_stranded :
    ¬ ∀ (hash : Bytes → Nat) (env : Nat → Surroundings) (listenFd : Int)
      (state : World × List (List Bytes)) (rs : List Ready), state.1.db.Safe →
      Run.Guarded (turn listenFd (handler hash env)) (Fresh listenFd) (start state) rs →
      ∃ turns sys, Run.run (turn listenFd (handler hash env)) rs (start state) =
        .ok (turns, sys) ∧ ∀ fd conn, sys.connections.lookup fd = some conn →
          conn.writeBuffer ≠ [] → Writable sys fd := by
  intro h
  obtain ⟨turns, sys, hrun, hwritable⟩ := h (fun _ => 0) (fun _ => ⟨.stored, true⟩) 3
    (World.empty, []) blocked Database.empty_safe (by decide +kernel)
  have hblocked : (Run.run (turn 3 (handler (fun _ => 0) fun _ => ⟨.stored, true⟩)) blocked
      (start (World.empty, []))).map (fun out => (out.2.connections.lookup 5,
        out.2.kernel.interest.lookup 5)) =
      .ok (some ⟨5, [], bytes "+PONG\r\n", false⟩, some EPOLLIN) := by decide +kernel
  rw [hrun] at hblocked
  obtain ⟨hconn, hinterest⟩ := Prod.mk.inj (Except.ok.inj hblocked)
  obtain ⟨events, hevents, hout⟩ := hwritable 5 _ hconn (by decide)
  rw [hinterest] at hevents
  cases hevents
  exact hout (by decide)

end MiniRedis.Server
