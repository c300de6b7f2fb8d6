import MiniRedis.ClientIsolation
import MiniRedis.Lib.Unwinding
import MiniRedis.ServedClients

/-!
What a client of the loop can see of the others.  The descriptor, the keys under
which the client works and its own events decide everything that is sent to it
and every call that is made on its descriptor, as long as the others stay off
those keys; whatever else they send, list, save or break off.
-/

namespace MiniRedis.Server

open RespParser CommandHandler

/-! ## Two processes that look the same -/

section Alike

variable {σ : Type} {execute : List Bytes → σ → Exec (Bytes × σ)} {Alike : σ → σ → Prop}
variable {conn : Connection} {e : Event} {r : Ready} {s t : σ}

/-- The command is answered alike in both states. -/
def AnswersAlike (execute : List Bytes → σ → Exec (Bytes × σ)) (Alike : σ → σ → Prop) (s t : σ)
    (args : List Bytes) : Prop :=
  ∃ resp s' t', execute args s = .ok (resp, s') ∧ execute args t = .ok (resp, t') ∧ Alike s' t'

theorem handleInput_alike (hst : Alike s t)
    (hx : ∀ args ∈ commandOf conn.readBuffer, AnswersAlike execute Alike s t args) :
    ∃ conn' s' t', handleInput execute conn s = .ok (conn', s') ∧
      handleInput execute conn t = .ok (conn', t') ∧ Alike s' t' := by
  have hparse := parse_eq conn.readBuffer
  generalize frameFrom (conn.readBuffer.dropWhile fun b => decide (IsSpace b)) = parsed at hparse
  obtain ⟨verdict, args⟩ := parsed
  simp only [handleInput, hparse, Exec.ok_bind, Exec.pure_eq]
  cases verdict with
  | COMPLETE =>
    obtain ⟨resp, s', t', hs, ht, hst'⟩ := hx args (by rw [commandOf, hparse]; rfl)
    simp only [hs, ht, Exec.ok_bind]
    exact ⟨_, s', t', rfl, rfl, hst'⟩
  | INCOMPLETE => exact ⟨_, s, t, rfl, rfl, hst⟩
  | ERROR => exact ⟨_, s, t, rfl, rfl, hst⟩

theorem clientEvent_alike (hst : Alike s t)
    (hx : e.readEnd = .wouldBlock → ∀ args ∈ commandOf (conn.readBuffer ++ e.data),
      AnswersAlike execute Alike s t args) :
    ∃ sent left s' t', clientEvent execute e (some conn, s) = .ok (sent, (left, s')) ∧
      clientEvent execute e (some conn, t) = .ok (sent, (left, t')) ∧ Alike s' t' := by
  by_cases hend : e.readEnd = .wouldBlock
  · have hread : conn.readFromSocket e =
        (true, { conn with readBuffer := conn.readBuffer ++ e.data }) := by
      simp only [Connection.readFromSocket, hend, Event.data]
    obtain ⟨conn₁, s', t', hs, ht, hst'⟩ :
        ∃ conn₁ s' t',
          handleInput execute { conn with readBuffer := conn.readBuffer ++ e.data } s =
            .ok (conn₁, s') ∧
          handleInput execute { conn with readBuffer := conn.readBuffer ++ e.data } t =
            .ok (conn₁, t') ∧ Alike s' t' :=
      handleInput_alike hst (hx hend)
    simp only [clientEvent, hread, hs, ht, Exec.ok_bind]
    rcases writeToSocket_splits e conn₁ with ⟨conn', hwrite⟩ | ⟨sent, conn', hwrite, _⟩
    · rw [hwrite]
      exact ⟨[], none, s', t', rfl, rfl, hst'⟩
    · rw [hwrite]
      exact ⟨sent, some conn', s', t', rfl, rfl, hst'⟩
  · exact ⟨[], none, s, t, clientEvent_closed hend conn s, clientEvent_closed hend conn t, hst⟩

/-- An event of a connection that both processes have. -/
theorem clientReady_alike {cs ct : Connections} (hlook : cs.lookup r.fd = ct.lookup r.fd)
    (hst : Alike s t)
    (hx : ∀ conn ∈ cs.lookup r.fd, r.socket.readEnd = .wouldBlock →
      ∀ args ∈ commandOf (conn.readBuffer ++ r.socket.data),
        AnswersAlike execute Alike s t args) :
    ∃ turn cs' ct' s' t', clientReady execute r cs s = .ok (turn, cs', s') ∧
      clientReady execute r ct t = .ok (turn, ct', t') ∧ cs'.lookup r.fd = ct'.lookup r.fd ∧
      Alike s' t' := by
  cases hconn : cs.lookup r.fd with
  | none =>
    have hconn' : ct.lookup r.fd = none := hlook ▸ hconn
    refine ⟨⟨[], []⟩, cs, ct, s, t, ?_, ?_, hlook, hst⟩
    · simp only [clientReady, hconn, Exec.pure_eq]
    · simp only [clientReady, hconn', Exec.pure_eq]
  | some conn =>
    have hconn' : ct.lookup r.fd = some conn := hlook ▸ hconn
    obtain ⟨sent, left, s', t', hs, ht, hst'⟩ := clientEvent_alike hst (hx conn hconn)
    simp only [clientReady, hconn, hconn', hs, ht, Exec.ok_bind]
    cases left with
    | some conn' =>
      exact ⟨_, _, _, s', t', rfl, rfl, by rw [AList.lookup_insert, AList.lookup_insert], hst'⟩
    | none =>
      simp only [erase, hconn, hconn']
      exact ⟨_, _, _, s', t', rfl, rfl, by rw [AList.lookup_erase, AList.lookup_erase], hst'⟩

/-- Accepting a descriptor looks at what is kept under it, and at nothing else. -/
theorem acceptClient_alike {cs ct : Connections}
    (hlook : cs.lookup r.accepted = ct.lookup r.accepted) :
    (acceptClient r cs).1 = (acceptClient r ct).1 ∧
      (acceptClient r cs).2.lookup r.accepted = (acceptClient r ct).2.lookup r.accepted := by
  by_cases hfail : r.accepted = -1
  · rw [acceptClient, acceptClient, if_pos hfail, if_pos hfail]
    exact ⟨rfl, hlook⟩
  · rw [acceptClient, acceptClient, if_neg hfail, if_neg hfail]
    simp only [store, hlook]
    cases ct.lookup r.accepted <;> cases r.registered <;> simp [erase]

/-- Accepting a descriptor changes nothing under another one. -/
theorem acceptClient_frame {cs : Connections} {fd : Int} (hfd : r.accepted ≠ fd) :
    (acceptClient r cs).2.lookup fd = cs.lookup fd := by
  have hne : fd ≠ r.accepted := Ne.symm hfd
  by_cases hfail : r.accepted = -1
  · rw [acceptClient, if_pos hfail]
  · rw [acceptClient, if_neg hfail]
    simp only [store, erase]
    cases cs.lookup r.accepted <;> cases r.registered <;>
      simp [AList.lookup_insert_ne hne, AList.lookup_erase_ne hne]

/-- An event of one connection changes nothing under another descriptor. -/
theorem clientReady_frame {cs cs' : Connections} {turn : Turn} {s' : σ} {fd : Int}
    (h : clientReady execute r cs s = .ok (turn, cs', s')) (hfd : r.fd ≠ fd) :
    cs'.lookup fd = cs.lookup fd := by
  have hne : fd ≠ r.fd := Ne.symm hfd
  cases hconn : cs.lookup r.fd with
  | none =>
    simp only [clientReady, hconn, Exec.pure_eq] at h
    cases h
    rfl
  | some conn =>
    simp only [clientReady, hconn] at h
    obtain ⟨⟨sent, left, s₁⟩, _, h⟩ := Exec.bind_eq_ok.mp h
    cases left with
    | some conn' =>
      cases h
      exact AList.lookup_insert_ne hne
    | none =>
      simp only [erase, hconn] at h
      cases h
      exact AList.lookup_erase_ne hne

end Alike

/-! ## Commands -/

section Commands

variable {hash : Bytes → Nat} {env : Nat → Surroundings} {K : Bytes → Prop}
variable {state state' : World × List (List Bytes)} {args : List Bytes}

/-- Both processes hold the same under the keys. -/
structure AlikeUnder (K : Bytes → Prop) (state state' : World × List (List Bytes)) : Prop where
  safe : state.1.db.Safe
  safe' : state'.1.db.Safe
  agree : ∀ k, K k → state.1.db.lookupKey k = state'.1.db.lookupKey k

/-- Only `KEYS` and `SAVE` look at the surroundings. -/
theorem perform_surroundings {r : Request} (hkeys : ∀ pattern, r ≠ .keys pattern)
    (hsave : r ≠ .save) (env env' : Surroundings) (w : World) :
    perform hash env r w = perform hash env' r w := by
  cases r with
  | keys pattern => exact absurd rfl (hkeys pattern)
  | save => exact absurd rfl hsave
  | _ => rfl

/-- A command on the keys is answered alike. -/
theorem handler_own (h : AlikeUnder K state state') (hkeyed : Keyed args)
    (hnamed : ∀ k ∈ (request args).keysNamed, K k) :
    AnswersAlike (handler hash env) (AlikeUnder K) state state' args := by
  obtain ⟨w, done⟩ := state
  obtain ⟨w', done'⟩ := state'
  obtain ⟨resp, w₁, hrun, hs⟩ := execute_safe hash (env done.length) args h.safe
  obtain ⟨resp', w₁', hrun', hs'⟩ := execute_safe hash (env done'.length) args h.safe'
  obtain ⟨reply, hperform, rfl⟩ := execute_ok hrun
  obtain ⟨reply', hperform', rfl⟩ := execute_ok hrun'
  have hsame := hperform'
  rw [perform_surroundings hkeyed.request.1 hkeyed.request.2 _ (env done.length)] at hsame
  obtain ⟨rfl, hagree⟩ := perform_depends hkeyed.request.1 hkeyed.request.2
    (fun k hk => h.agree k (hnamed k hk)) hperform hsame
  refine ⟨reply.encode, (w₁, done ++ [args]), (w₁', done' ++ [args]), ?_, ?_, hs, hs',
    fun k hk => ?_⟩
  · simp [handler, hrun]
  · simp [handler, hrun']
  · by_cases hmem : k ∈ (request args).keysNamed
    · exact hagree k hmem
    · rw [perform_frame hperform hmem, perform_frame hperform' hmem]
      exact h.agree k hk

/-- A command on other keys is answered, and changes nothing under these. -/
theorem handler_other (h : AlikeUnder K state state')
    (hnamed : ∀ k ∈ (request args).keysNamed, ¬ K k) :
    ∃ resp state₁, handler hash env args state = .ok (resp, state₁) ∧
      AlikeUnder K state₁ state' := by
  obtain ⟨w, done⟩ := state
  obtain ⟨resp, w₁, hrun, hs⟩ := execute_safe hash (env done.length) args h.safe
  obtain ⟨reply, hperform, rfl⟩ := execute_ok hrun
  refine ⟨reply.encode, (w₁, done ++ [args]), by simp [handler, hrun], hs, h.safe', fun k hk => ?_⟩
  rw [perform_frame hperform fun hmem => hnamed k hmem hk]
  exact h.agree k hk

/-- The condition on a buffer that is taken: the client `c` keeps to its keys and
to commands that name them, everyone else keeps off these keys. -/
def Allowed (c : Int) (K : Bytes → Prop) (fd : Int) (taken : Bytes) : Prop :=
  ∀ args ∈ commandOf taken, if fd = c then Keyed args ∧ ∀ k ∈ (request args).keysNamed, K k
    else ∀ k ∈ (request args).keysNamed, ¬ K k

instance (c : Int) (K : Bytes → Prop) [DecidablePred K] (fd : Int) (taken : Bytes) :
    Decidable (Allowed c K fd taken) :=
  inferInstanceAs (Decidable (∀ args ∈ commandOf taken, _))

end Commands

/-! ## The loop -/

/-- The event is one of the client's own: it comes with its descriptor, or gives it
that descriptor. -/
def concerns (listenFd c : Int) (r : Ready) : Bool :=
  decide (r.fd = c) || decide (r.fd = listenFd) && decide (r.accepted = c)

/-- The systems look the same to the client. -/
def LooksAlike (c : Int) (K : Bytes → Prop) (sys sys' : System (World × List (List Bytes))) :
    Prop :=
  sys.connections.lookup c = sys'.connections.lookup c ∧ AlikeUnder K sys.handler sys'.handler

section Loop

variable {hash : Bytes → Nat} {env : Nat → Surroundings} {listenFd c : Int} {K : Bytes → Prop}
variable {sys sys' : System (World × List (List Bytes))} {r : Ready}

/-- An event of another client returns and changes nothing the client looks at. -/
theorem turn_other (h : LooksAlike c K sys sys')
    (hg : Offers (fun _ taken => Allowed c K r.fd taken) sys r)
    (hmine : concerns listenFd c r = false) :
    ∃ t sys₁, turn listenFd (handler hash env) r sys = .ok (t, sys₁) ∧
      LooksAlike c K sys₁ sys' := by
  obtain ⟨hlook, halike⟩ := h
  simp only [concerns, Bool.or_eq_false_iff, decide_eq_false_iff_not,
    Bool.and_eq_false_iff] at hmine
  obtain ⟨hfd, haccepted⟩ := hmine
  by_cases hlisten : r.fd = listenFd
  · have hne : r.accepted ≠ c := haccepted.resolve_left (absurd hlisten)
    have hframe : (acceptClient r sys.connections).2.lookup c = sys.connections.lookup c :=
      acceptClient_frame hne
    simp only [turn, dispatch, hlisten, ↓reduceIte, Exec.pure_eq, Exec.ok_bind]
    exact ⟨_, _, rfl, hframe.trans hlook, halike⟩
  · have hx : ∀ conn ∈ sys.connections.lookup r.fd, r.socket.readEnd = .wouldBlock →
        ∀ args ∈ commandOf (conn.readBuffer ++ r.socket.data),
          AnswersAlike (handler hash env) (fun s _ => AlikeUnder K s sys'.handler)
            sys.handler sys.handler args := by
      intro conn hconn hend args hargs
      have hallowed := hg conn hconn hend args hargs
      rw [if_neg hfd] at hallowed
      obtain ⟨resp, s₁, hhandler, h₁⟩ := handler_other halike hallowed
      exact ⟨resp, s₁, s₁, hhandler, hhandler, h₁⟩
    obtain ⟨t, cs, _, s, _, hrun, _, _, halike₁⟩ :=
      clientReady_alike rfl (by exact halike) hx
    have hframe := clientReady_frame hrun hfd
    simp only [turn, dispatch, hlisten, ↓reduceIte, hrun, Exec.pure_eq, Exec.ok_bind]
    exact ⟨_, _, rfl, hframe.trans hlook, halike₁⟩

/-- An event of the client's own is the same turn in both systems. -/
theorem turn_own (hc : c ≠ listenFd) (h : LooksAlike c K sys sys')
    (hg : Offers (fun _ taken => Allowed c K r.fd taken) sys r)
    (hmine : concerns listenFd c r = true) :
    ∃ t sys₁ sys₁', turn listenFd (handler hash env) r sys = .ok (t, sys₁) ∧
      turn listenFd (handler hash env) r sys' = .ok (t, sys₁') ∧ LooksAlike c K sys₁ sys₁' := by
  obtain ⟨hlook, halike⟩ := h
  simp only [concerns, Bool.or_eq_true, decide_eq_true_eq, Bool.and_eq_true] at hmine
  rcases hmine with rfl | ⟨hlisten, rfl⟩
  · have hx : ∀ conn ∈ sys.connections.lookup r.fd, r.socket.readEnd = .wouldBlock →
        ∀ args ∈ commandOf (conn.readBuffer ++ r.socket.data),
          AnswersAlike (handler hash env) (AlikeUnder K) sys.handler sys'.handler args := by
      intro conn hconn hend args hargs
      have hallowed := hg conn hconn hend args hargs
      rw [if_pos rfl] at hallowed
      exact handler_own halike hallowed.1 hallowed.2
    obtain ⟨t, cs, cs', s, s', hrun, hrun', hlook₁, halike₁⟩ := clientReady_alike hlook halike hx
    simp only [turn, dispatch, hc, ↓reduceIte, hrun, hrun', Exec.pure_eq, Exec.ok_bind]
    exact ⟨t, _, _, rfl, rfl, hlook₁, halike₁⟩
  · obtain ⟨hcalls, hlook₁⟩ := acceptClient_alike hlook
    simp only [turn, dispatch, hlisten, ↓reduceIte, Exec.pure_eq, Exec.ok_bind, hcalls]
    exact ⟨_, _, _, rfl, rfl, hlook₁, halike⟩

/-- **Noninterference.**  In every run in which a client keeps to commands on its
keys and the others, whatever they do, keep off these keys, every turn made for the
client (its calls, and the bytes it is sent) is what it is in the run with all the
events of the others taken out; and so are its buffers and what is under its keys
in the end. -/
theorem client_unaffected_by_others (hash : Bytes → Nat) (env : Nat → Surroundings)
    (listenFd c : Int) (K : Bytes → Prop) (hc : c ≠ listenFd)
    (state : World × List (List Bytes)) (hs : state.1.db.Safe) (rs : List Ready)
    (hg : Run.Guarded (turn listenFd (handler hash env))
      (fun sys r => Offers (fun _ taken => Allowed c K r.fd taken) sys r) (start state) rs) :
    ∃ turns sys sys', Run.run (turn listenFd (handler hash env)) rs (start state) =
        .ok (turns, sys) ∧
      Run.run (turn listenFd (handler hash env)) (rs.filter (concerns listenFd c)) (start state) =
        .ok (Unwinding.seen (concerns listenFd c) rs turns, sys') ∧
      sys.connections.lookup c = sys'.connections.lookup c ∧
      ∀ k, K k → sys.handler.1.db.lookupKey k = sys'.handler.1.db.lookupKey k := by
  have hunwinds : Unwinding.Unwinds (turn listenFd (handler hash env))
      (fun sys r => Offers (fun _ taken => Allowed c K r.fd taken) sys r)
      (concerns listenFd c) (LooksAlike c K) :=
    { other := fun _ _ _ h hg hmine => turn_other h hg hmine
      own := fun _ _ _ h hg hmine => turn_own hc h hg hmine }
  obtain ⟨turns, sys, sys', hrun, halone, hlook, halike⟩ :=
    hunwinds.purge rs (start state) (start state) ⟨rfl, hs, hs, fun _ _ => rfl⟩ hg
  exact ⟨turns, sys, sys', hrun, halone, hlook, halike.agree⟩

end Loop

/-- A client on one key, another that writes elsewhere, lists and saves, and breaks
off in the middle of a command. -/
def twoOnKeys : List Ready :=
  [⟨3, 5, true, .ofChunk []⟩, ⟨3, 6, true, .ofChunk []⟩,
    ⟨6, -1, true, .ofChunk (encodeArray [bytes "SET", [2], [7]])⟩,
    ⟨5, -1, true, .ofChunk (encodeArray [bytes "HSET", [1], [3], [4]])⟩,
    ⟨6, -1, true, .ofChunk (encodeArray [bytes "KEYS", bytes "*"])⟩,
    ⟨6, -1, true, .ofChunk (encodeArray [bytes "SAVE"])⟩,
    ⟨6, -1, true, .ofChunk (bytes "*2\r\n$3")⟩,
    ⟨5, -1, true, ⟨[encodeArray [bytes "HGET", [1], [3]]], .wouldBlock, .accepted 9⟩⟩,
    ⟨6, -1, true, ⟨[], .failed, .wouldBlock⟩⟩]

theorem client_unaffected_by_others_two :
    ∃ turns sys sys', Run.run (turn 3 (handler (fun _ => 0) fun _ => ⟨.stored, true⟩)) twoOnKeys
        (start (World.empty, [])) = .ok (turns, sys) ∧
      Run.run (turn 3 (handler (fun _ => 0) fun _ => ⟨.stored, true⟩))
        (twoOnKeys.filter (concerns 3 5)) (start (World.empty, [])) =
        .ok (Unwinding.seen (concerns 3 5) twoOnKeys turns, sys') ∧
      sys.connections.lookup 5 = sys'.connections.lookup 5 ∧
      ∀ k, k = [1] → sys.handler.1.db.lookupKey k = sys'.handler.1.db.lookupKey k :=
  client_unaffected_by_others (fun _ => 0) (fun _ => ⟨.stored, true⟩) 3 5 (fun k => k = [1])
    (by decide) (World.empty, []) Database.empty_safe twoOnKeys (by decide +kernel)

end MiniRedis.Server
