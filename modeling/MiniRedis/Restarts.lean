import MiniRedis.Durability
import MiniRedis.ServedClients

/-!
The server over its lives.  In each life the loop serves its clients until a
signal or worse ends the process; the next life starts on the file that is left,
with no client.  All replies of all lives are those of one durable store.
-/

namespace MiniRedis.Server

open RespParser Database RdbEncoder

variable {hash : Bytes → Nat} {listenFd : Int}

/-! ## Lives -/

/-- How a life ends. -/
inductive Ending where
  | signal (env : Surroundings)
  | kill
  /-- Inside `saveToFile`, when `n` bytes have come to the file. -/
  | cut (order : Iteration) (n : Nat)

def Ending.event : Ending → Process.Event
  | .signal env => .signal env
  | .kill => .kill
  | .cut order n => .cut order n

/-- The events of a life; its `n`-th command finds the surroundings `env n`. -/
structure Life where
  events : List Ready
  env : Nat → Surroundings
  ending : Ending

/-- One life: what the loop does in it, the connections that its end cuts off, and
the process of the next life. -/
def live (hash : Bytes → Nat) (listenFd : Int) (life : Life) (w : World) :
    Exec ((List Turn × Connections) × World) := do
  let (turns, sys) ← Run.run (turn listenFd (handler hash life.env)) life.events (start (w, []))
  let (_, w) ← Process.step hash life.ending.event sys.handler.1
  pure ((turns, sys.connections), w)

/-! ## The durable store over a life -/

/-- What a buffer that is taken does to the store after so many commands. -/
def Taken (env : Nat → Surroundings) (a : DurableStore × Nat) (taken reply : Bytes)
    (a' : DurableStore × Nat) : Prop :=
  match commandOf taken with
  | some args => a.1.Step (.command args (env a.2)) (some reply) a'.1 ∧ a'.2 = a.2 + 1
  | none => reply = (if decided taken then encodeError (bytes "protocol error") else []) ∧ a' = a

/-- The store answers all buffers of the life in the order in which they are taken,
each client that is there at the end has been sent its share, and the ending
finds the store that the buffers leave. -/
def Lived (listenFd : Int) (d : DurableStore) (life : Life) (seen : List Turn × Connections)
    (d' : DurableStore) : Prop :=
  ∃ records d₁ n, records.map Record.ready = life.events ∧ records.map Record.turn = seen.1 ∧
    Run.Steps (Taken life.env) (d, 0) ((answers records).map Answer.taken)
      ((answers records).map Answer.reply) (d₁, n) ∧
    (∀ fd conn, seen.2.lookup fd = some conn → Accounts listenFd fd records conn) ∧
    d₁.Step life.ending.event none d'

/-- The command in a buffer, if it is one, meets the condition on an event of the
process. -/
def TakenIntact (hash : Bytes → Nat) (env : Nat → Surroundings)
    (state : World × List (List Bytes)) (taken : Bytes) : Prop :=
  ∀ args ∈ commandOf taken, Process.Intact hash state.1 (.command args (env state.2.length))

instance (env : Nat → Surroundings) (state : World × List (List Bytes)) (taken : Bytes) :
    Decidable (TakenIntact hash env state taken) :=
  inferInstanceAs (Decidable (∀ args ∈ commandOf taken, _))

/-- Every command of the life meets the condition, and so does its ending. -/
def LifeIntact (hash : Bytes → Nat) (listenFd : Int) (w : World) (life : Life) : Prop :=
  Run.Guarded (turn listenFd (handler hash life.env))
      (fun sys r => Fresh listenFd sys r ∧ Offers (TakenIntact hash life.env) sys r)
      (start (w, [])) life.events ∧
    Run.Ends (turn listenFd (handler hash life.env))
      (fun sys => Process.Intact hash sys.handler.1 life.ending.event) (start (w, [])) life.events

instance (w : World) (life : Life) : Decidable (LifeIntact hash listenFd w life) :=
  inferInstanceAs (Decidable (_ ∧ _))

/-! ## One buffer -/

theorem respond_durable (env : Nat → Surroundings) (state : World × List (List Bytes))
    (a : DurableStore × Nat) (taken : Bytes)
    (h : Process.Stands hash state.1 a.1 ∧ state.2.length = a.2)
    (hi : TakenIntact hash env state taken) :
    ∃ reply state' a', respond (handler hash env) taken state = .ok (reply, state') ∧
      Taken env a taken reply a' ∧ Process.Stands hash state'.1 a'.1 ∧ state'.2.length = a'.2 := by
  obtain ⟨w, done⟩ := state
  obtain ⟨d, n⟩ := a
  obtain ⟨hst, rfl⟩ := h
  cases hcmd : commandOf taken with
  | some args =>
    obtain ⟨resp, w', d', hrun, hstep, hst'⟩ :=
      Process.step_durable w d (.command args (env done.length)) hst (hi args hcmd)
    obtain ⟨⟨reply, w₁⟩, hexec, hans⟩ := Exec.bind_eq_ok.mp hrun
    cases hans
    refine ⟨reply, (w', done ++ [args]), (d', done.length + 1), ?_, ?_, hst', by simp⟩
    · simp only [respond_command hcmd, handler, hexec, Exec.ok_bind, Exec.pure_eq]
    · rw [Taken, hcmd]
      exact ⟨hstep, rfl⟩
  | none =>
    refine ⟨_, (w, done), (d, done.length), respond_other hcmd _, ?_, hst, rfl⟩
    rw [Taken, hcmd]
    exact ⟨rfl, rfl⟩

/-! ## One life -/

/-- The end of a life has no reply. -/
theorem step_ending {d d' : DurableStore} {ending : Ending} {resp : Option Bytes}
    (h : d.Step ending.event resp d') : d.Step ending.event none d' := by
  cases ending with
  | signal env =>
    cases h with
    | signal hsave => exact .signal hsave
  | kill =>
    cases h with
    | kill => exact .kill
  | cut order n =>
    cases h with
    | cutLate hw => exact .cutLate hw
    | cutEarly => exact .cutEarly

theorem live_durable (w : World) (d : DurableStore) (life : Life)
    (h : Process.Stands hash w d) (hi : LifeIntact hash listenFd w life) :
    ∃ seen w' d', live hash listenFd life w = .ok (seen, w') ∧ Lived listenFd d life seen d' ∧
      Process.Stands hash w' d' := by
  obtain ⟨hevents, hending⟩ := hi
  obtain ⟨records, sys, hready, hrun, hj⟩ :=
    run_journal (handler_total hash life.env) h.live.safe hevents
  obtain ⟨replies, state, a, hserial, hsteps, hst, _⟩ :=
    Run.refinement (respond_durable life.env) ((answers records).map Answer.taken) (w, []) (d, 0)
      ⟨h, rfl⟩ hj.guarded
  rw [hj.serial] at hserial
  cases hserial
  obtain ⟨resp, w', d', hend, hstep, hst'⟩ :=
    Process.step_durable sys.handler.1 a.1 life.ending.event hst (hending _ _ hrun)
  refine ⟨(records.map Record.turn, sys.connections), w', d', ?_, ?_, hst'⟩
  · simp only [live, hrun, hend, Exec.ok_bind, Exec.pure_eq]
  · exact ⟨records, a.1, a.2, hready, rfl, hsteps, hj.own, step_ending hstep⟩

/-- A value that is saved and one that is not, before the process is killed; a
client of the next life in the middle of a command when a signal comes; and a
life that ends inside a save. -/
def threeLives : List Life :=
  [⟨[⟨3, 5, true, .ofChunk []⟩, ⟨3, 6, true, .ofChunk []⟩,
      ⟨5, -1, true, .ofChunk (encodeArray [bytes "SET", [1], [7]])⟩,
      ⟨6, -1, true, .ofChunk (encodeArray [bytes "SAVE"])⟩,
      ⟨5, -1, true, .ofChunk (encodeArray [bytes "SET", [1], [8]])⟩],
    fun _ => ⟨.stored, true⟩, .kill⟩,
    ⟨[⟨3, 5, true, .ofChunk []⟩, ⟨5, -1, true, .ofChunk (encodeArray [bytes "GET", [1]])⟩,
      ⟨5, -1, true, .ofChunk (encodeArray [bytes "HSET", [2], [3], [4]])⟩,
      ⟨5, -1, true, .ofChunk (bytes "*3\r\n$3")⟩],
    fun _ => ⟨.stored, true⟩, .signal ⟨.stored, true⟩⟩,
    ⟨[], fun _ => ⟨.stored, true⟩, .cut .stored 20⟩]

end MiniRedis.Server
