import Mathlib.Data.List.AList
import MiniRedis.Lib.Ledger
import MiniRedis.Server

/-!
The event loop over all clients: the map of connections, the descriptors that are
open and what each is registered for.  The events are handled one by one, so a
run is the entries of the `events` arrays one after the other, whatever the
batches they came in.
-/

namespace MiniRedis

def EPOLLIN : Nat := 0x001
def EPOLLOUT : Nat := 0x004

/-- A system call on a client descriptor that changes what the kernel keeps of it. -/
inductive Call where
  | accept (fd : Int)
  | epollAdd (fd : Int) (events : Nat) (ok : Bool)
  | epollDel (fd : Int)
  | close (fd : Int)
  deriving DecidableEq, Repr

/-- The client descriptors that are open, and the events each is registered for. -/
structure Kernel where
  opened : Finset Int
  interest : AList fun _ : Int => Nat
  deriving DecidableEq

namespace Kernel

/-- A descriptor that is closed is no longer registered. -/
def after (k : Kernel) : Call → Kernel
  | .accept fd => { k with opened := insert fd k.opened }
  | .epollAdd fd events true => { k with interest := k.interest.insert fd events }
  | .epollAdd _ _ false => k
  | .epollDel fd => { k with interest := k.interest.erase fd }
  | .close fd => ⟨k.opened.erase fd, k.interest.erase fd⟩

end Kernel

/-- `connections_`, a `std::unordered_map<int, std::unique_ptr<Connection>>`. -/
abbrev Connections := AList fun _ : Int => Connection

/-- One entry of `events`, and what the calls made for it will find: the result
of `accept`, whether the new descriptor can be registered, and the socket. -/
structure Ready where
  fd : Int
  accepted : Int
  registered : Bool
  socket : Event
  deriving DecidableEq, Repr

/-- What the loop does for one event: its calls, and the bytes put on the wire. -/
structure Turn where
  calls : List Call
  sent : Bytes
  deriving DecidableEq, Repr

structure System (σ : Type) where
  connections : Connections
  handler : σ
  kernel : Kernel

namespace Server

variable {σ : Type}

/-- No clients yet. -/
def start (s : σ) : System σ := ⟨∅, s, ⟨∅, ∅⟩⟩

/-- `~Connection`. -/
def destroy (conn : Connection) : List Call :=
  if conn.sockfd ≠ -1 then [.close conn.sockfd] else []

/-- `connections_[fd] = std::move(conn)`: what was there is destroyed. -/
def store (fd : Int) (conn : Connection) (connections : Connections) : List Call × Connections :=
  match connections.lookup fd with
  | none => ([], connections.insert fd conn)
  | some old => (destroy old, connections.insert fd conn)

/-- `connections_.erase(fd)`. -/
def erase (fd : Int) (connections : Connections) : List Call × Connections :=
  match connections.lookup fd with
  | none => ([], connections)
  | some conn => (destroy conn, connections.erase fd)

/-- `accept_client`.  `set_nonblocking` is taken to succeed on a new descriptor;
where it fails the process exits. -/
def acceptClient (r : Ready) (connections : Connections) : List Call × Connections :=
  let clientFd := r.accepted
  if clientFd = -1 then ([], connections)
  else
    let (stored, connections) := store clientFd (.new clientFd) connections
    let calls := .accept clientFd :: stored ++ [.epollAdd clientFd EPOLLIN r.registered]
    if r.registered then (calls, connections)
    else
      let (erased, connections) := erase clientFd connections
      (calls ++ erased ++ [.close clientFd], connections)

/-- The branch of `run` for a client. -/
def clientReady (execute : List Bytes → σ → Exec (Bytes × σ)) (r : Ready)
    (connections : Connections) (s : σ) : Exec (Turn × Connections × σ) :=
  match connections.lookup r.fd with
  | none => pure (⟨[], []⟩, connections, s)
  | some conn => do
      let (sent, (left, s)) ← clientEvent execute r.socket (some conn, s)
      match left with
      | some conn => pure (⟨[], sent⟩, connections.insert r.fd conn, s)
      | none =>
          let (erased, connections) := erase r.fd connections
          pure (⟨.epollDel r.fd :: erased, sent⟩, connections, s)

/-- The body of the inner loop of `run`. -/
def dispatch (listenFd : Int) (execute : List Bytes → σ → Exec (Bytes × σ)) (r : Ready)
    (connections : Connections) (s : σ) : Exec (Turn × Connections × σ) :=
  if r.fd = listenFd then
    let (calls, connections) := acceptClient r connections
    pure (⟨calls, []⟩, connections, s)
  else clientReady execute r connections s

/-- One event, and the kernel behind it. -/
def turn (listenFd : Int) (execute : List Bytes → σ → Exec (Bytes × σ)) (r : Ready)
    (sys : System σ) : Exec (Turn × System σ) := do
  let (t, connections, s) ← dispatch listenFd execute r sys.connections sys.handler
  pure (t, ⟨connections, s, t.calls.foldl Kernel.after sys.kernel⟩)

/-- `accept` fails with -1 or returns a descriptor that is not open; a closed one
may be used again. -/
def Fresh (listenFd : Int) (sys : System σ) (r : Ready) : Prop :=
  r.fd = listenFd →
    r.accepted = -1 ∨ 0 ≤ r.accepted ∧ r.accepted ≠ listenFd ∧ r.accepted ∉ sys.kernel.opened

instance (listenFd : Int) (sys : System σ) (r : Ready) : Decidable (Fresh listenFd sys r) :=
  inferInstanceAs (Decidable (_ → _))

end Server

end MiniRedis
