import MiniRedis.Lib.Run
import MiniRedis.Protocol

/-!
`Connection` and the client branch of `Server::run`.  What the socket does is the
input of a step: the chunks its `read` calls return and how they end, and what
`write` accepts.  The command handler is a parameter, so that the loop can be
looked at apart from the commands.
-/

namespace MiniRedis

/-- How the loop of `read` calls ends. -/
inductive ReadEnd where
  | eof
  | wouldBlock
  | failed
  deriving DecidableEq, Repr

/-- What one `write` call does. -/
inductive WriteResult where
  | accepted (n : Nat)
  | wouldBlock
  | failed
  deriving DecidableEq, Repr

/-- One readiness event of a client: the buffers that `read` fills until it ends,
and the result of `write` should it be called. -/
structure Event where
  chunks : List Bytes
  readEnd : ReadEnd
  write : WriteResult
  deriving DecidableEq, Repr

structure Connection where
  sockfd : Int
  readBuffer : Bytes
  writeBuffer : Bytes
  closed : Bool
  deriving DecidableEq, Repr

namespace Connection

def new (sockfd : Int) : Connection := ⟨sockfd, [], [], false⟩

/-- `readFromSocket`: whether the connection is alive, and the connection. -/
def readFromSocket (e : Event) (conn : Connection) : Bool × Connection :=
  let conn := { conn with readBuffer := conn.readBuffer ++ e.chunks.flatten }
  match e.readEnd with
  | .eof => (false, { conn with closed := true })
  | .wouldBlock => (true, conn)
  | .failed => (false, { conn with closed := true })

def sendResponse (resp : Bytes) (conn : Connection) : Connection :=
  { conn with writeBuffer := conn.writeBuffer ++ resp }

/-- `writeToSocket`: whether the connection is alive, the bytes put on the wire,
and the connection. -/
def writeToSocket (e : Event) (conn : Connection) : Bool × Bytes × Connection :=
  if conn.writeBuffer = [] then (true, [], conn)
  else
    match e.write with
    | .accepted n =>
        (true, conn.writeBuffer.take n, { conn with writeBuffer := conn.writeBuffer.drop n })
    | .wouldBlock => (true, [], conn)
    | .failed => (false, [], { conn with closed := true })

def consumeInput (n : Nat) (conn : Connection) : Connection :=
  if n ≥ conn.readBuffer.length then { conn with readBuffer := [] }
  else { conn with readBuffer := conn.readBuffer.drop n }

end Connection

namespace Server

open RespParser

variable {σ : Type}

/-- Steps 2 and 3 of the client branch: at most one command is taken from the
buffer, and the buffer is emptied after it. -/
def handleInput (execute : List Bytes → σ → Exec (Bytes × σ)) (conn : Connection) (s : σ) :
    Exec (Connection × σ) := do
  let (result, args) ← parse conn.readBuffer
  match result with
  | .COMPLETE => do
      let (response, s) ← execute args s
      let conn := conn.sendResponse response
      pure (conn.consumeInput conn.readBuffer.length, s)
  | .ERROR =>
      let conn := conn.sendResponse (encodeError (bytes "protocol error"))
      pure (conn.consumeInput conn.readBuffer.length, s)
  | .INCOMPLETE => pure (conn, s)

/-- The client branch for one event.  The connection is gone once it has been
erased; the output is what went onto the wire. -/
def clientEvent (execute : List Bytes → σ → Exec (Bytes × σ)) (e : Event)
    (state : Option Connection × σ) : Exec (Bytes × (Option Connection × σ)) :=
  match state with
  | (none, s) => pure ([], (none, s))
  | (some conn, s) =>
      match conn.readFromSocket e with
      | (false, _) => pure ([], (none, s))
      | (true, conn) => do
          let (conn, s) ← handleInput execute conn s
          match conn.writeToSocket e with
          | (false, sent, _) => pure (sent, (none, s))
          | (true, sent, conn) => pure (sent, (some conn, s))

end Server

end MiniRedis
