import MiniRedis.Command
import MiniRedis.Lib.Run

/-!
The process around the commands, as `main.cpp` sets it up.  The database is read
from the snapshot file when the process starts; a signal has it written there
and ends the process.  A signal is taken between two commands, and a process
that has ended is started again.
-/

namespace MiniRedis

namespace Database

/-- The constructors of `Database`; the default one loads. -/
def construct (hash : Bytes → Nat) (disableRdbLoad : Bool) (dump : Option Bytes) : Exec Database :=
  if disableRdbLoad = false then RdbEncoder.loadFromFile hash dump else pure ∅

def saveRdb (env : Surroundings) (db : Database) (dump : Option Bytes) :
    Exec (Bool × Option Bytes) :=
  RdbEncoder.saveToFile env.order env.canOpen db dump

end Database

namespace Process

/-- `g_db` of a process that finds this file. -/
def start (hash : Bytes → Nat) (dump : Option Bytes) : Exec World := do
  let db ← Database.construct hash false dump
  pure ⟨db, dump⟩

/-- `signal_handler`: the file the process leaves.  Whether it was saved is not
looked at. -/
def signalHandler (env : Surroundings) (w : World) : Exec (Option Bytes) := do
  let (_, dump) ← w.db.saveRdb env w.dump
  pure dump

/-- What can happen to the process. -/
inductive Event where
  | command (args : List Bytes) (env : Surroundings)
  | signal (env : Surroundings)
  /-- It ends without its handler. -/
  | kill
  /-- It ends inside `saveToFile`, when `n` bytes have come to the file. -/
  | cut (order : Iteration) (n : Nat)

/-- The reply to a command, and the process afterwards or started again. -/
def step (hash : Bytes → Nat) : Event → World → Exec (Option Bytes × World)
  | .command args env, w => do
      let (resp, w) ← CommandHandler.execute hash env args w
      pure (some resp, w)
  | .signal env, w => do
      let dump ← signalHandler env w
      let w ← start hash dump
      pure (none, w)
  | .kill, w => do
      let w ← start hash w.dump
      pure (none, w)
  | .cut order n, w => do
      let w ← start hash (some ((RdbEncoder.writeAll (order.visit w.db)).written.take n))
      pure (none, w)

end Process

end MiniRedis
