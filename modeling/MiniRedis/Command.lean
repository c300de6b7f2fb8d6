import MiniRedis.Protocol
import MiniRedis.Rdb

/-!
`CommandHandler::execute` and its handlers.  The state is the database and the
snapshot file; the surroundings of one command are the order in which the map is
iterated while it runs and whether the snapshot file can be opened.
-/

namespace MiniRedis

/-- The process state a command works on. -/
structure World where
  db : Database
  dump : Option Bytes

/-- A fresh process without a snapshot file. -/
def World.empty : World := ⟨∅, none⟩

structure Surroundings where
  order : Iteration
  canOpen : Bool

namespace CommandHandler

open RespParser

/-- `std::toupper` in the C locale. -/
def toUpperByte (c : UInt8) : UInt8 := if 97 ≤ c ∧ c ≤ 122 then c - 32 else c

def toUpper (s : Bytes) : Bytes := s.map toUpperByte

/-! ## Handlers -/

def handlePing (_args : List Bytes) : Bytes := encodeSimpleString (bytes "PONG")

def handleSet (args : List Bytes) (db : Database) : Bytes × Database :=
  match args with
  | _ :: key :: value :: _ => (encodeSimpleString (bytes "OK"), db.set key value)
  | _ => (encodeError (bytes "wrong number of arguments for 'SET'"), db)

def handleGet (args : List Bytes) (db : Database) : Bytes :=
  match args with
  | [_, key] =>
      match db.get key with
      | some value => encodeBulkString value
      | none => encodeNullBulkString
  | _ => encodeError (bytes "wrong number of arguments for 'GET'")

/-- `handleHSet`: only the first pair is used; an exception becomes a reply.  No
exception leaves `hset` after a change. -/
def handleHSet (hash : Bytes → Nat) (args : List Bytes) (db : Database) :
    Exec (Bytes × Database) :=
  match args with
  | _ :: key :: field :: value :: _ =>
      if (args.length - 2) % 2 ≠ 0 then
        pure (encodeError (bytes "wrong number of arguments for 'HSET'"), db)
      else
        match db.hset hash key field value with
        | .ok db => pure (encodeInteger 1, db)
        | .error (.exception what) => pure (encodeError what, db)
        | .error .undefined => throw .undefined
  | _ => pure (encodeError (bytes "wrong number of arguments for 'HSET'"), db)

def handleHGet (hash : Bytes → Nat) (args : List Bytes) (db : Database) : Exec Bytes :=
  match args with
  | [_, key, field] => do
      match ← db.hget hash key field with
      | some value => pure (encodeBulkString value)
      | none => pure encodeNullBulkString
  | _ => pure (encodeError (bytes "wrong number of arguments for 'HGET'"))

def handleDel (args : List Bytes) (db : Database) : Bytes × Database :=
  match args with
  | _ :: key :: keys =>
      let (deleted, db) := Database.del (key :: keys) db
      (encodeInteger deleted, db)
  | _ => (encodeError (bytes "wrong number of arguments for 'DEL'"), db)

def handleExists (args : List Bytes) (db : Database) : Bytes :=
  match args with
  | _ :: key :: keys => encodeInteger (Database.exists (key :: keys) db)
  | _ => encodeError (bytes "wrong number of arguments for 'EXISTS'")

def handleKeys (order : Iteration) (args : List Bytes) (db : Database) : Bytes :=
  match args with
  | [_, pattern] =>
      let keyList := db.getAllKeys order pattern
      bytes "*" ++ Decimal.render keyList.length ++ crlf ++ keyList.flatMap encodeBulkString
  | _ => encodeError (bytes "wrong number of arguments for 'KEYS'")

def handleSave (env : Surroundings) (args : List Bytes) (w : World) :
    Exec (Bytes × Option Bytes) :=
  match args with
  | [_] => do
      let (saved, dump) ← RdbEncoder.saveToFile env.order env.canOpen w.db w.dump
      if saved then pure (encodeSimpleString (bytes "OK"), dump)
      else pure (encodeError (bytes "ERR Failed to save RDB"), dump)
  | _ => pure (encodeError (bytes "SAVE command takes no arguments"), w.dump)

/-! ## Dispatch -/

def execute (hash : Bytes → Nat) (env : Surroundings) (args : List Bytes) (w : World) :
    Exec (Bytes × World) :=
  match args with
  | [] => pure (encodeError (bytes "empty command"), w)
  | name :: _ =>
      let cmd := toUpper name
      if cmd = bytes "PING" then pure (handlePing args, w)
      else if cmd = bytes "SET" then
        let (resp, db) := handleSet args w.db
        pure (resp, { w with db })
      else if cmd = bytes "GET" then pure (handleGet args w.db, w)
      else if cmd = bytes "HSET" then do
        let (resp, db) ← handleHSet hash args w.db
        pure (resp, { w with db })
      else if cmd = bytes "HGET" then do
        let resp ← handleHGet hash args w.db
        pure (resp, w)
      else if cmd = bytes "DEL" then
        let (resp, db) := handleDel args w.db
        pure (resp, { w with db })
      else if cmd = bytes "EXISTS" then pure (handleExists args w.db, w)
      else if cmd = bytes "KEYS" then pure (handleKeys env.order args w.db, w)
      else if cmd = bytes "SAVE" then do
        let (resp, dump) ← handleSave env args w
        pure (resp, { w with dump })
      else pure (encodeError (bytes "unknown command `" ++ name ++ bytes "`"), w)

end CommandHandler

end MiniRedis
