import MiniRedis.Command

/-!
What a command line asks for and what it is answered, apart from bytes.
`request` picks the arguments out of a command line, `perform` answers a request
with a `Reply`, and `execute_eq` says that `execute` is `perform` on the request
of its arguments, encoded.  Everything about commands is proved of `perform`, by
cases on the request.
-/

namespace MiniRedis

open RespParser

/-- A reply before it is encoded. -/
inductive Reply where
  | simple (text : Bytes)
  | error (msg : Bytes)
  | integer (n : Int)
  | null
  | bulk (value : Bytes)
  | array (values : List Bytes)
  deriving DecidableEq, Repr

namespace Reply

def encode : Reply → Bytes
  | .simple text => encodeSimpleString text
  | .error msg => encodeError msg
  | .integer n => encodeInteger n
  | .null => encodeNullBulkString
  | .bulk value => encodeBulkString value
  | .array values => encodeArray values

/-- A value, or null when there is none. -/
def ofOption : Option Bytes → Reply
  | some value => .bulk value
  | none => .null

def ok : Reply := .simple (bytes "OK")

end Reply

/-- A command line that asks for something, or the error it is refused with. -/
inductive Request where
  | ping
  | set (key value : Bytes)
  | get (key : Bytes)
  | hset (key field value : Bytes)
  | hget (key field : Bytes)
  | del (keys : List Bytes)
  | exist (keys : List Bytes)
  | keys (pattern : Bytes)
  | save
  | refused (msg : Bytes)
  deriving DecidableEq, Repr

namespace CommandHandler

def requestSet (args : List Bytes) : Request :=
  match args with
  | _ :: key :: value :: _ => .set key value
  | _ => .refused (bytes "wrong number of arguments for 'SET'")

def requestGet (args : List Bytes) : Request :=
  match args with
  | [_, key] => .get key
  | _ => .refused (bytes "wrong number of arguments for 'GET'")

def requestHSet (args : List Bytes) : Request :=
  match args with
  | _ :: key :: field :: value :: _ =>
      if (args.length - 2) % 2 ≠ 0 then .refused (bytes "wrong number of arguments for 'HSET'")
      else .hset key field value
  | _ => .refused (bytes "wrong number of arguments for 'HSET'")

def requestHGet (args : List Bytes) : Request :=
  match args with
  | [_, key, field] => .hget key field
  | _ => .refused (bytes "wrong number of arguments for 'HGET'")

def requestDel (args : List Bytes) : Request :=
  match args with
  | _ :: key :: keys => .del (key :: keys)
  | _ => .refused (bytes "wrong number of arguments for 'DEL'")

def requestExists (args : List Bytes) : Request :=
  match args with
  | _ :: key :: keys => .exist (key :: keys)
  | _ => .refused (bytes "wrong number of arguments for 'EXISTS'")

def requestKeys (args : List Bytes) : Request :=
  match args with
  | [_, pattern] => .keys pattern
  | _ => .refused (bytes "wrong number of arguments for 'KEYS'")

def requestSave (args : List Bytes) : Request :=
  match args with
  | [_] => .save
  | _ => .refused (bytes "SAVE command takes no arguments")

/-- The commands there are, in the order in which `execute` compares names. -/
def commands : List (Bytes × (List Bytes → Request)) :=
  [(bytes "PING", fun _ => .ping), (bytes "SET", requestSet), (bytes "GET", requestGet),
    (bytes "HSET", requestHSet), (bytes "HGET", requestHGet), (bytes "DEL", requestDel),
    (bytes "EXISTS", requestExists), (bytes "KEYS", requestKeys), (bytes "SAVE", requestSave)]

def request (args : List Bytes) : Request :=
  match args with
  | [] => .refused (bytes "empty command")
  | name :: _ =>
      match commands.lookup (toUpper name) with
      | some pick => pick args
      | none => .refused (bytes "unknown command `" ++ name ++ bytes "`")

/-! ## What a command asks for -/

/-- No byte of a line end. -/
def OneLine (text : Bytes) : Prop := (13 : UInt8) ∉ text ∧ (10 : UInt8) ∉ text

instance (text : Bytes) : Decidable (OneLine text) := inferInstanceAs (Decidable (_ ∧ _))

/-- The requests of a command with this name. -/
inductive Picks : Bytes → Request → Prop
  | refused (cmd : Bytes) {msg : Bytes} : OneLine msg → Picks cmd (.refused msg)
  | ping : Picks (bytes "PING") .ping
  | set (key value : Bytes) : Picks (bytes "SET") (.set key value)
  | get (key : Bytes) : Picks (bytes "GET") (.get key)
  | hset (key field value : Bytes) : Picks (bytes "HSET") (.hset key field value)
  | hget (key field : Bytes) : Picks (bytes "HGET") (.hget key field)
  | del (keys : List Bytes) : Picks (bytes "DEL") (.del keys)
  | exist (keys : List Bytes) : Picks (bytes "EXISTS") (.exist keys)
  | keys (pattern : Bytes) : Picks (bytes "KEYS") (.keys pattern)
  | save : Picks (bytes "SAVE") .save

theorem Picks.oneLine {cmd msg : Bytes} (h : Picks cmd (.refused msg)) : OneLine msg := by
  cases h with
  | refused _ hline => exact hline

theorem commands_pick {name : Bytes} {pick : List Bytes → Request} (h : (name, pick) ∈ commands)
    (args : List Bytes) : Picks name (pick args) := by
  simp only [commands, List.mem_cons, Prod.mk.injEq, List.not_mem_nil, or_false] at h
  rcases h with ⟨rfl, rfl⟩ | ⟨rfl, rfl⟩ | ⟨rfl, rfl⟩ | ⟨rfl, rfl⟩ | ⟨rfl, rfl⟩ | ⟨rfl, rfl⟩ |
    ⟨rfl, rfl⟩ | ⟨rfl, rfl⟩ | ⟨rfl, rfl⟩
  · exact .ping
  · unfold requestSet
    split
    · exact .set ..
    · exact .refused _ (by decide)
  · unfold requestGet
    split
    · exact .get _
    · exact .refused _ (by decide)
  · unfold requestHSet
    split
    · split
      · exact .refused _ (by decide)
      · exact .hset ..
    · exact .refused _ (by decide)
  · unfold requestHGet
    split
    · exact .hget ..
    · exact .refused _ (by decide)
  · unfold requestDel
    split
    · exact .del _
    · exact .refused _ (by decide)
  · unfold requestExists
    split
    · exact .exist _
    · exact .refused _ (by decide)
  · unfold requestKeys
    split
    · exact .keys _
    · exact .refused _ (by decide)
  · unfold requestSave
    split
    · exact .save
    · exact .refused _ (by decide)

/-- Answer a request. -/
def perform (hash : Bytes → Nat) (env : Surroundings) (r : Request) (w : World) :
    Exec (Reply × World) :=
  match r with
  | .ping => pure (.simple (bytes "PONG"), w)
  | .set key value => pure (.ok, { w with db := w.db.set key value })
  | .get key => pure (.ofOption (w.db.get key), w)
  | .hset key field value =>
      match w.db.hset hash key field value with
      | .ok db => pure (.integer 1, { w with db })
      | .error (.exception what) => pure (.error what, w)
      | .error .undefined => throw .undefined
  | .hget key field => do
      let value ← w.db.hget hash key field
      pure (.ofOption value, w)
  | .del keys =>
      let (deleted, db) := Database.del keys w.db
      pure (.integer deleted, { w with db })
  | .exist keys => pure (.integer (Database.exists keys w.db), w)
  | .keys pattern => pure (.array (w.db.getAllKeys env.order pattern), w)
  | .save => do
      let (saved, dump) ← RdbEncoder.saveToFile env.order env.canOpen w.db w.dump
      pure (if saved then .ok else .error (bytes "ERR Failed to save RDB"), { w with dump })
  | .refused msg => pure (.error msg, w)

/-- Encode the reply of an answer. -/
def encodeReply (x : Exec (Reply × World)) : Exec (Bytes × World) :=
  x >>= fun (reply, w) => pure (reply.encode, w)

/-! ## `execute` through requests -/

section Dispatch

variable (hash : Bytes → Nat) (env : Surroundings) (name : Bytes) (args : List Bytes) (w : World)

theorem encode_ofOption (value : Option Bytes) : (Reply.ofOption value).encode =
    match value with
    | some value => encodeBulkString value
    | none => encodeNullBulkString := by
  cases value <;> rfl

theorem handleSet_eq : encodeReply (perform hash env (requestSet (name :: args)) w) =
    .ok ((handleSet (name :: args) w.db).1,
      { w with db := (handleSet (name :: args) w.db).2 }) := by
  rcases args with _ | ⟨key, _ | ⟨value, args⟩⟩ <;> rfl

theorem handleGet_eq : encodeReply (perform hash env (requestGet (name :: args)) w) =
    .ok (handleGet (name :: args) w.db, w) := by
  rcases args with _ | ⟨key, _ | ⟨_, args⟩⟩
  · rfl
  · simp only [requestGet, perform, encodeReply, Exec.pure_eq, Exec.ok_bind, encode_ofOption]
    rfl
  · rfl

theorem handleHSet_eq : encodeReply (perform hash env (requestHSet (name :: args)) w) =
    handleHSet hash (name :: args) w.db >>= fun r => .ok (r.1, { w with db := r.2 }) := by
  rcases args with _ | ⟨key, _ | ⟨field, _ | ⟨value, args⟩⟩⟩
  · rfl
  · rfl
  · rfl
  · simp only [handleHSet, requestHSet]
    split
    · rfl
    · simp only [perform]
      cases w.db.hset hash key field value with
      | ok db => rfl
      | error f =>
        cases f with
        | undefined => rfl
        | exception what => rfl

theorem handleHGet_eq : encodeReply (perform hash env (requestHGet (name :: args)) w) =
    handleHGet hash (name :: args) w.db >>= fun resp => .ok (resp, w) := by
  rcases args with _ | ⟨key, _ | ⟨field, _ | ⟨_, args⟩⟩⟩
  · rfl
  · rfl
  · simp only [handleHGet, requestHGet, perform, encodeReply]
    cases w.db.hget hash key field with
    | error f => rfl
    | ok value => cases value <;> rfl
  · rfl

theorem handleDel_eq : encodeReply (perform hash env (requestDel (name :: args)) w) =
    .ok ((handleDel (name :: args) w.db).1,
      { w with db := (handleDel (name :: args) w.db).2 }) := by
  rcases args with _ | ⟨key, keys⟩ <;> rfl

theorem handleExists_eq : encodeReply (perform hash env (requestExists (name :: args)) w) =
    .ok (handleExists (name :: args) w.db, w) := by
  rcases args with _ | ⟨key, keys⟩ <;> rfl

theorem handleKeys_eq : encodeReply (perform hash env (requestKeys (name :: args)) w) =
    .ok (handleKeys env.order (name :: args) w.db, w) := by
  rcases args with _ | ⟨pattern, _ | ⟨_, args⟩⟩ <;> rfl

theorem handleSave_eq : encodeReply (perform hash env (requestSave (name :: args)) w) =
    handleSave env (name :: args) w >>= fun r => .ok (r.1, { w with dump := r.2 }) := by
  rcases args with _ | ⟨_, args⟩
  · simp only [handleSave, requestSave, perform, encodeReply]
    cases RdbEncoder.saveToFile env.order env.canOpen w.db w.dump with
    | error f => rfl
    | ok saved =>
      obtain ⟨saved, dump⟩ := saved
      cases saved <;> rfl
  · rfl

end Dispatch

theorem execute_eq (hash : Bytes → Nat) (env : Surroundings) (args : List Bytes) (w : World) :
    execute hash env args w = encodeReply (perform hash env (request args) w) := by
  cases args with
  | nil => rfl
  | cons name args =>
    simp only [execute, request, commands]
    generalize toUpper name = cmd
    by_cases hping : cmd = bytes "PING"
    · rw [if_pos hping, hping, List.lookup_cons_self]
      rfl
    rw [if_neg hping, AssocList.lookup_cons_ne hping]
    by_cases hset : cmd = bytes "SET"
    · rw [if_pos hset, hset, List.lookup_cons_self]
      exact (handleSet_eq hash env name args w).symm
    rw [if_neg hset, AssocList.lookup_cons_ne hset]
    by_cases hget : cmd = bytes "GET"
    · rw [if_pos hget, hget, List.lookup_cons_self]
      exact (handleGet_eq hash env name args w).symm
    rw [if_neg hget, AssocList.lookup_cons_ne hget]
    by_cases hhset : cmd = bytes "HSET"
    · rw [if_pos hhset, hhset, List.lookup_cons_self]
      exact (handleHSet_eq hash env name args w).symm
    rw [if_neg hhset, AssocList.lookup_cons_ne hhset]
    by_cases hhget : cmd = bytes "HGET"
    · rw [if_pos hhget, hhget, List.lookup_cons_self]
      exact (handleHGet_eq hash env name args w).symm
    rw [if_neg hhget, AssocList.lookup_cons_ne hhget]
    by_cases hdel : cmd = bytes "DEL"
    · rw [if_pos hdel, hdel, List.lookup_cons_self]
      exact (handleDel_eq hash env name args w).symm
    rw [if_neg hdel, AssocList.lookup_cons_ne hdel]
    by_cases hexists : cmd = bytes "EXISTS"
    · rw [if_pos hexists, hexists, List.lookup_cons_self]
      exact (handleExists_eq hash env name args w).symm
    rw [if_neg hexists, AssocList.lookup_cons_ne hexists]
    by_cases hkeys : cmd = bytes "KEYS"
    · rw [if_pos hkeys, hkeys, List.lookup_cons_self]
      exact (handleKeys_eq hash env name args w).symm
    rw [if_neg hkeys, AssocList.lookup_cons_ne hkeys]
    by_cases hsave : cmd = bytes "SAVE"
    · rw [if_pos hsave, hsave, List.lookup_cons_self]
      exact (handleSave_eq hash env name args w).symm
    rw [if_neg hsave, AssocList.lookup_cons_ne hsave]
    rfl

theorem execute_ok {hash : Bytes → Nat} {env : Surroundings} {args : List Bytes}
    {w w' : World} {resp : Bytes} (h : execute hash env args w = .ok (resp, w')) :
    ∃ reply, perform hash env (request args) w = .ok (reply, w') ∧ reply.encode = resp := by
  rw [execute_eq] at h
  obtain ⟨⟨reply, w₁⟩, hrun, h⟩ := Exec.bind_eq_ok.mp h
  cases h
  exact ⟨reply, hrun, rfl⟩

end CommandHandler

end MiniRedis
