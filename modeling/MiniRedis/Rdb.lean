import MiniRedis.Database
import MiniRedis.Lib.Decimal
import MiniRedis.Lib.Emit

/-!
`RdbEncoder` and `RdbDecoder`.  The output stream is a writer that keeps what it
wrote when an exception ends it, the input stream is the list of bytes still to
be read.  Stream writes succeed and the host is little-endian.
-/

namespace MiniRedis

def RDB_TYPE_STRING : UInt8 := 0
def RDB_TYPE_HASH : UInt8 := 2
def RDB_OPCODE_EOF : UInt8 := 0xFF
def RDB_OPCODE_DB : UInt8 := 0xFE

namespace RdbEncoder

abbrev Writer := Emit UInt8 Fault

def writeMagic : Writer := .put (bytes "REDIS") ++ .put (bytes "0009")

/-- The exception of `writeLen`. -/
def largeString : Fault := .exception (bytes "RDB: large string not supported in stage5B")

/-- `writeLen`: one byte below 2^6; below 2^14 a 16-bit word in host order, low
byte first, with bit 6 set. -/
def writeLen (len : Nat) : Writer :=
  if len < 1 <<< 6 then .put [UInt8.ofNat (len &&& 0x3F)]
  else if len < 1 <<< 14 then
    let b := (1 <<< 6) ||| (len &&& 0x3FFF)
    .put [UInt8.ofNat (b % 256), UInt8.ofNat (b / 256)]
  else .fail largeString

def writeString (s : Bytes) : Writer := writeLen s.length ++ .put s

def writeDatabaseHeader (dbNumber : Nat) : Writer := .put [RDB_OPCODE_DB] ++ writeLen dbNumber

def writeField (kv : HashEntry) : Writer := writeString kv.1 ++ writeString kv.2

/-- `writeKeyValuePair`.  The count written is `size()`, the pairs written are
those of `get_all_fields()`. -/
def writeKeyValuePair (entry : Bytes × RedisObject) : Writer :=
  match entry.2 with
  | .string value => .put [RDB_TYPE_STRING] ++ writeString entry.1 ++ writeString value
  | .hash hashObj =>
      .put [RDB_TYPE_HASH] ++ writeString entry.1 ++ Emit.call hashObj.size writeLen ++
        Emit.call hashObj.getAllFields (Emit.forEach writeField)

def writeEOF : Writer := .put [RDB_OPCODE_EOF]

def writeChecksum : Writer := .put (List.replicate 8 0)

/-- The body of `saveToFile`'s `try` block. -/
def writeAll (entries : List (Bytes × RedisObject)) : Writer :=
  writeMagic ++ writeDatabaseHeader 0 ++ Emit.forEach writeKeyValuePair entries ++ writeEOF ++
    writeChecksum

/-- `saveToFile`: the flag returned and the file as it is left.  Opening the
stream truncates the file; `canOpen` is whether that succeeds. -/
def saveToFile (order : Iteration) (canOpen : Bool) (data : Database) (file : Option Bytes) :
    Exec (Bool × Option Bytes) :=
  if canOpen = false then pure (false, file)
  else
    let out := writeAll (order.visit data)
    match out.fault with
    | none => pure (true, some out.written)
    | some (.exception _) => pure (false, some out.written)
    | some .undefined => throw .undefined

end RdbEncoder

namespace RdbDecoder

def unexpectedEOF : Fault := .exception (bytes "Unexpected EOF in RDB")

/-- `readExact`: the bytes read, and what is left of the stream. -/
def readExact (len : Nat) (s : Bytes) : Exec (Bytes × Bytes) :=
  if s.length < len then throw unexpectedEOF else pure (s.take len, s.drop len)

/-- `readExact` of a single byte. -/
def readByte : Bytes → Exec (UInt8 × Bytes)
  | [] => throw unexpectedEOF
  | byte :: s => pure (byte, s)

def readMagic (s : Bytes) : Exec (Bytes × Bytes) := do
  let (magic, s) ← readExact 9 s
  if magic.take 5 ≠ bytes "REDIS" then throw (.exception (bytes "Invalid RDB magic"))
  else
    let version := magic.drop 5
    if version ≠ bytes "0009" then
      throw (.exception (bytes "Unsupported RDB version: " ++ version))
    else pure (version, s)

/-- `readLen`: the six low bits of the first byte are the low byte of the
length, the second byte is its high byte. -/
def readLen (s : Bytes) : Exec (Nat × Bytes) := do
  let (byte, s) ← readByte s
  if byte &&& 0xC0 = 0 then pure ((byte &&& 0x3F).toNat, s)
  else if byte &&& 0xC0 = 0x40 then do
    let (second, s) ← readByte s
    pure ((byte &&& 0x3F).toNat + 256 * second.toNat, s)
  else throw (.exception (bytes "RDB large length not supported"))

def readString (s : Bytes) : Exec (Bytes × Bytes) := do
  let (len, s) ← readLen s
  if len > 0 then readExact len s else pure ([], s)

/-- The loop of `skipToDatabase`, bounded by the bytes there are.  An opcode
other than `RDB_OPCODE_DB` is put back. -/
def skipLoop : Nat → Bytes → Exec Bytes
  | 0, _ => throw unexpectedEOF
  | fuel + 1, s => do
      let (opcode, rest) ← readByte s
      if opcode = RDB_OPCODE_DB then do
        let (dbNum, rest) ← readLen rest
        if dbNum = 0 then pure rest else skipLoop fuel rest
      else pure s

def skipToDatabase (s : Bytes) : Exec Bytes := skipLoop (s.length + 1) s

/-- The field loop of `readKeyValues`. -/
def readFields (hash : Bytes → Nat) : Nat → HashObject → Bytes → Exec (HashObject × Bytes)
  | 0, hashObj, s => pure (hashObj, s)
  | count + 1, hashObj, s => do
      let (field, s) ← readString s
      let (value, s) ← readString s
      let hashObj ← hashObj.setField hash field value
      readFields hash count hashObj s

/-- `data.emplace`: a key that is there already keeps its object. -/
def emplace (key : Bytes) (obj : RedisObject) (data : Database) : Database :=
  if key ∈ data then data else data.insert key obj

/-- The loop of `readKeyValues`, bounded by the bytes there are.  The checksum
behind the end is skipped, whatever it is. -/
def keyValuesLoop (hash : Bytes → Nat) : Nat → Database → Bytes → Exec Database
  | 0, _, _ => throw unexpectedEOF
  | fuel + 1, data, s => do
      let (type, s) ← readByte s
      if type = RDB_OPCODE_EOF then pure data
      else do
        let (key, s) ← readString s
        if type = RDB_TYPE_STRING then do
          let (value, s) ← readString s
          keyValuesLoop hash fuel (emplace key (.string value) data) s
        else if type = RDB_TYPE_HASH then do
          let (fieldCount, s) ← readLen s
          let (hashObj, s) ← readFields hash fieldCount HashObject.new s
          keyValuesLoop hash fuel (emplace key (.hash hashObj) data) s
        else
          throw (.exception (bytes "Unsupported RDB type during load: " ++
            Decimal.render type.toNat))

def readKeyValues (hash : Bytes → Nat) (s : Bytes) : Exec Database :=
  keyValuesLoop hash (s.length + 1) ∅ s

def decodeAll (hash : Bytes → Nat) (s : Bytes) : Exec Database := do
  let (_, s) ← readMagic s
  let s ← skipToDatabase s
  readKeyValues hash s

/-- The constructor: the stream at its start. -/
def open? (file : Option Bytes) : Exec Bytes :=
  match file with
  | none => throw (.exception (bytes "Cannot open RDB file"))
  | some s => pure s

end RdbDecoder

/-- `RdbEncoder::loadFromFile`: every exception means an empty store. -/
def RdbEncoder.loadFromFile (hash : Bytes → Nat) (file : Option Bytes) : Exec Database :=
  match RdbDecoder.open? file >>= RdbDecoder.decodeAll hash with
  | .ok data => pure data
  | .error (.exception _) => pure ∅
  | .error .undefined => throw .undefined

end MiniRedis
