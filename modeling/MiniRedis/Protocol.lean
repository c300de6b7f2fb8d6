import MiniRedis.Basic
import MiniRedis.Lib.Decimal

/-!
`RespParser`: the request parser and the reply encoders.  The parser works with
positions into the input; indexing outside it is undefined behaviour and
`substr` past its end throws.
-/

namespace MiniRedis

namespace RespParser

inductive ParseResult where
  | INCOMPLETE
  | COMPLETE
  | ERROR
  deriving DecidableEq, Repr

/-! ## Library functions -/

/-- `std::isspace` in the C locale. -/
def IsSpace (b : UInt8) : Prop := b = 32 ∨ 9 ≤ b ∧ b ≤ 13

instance (b : UInt8) : Decidable (IsSpace b) := inferInstanceAs (Decidable (_ ∨ _))

/-- A `long` clamped as `strtol` does, then converted to `int`. -/
def longToInt (v : Int) : Int :=
  let v := max (-2 ^ 63) (min v (2 ^ 63 - 1))
  (v + 2 ^ 31) % 2 ^ 32 - 2 ^ 31

/-- `std::atoi`, that is `(int) strtol(s, NULL, 10)`: white space, a sign, digits
up to the first other byte. -/
def atoi (s : Bytes) : Int :=
  match s.dropWhile (fun b => decide (IsSpace b)) with
  | 45 :: s => longToInt (-(Decimal.scan s 0 : Nat))
  | 43 :: s => longToInt (Decimal.scan s 0 : Nat)
  | s => longToInt (Decimal.scan s 0 : Nat)

/-- Position of the first `"\r\n"`. -/
def findCrlf : Bytes → Option Nat
  | 13 :: 10 :: _ => some 0
  | _ :: s => (findCrlf s).map (· + 1)
  | [] => none

/-- `input.find("\r\n", pos)`. -/
def find (input : Bytes) (pos : Nat) : Option Nat := (findCrlf (input.drop pos)).map (pos + ·)

/-- `input.substr(pos, len)`. -/
def substr (input : Bytes) (pos len : Nat) : Exec Bytes :=
  if pos > input.length then throw (.exception (bytes "basic_string::substr"))
  else pure ((input.drop pos).take len)

/-! ## Parsing -/

/-- Leading white space from `pos` on is skipped. -/
def skipWhitespace (s : Bytes) (pos : Nat) : Nat :=
  pos + ((s.drop pos).takeWhile fun b => decide (IsSpace b)).length

/-- The loop over the arguments; `count` of them are still to come. -/
def parseArgs (input : Bytes) : Nat → Nat → List Bytes → Exec (ParseResult × List Bytes)
  | 0, _, args => pure (.COMPLETE, args)
  | count + 1, pos, args =>
      if pos ≥ input.length then pure (.INCOMPLETE, args)
      else do
        if (← at? input pos) ≠ 36 then pure (.ERROR, args)
        else match find input pos with
          | none => pure (.INCOMPLETE, args)
          | some stop =>
              let len := atoi (input.drop (pos + 1))
              if len < -1 then pure (.ERROR, args)
              else
                let pos := stop + 2
                if len = -1 then parseArgs input count pos (args ++ [[]])
                else if pos + len.toNat > input.length then pure (.INCOMPLETE, args)
                else do
                  let arg ← substr input pos len.toNat
                  let args := args ++ [arg]
                  let pos := pos + len.toNat
                  if pos + 2 > input.length then pure (.INCOMPLETE, args)
                  else if (← at? input pos) ≠ 13 ∨ (← at? input (pos + 1)) ≠ 10 then
                    pure (.ERROR, args)
                  else parseArgs input count (pos + 2) args

/-- `RespParser::parse`: the verdict, and `args` as it is left. -/
def parse (input : Bytes) : Exec (ParseResult × List Bytes) := do
  let pos := skipWhitespace input 0
  if pos ≥ input.length then pure (.INCOMPLETE, [])
  else if (← at? input pos) ≠ 42 then pure (.ERROR, [])
  else match find input pos with
    | none => pure (.INCOMPLETE, [])
    | some stop =>
        let argc := atoi (input.drop (pos + 1))
        if argc < 0 then pure (.ERROR, [])
        else if argc = 0 then pure (.COMPLETE, [])
        else parseArgs input argc.toNat (stop + 2) []

/-! ## Encoding -/

def encodeSimpleString (s : Bytes) : Bytes := bytes "+" ++ s ++ crlf

def encodeBulkString (s : Bytes) : Bytes :=
  bytes "$" ++ Decimal.render s.length ++ crlf ++ s ++ crlf

def encodeError (msg : Bytes) : Bytes := bytes "-ERR " ++ msg ++ crlf

/-- `std::to_string(long long)`. -/
def toString (n : Int) : Bytes :=
  if n < 0 then bytes "-" ++ Decimal.render n.natAbs else Decimal.render n.toNat

def encodeInteger (n : Int) : Bytes := bytes ":" ++ toString n ++ crlf

def encodeNullBulkString : Bytes := bytes "$-1" ++ crlf

/-- The array form of a list of bulk strings. -/
def encodeArray (args : List Bytes) : Bytes :=
  bytes "*" ++ Decimal.render args.length ++ crlf ++ args.flatMap encodeBulkString

end RespParser

end MiniRedis
