import ByExample.Json.Text

/-!
The words of JSON, and how they are written: strings with as few escapes as possible.
-/

namespace ByExample.Json

inductive Token where
  | openBracket
  | closeBracket
  | openBrace
  | closeBrace
  | comma
  | colon
  | null
  | bool (value : Bool)
  /-- A number keeps its spelling. -/
  | number (lexeme : List Char)
  | string (pieces : List Piece)
  deriving DecidableEq

def ascii (text : List Char) : List UInt8 :=
  text.map fun c => c.val.toUInt8

def hexDigit (value : Nat) : UInt8 :=
  (if value < 10 then '0'.toNat + value else 'a'.toNat + (value - 10)).toUInt8

def hexDigits (unit : UInt16) : List UInt8 :=
  let n := unit.toNat
  [hexDigit (n / 4096 % 16), hexDigit (n / 256 % 16), hexDigit (n / 16 % 16), hexDigit (n % 16)]

def shortEscape? (byte : UInt8) : Option Char :=
  if byte = 0x22 then some '"'
  else if byte = 0x5C then some '\\'
  else if byte = 0x08 then some 'b'
  else if byte = 0x09 then some 't'
  else if byte = 0x0A then some 'n'
  else if byte = 0x0C then some 'f'
  else if byte = 0x0D then some 'r'
  else none

def Piece.write : Piece → List UInt8
  | .byte value =>
    match shortEscape? value with
    | some letter => ascii ['\\', letter]
    | none => if value < 0x20 then ascii ['\\', 'u'] ++ hexDigits value.toUInt16 else [value]
  | .unit value => ascii ['\\', 'u'] ++ hexDigits value

def Token.write : Token → List UInt8
  | .openBracket => ascii ['[']
  | .closeBracket => ascii [']']
  | .openBrace => [0x7B]
  | .closeBrace => [0x7D]
  | .comma => ascii [',']
  | .colon => ascii [':']
  | .null => ascii ['n', 'u', 'l', 'l']
  | .bool true => ascii ['t', 'r', 'u', 'e']
  | .bool false => ascii ['f', 'a', 'l', 's', 'e']
  | .number lexeme => ascii lexeme
  | .string pieces => ascii ['"'] ++ pieces.flatMap Piece.write ++ ascii ['"']

end ByExample.Json
