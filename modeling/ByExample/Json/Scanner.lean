import ByExample.Json.Token

/-!
Reading bytes as JSON tokens (RFC 8259), one byte at a time. Between tokens there may be spaces,
tabs and line ends; numbers and words end where a byte comes that cannot belong to them.
-/

namespace ByExample.Json

def isDigit (c : Char) : Bool :=
  '0' ≤ c ∧ c ≤ '9'

def allDigits (text : List Char) : Bool :=
  text ≠ [] ∧ text.all isDigit

def isExponent : List Char → Bool
  | [] => true
  | 'e' :: '+' :: digits | 'e' :: '-' :: digits | 'e' :: digits => allDigits digits
  | 'E' :: '+' :: digits | 'E' :: '-' :: digits | 'E' :: digits => allDigits digits
  | _ => false

def isFraction : List Char → Bool
  | '.' :: rest => rest.takeWhile isDigit ≠ [] && isExponent (rest.dropWhile isDigit)
  | rest => isExponent rest

/-- A number without its sign; only zero itself begins with a zero. -/
def isUnsigned : List Char → Bool
  | '0' :: rest => isFraction rest
  | rest => rest.takeWhile isDigit ≠ [] && isFraction (rest.dropWhile isDigit)

def isNumber : List Char → Bool
  | '-' :: rest => isUnsigned rest
  | rest => isUnsigned rest

def Token.ofLexeme? (lexeme : List Char) : Option Token :=
  if lexeme = ['n', 'u', 'l', 'l'] then some .null
  else if lexeme = ['t', 'r', 'u', 'e'] then some (.bool true)
  else if lexeme = ['f', 'a', 'l', 's', 'e'] then some (.bool false)
  else if isNumber lexeme then some (.number lexeme)
  else none

def isBlank (byte : UInt8) : Bool :=
  byte = 0x20 ∨ byte = 0x09 ∨ byte = 0x0A ∨ byte = 0x0D

def lexemeChar? (byte : UInt8) : Option Char :=
  let c := Char.ofNat byte.toNat
  if isDigit c ∨ ('a' ≤ c ∧ c ≤ 'z') ∨ c = 'E' ∨ c = '+' ∨ c = '-' ∨ c = '.' then some c else none

def punctuation? (byte : UInt8) : Option Token :=
  if byte = 0x5B then some .openBracket
  else if byte = 0x5D then some .closeBracket
  else if byte = 0x7B then some .openBrace
  else if byte = 0x7D then some .closeBrace
  else if byte = 0x2C then some .comma
  else if byte = 0x3A then some .colon
  else none

def escaped? (letter : UInt8) : Option UInt8 :=
  if letter = 0x22 ∨ letter = 0x5C ∨ letter = 0x2F then some letter
  else if letter = 0x62 then some 0x08
  else if letter = 0x66 then some 0x0C
  else if letter = 0x6E then some 0x0A
  else if letter = 0x72 then some 0x0D
  else if letter = 0x74 then some 0x09
  else none

def hexValue? (byte : UInt8) : Option UInt16 :=
  if 0x30 ≤ byte ∧ byte ≤ 0x39 then some (byte - 0x30).toUInt16
  else if 0x61 ≤ byte ∧ byte ≤ 0x66 then some (byte - 0x61 + 10).toUInt16
  else if 0x41 ≤ byte ∧ byte ≤ 0x46 then some (byte - 0x41 + 10).toUInt16
  else none

/-- Where the scanner stands. What has been read of a token is held newest first. -/
inductive Mode where
  | between
  | lexeme (read : List Char)
  | string (read : List Piece)
  | escape (read : List Piece)
  /-- In a unit written by number, of which `missing` more digits follow after the next one. -/
  | unit (read : List Piece) (value : UInt16) (missing : Nat)

structure Scanner where
  tokens : List Token
  mode : Mode

namespace Scanner

def start : Scanner :=
  ⟨[], .between⟩

def begin (tokens : List Token) (byte : UInt8) : Option Scanner :=
  if isBlank byte then some ⟨tokens, .between⟩
  else if byte = 0x22 then some ⟨tokens, .string []⟩
  else
    match punctuation? byte, lexemeChar? byte with
    | some token, _ => some ⟨token :: tokens, .between⟩
    | none, some c => some ⟨tokens, .lexeme [c]⟩
    | none, none => none

def feed (scanner : Scanner) (byte : UInt8) : Option Scanner :=
  match scanner.mode with
  | .between => begin scanner.tokens byte
  | .lexeme read =>
    match lexemeChar? byte with
    | some c => some ⟨scanner.tokens, .lexeme (c :: read)⟩
    -- The byte ends the lexeme and is the first one after it.
    | none => (Token.ofLexeme? read.reverse).bind fun token => begin (token :: scanner.tokens) byte
  | .string read =>
    if byte = 0x22 then some ⟨.string read.reverse :: scanner.tokens, .between⟩
    else if byte = 0x5C then some ⟨scanner.tokens, .escape read⟩
    else if byte < 0x20 then none
    else some ⟨scanner.tokens, .string (.byte byte :: read)⟩
  | .escape read =>
    if byte = 0x75 then some ⟨scanner.tokens, .unit read 0 3⟩
    else (escaped? byte).map fun byte => ⟨scanner.tokens, .string (.byte byte :: read)⟩
  | .unit read value missing =>
    match hexValue? byte, missing with
    | none, _ => none
    -- A unit below 0x80 is one byte, however it is written.
    | some digit, 0 => some ⟨scanner.tokens, .string (.ofUnit (16 * value + digit) :: read)⟩
    | some digit, missing + 1 => some ⟨scanner.tokens, .unit read (16 * value + digit) missing⟩

def finish (scanner : Scanner) : Option (List Token) :=
  match scanner.mode with
  | .between => some scanner.tokens.reverse
  | .lexeme read =>
    (Token.ofLexeme? read.reverse).map fun token => (token :: scanner.tokens).reverse
  | _ => none

end Scanner

def tokens? (bytes : List UInt8) : Option (List Token) :=
  (bytes.foldlM Scanner.feed .start).bind Scanner.finish

end ByExample.Json
