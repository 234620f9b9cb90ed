/-!
The contents of JSON strings. A string is well formed before it is known to have a text: its bytes
may not be UTF-8, and its escapes may name halves of surrogate pairs. `text?` gives the text of those
that have one.
-/

namespace ByExample.Json

inductive Piece where
  /-- A byte that is written as itself or as a short escape. -/
  | byte (value : UInt8)
  /-- A UTF-16 unit of at least 0x80 that is written by number. -/
  | unit (value : UInt16)
  deriving DecidableEq

def Piece.ofUnit (unit : UInt16) : Piece :=
  if unit < 0x80 then .byte unit.toUInt8 else .unit unit

def isHighSurrogate (unit : UInt16) : Bool :=
  0xD800 ≤ unit ∧ unit < 0xDC00

def isLowSurrogate (unit : UInt16) : Bool :=
  0xDC00 ≤ unit ∧ unit < 0xE000

def pairedChar (high low : UInt16) : Char :=
  .ofNat (0x10000 + (high.toNat - 0xD800) * 0x400 + (low.toNat - 0xDC00))

/-- The bytes of the pieces after `before`, which is reversed. Surrogates come in pairs, the high one
first. -/
def bytesFrom? (before : List UInt8) : List Piece → Option (List UInt8)
  | [] => some before.reverse
  | .byte byte :: rest => bytesFrom? (byte :: before) rest
  | .unit unit :: rest =>
    if isHighSurrogate unit then
      -- Only the very next unit can be the other half.
      match rest with
      | .unit low :: rest =>
        if isLowSurrogate low then
          bytesFrom? ((String.utf8EncodeChar (pairedChar unit low)).reverseAux before) rest
        else none
      | _ => none
    else if isLowSurrogate unit then none
    else bytesFrom? ((String.utf8EncodeChar (.ofNat unit.toNat)).reverseAux before) rest

def text? (pieces : List Piece) : Option String :=
  (bytesFrom? [] pieces).bind fun bytes => String.fromUTF8? ⟨bytes.toArray⟩

def piecesOf (text : String) : List Piece :=
  text.toUTF8.toList.map Piece.byte

end ByExample.Json
