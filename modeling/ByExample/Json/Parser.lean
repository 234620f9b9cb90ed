import ByExample.Json.Scanner
import ByExample.Json.Value

/-!
Reading tokens as a JSON value (RFC 8259), one token at a time. The arrays and objects that are
still open are held on a stack, so that values may be nested to any depth.
-/

namespace ByExample.Json

/-- An array or object that is still open, without the value that is being read. What it holds so
far is kept newest first. -/
inductive Frame where
  | array (items : List Value)
  | object (members : List (List Piece × Value)) (name : List Piece)

/-- What the parser waits for, within the frames of the stack. -/
inductive Parser where
  | value (stack : List Frame)
  | firstItem (stack : List Frame)
  | firstMember (stack : List Frame)
  | member (members : List (List Piece × Value)) (stack : List Frame)
  | colon (members : List (List Piece × Value)) (name : List Piece) (stack : List Frame)
  | after (value : Value) (stack : List Frame)

namespace Parser

def begin (stack : List Frame) : Token → Option Parser
  | .null => some (.after .null stack)
  | .bool truth => some (.after (.bool truth) stack)
  | .number lexeme => some (.after (.number lexeme) stack)
  | .string pieces => some (.after (.string pieces) stack)
  | .openBracket => some (.firstItem stack)
  | .openBrace => some (.firstMember stack)
  | .closeBracket | .closeBrace | .comma | .colon => none

def feed : Parser → Token → Option Parser
  | .value stack, token => begin stack token
  | .firstItem stack, .closeBracket => some (.after (.array []) stack)
  | .firstItem stack, token => begin (.array [] :: stack) token
  | .firstMember stack, .closeBrace => some (.after (.object []) stack)
  | .firstMember stack, .string name => some (.colon [] name stack)
  | .member members stack, .string name => some (.colon members name stack)
  | .colon members name stack, .colon => some (.value (.object members name :: stack))
  | .after done (.array items :: stack), .comma => some (.value (.array (done :: items) :: stack))
  | .after done (.array items :: stack), .closeBracket =>
    some (.after (.array (done :: items).reverse) stack)
  | .after done (.object members name :: stack), .comma =>
    some (.member ((name, done) :: members) stack)
  | .after done (.object members name :: stack), .closeBrace =>
    some (.after (.object ((name, done) :: members).reverse) stack)
  | _, _ => none

end Parser

def Value.ofTokens? (tokens : List Token) : Option Value :=
  match tokens.foldlM Parser.feed (.value []) with
  | some (.after value []) => some value
  | _ => none

def Value.read? (bytes : List UInt8) : Option Value :=
  (tokens? bytes).bind ofTokens?

end ByExample.Json
