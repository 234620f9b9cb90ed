import ByExample.Json.Token

/-!
JSON values (RFC 8259), their tokens and their compact written form. The members of an object keep
their order, and a name may occur more than once.
-/

namespace ByExample.Json

inductive Value where
  | null
  | bool (value : Bool)
  | number (lexeme : List Char)
  | string (pieces : List Piece)
  | array (items : List Value)
  | object (members : List (List Piece × Value))

namespace Value

mutual

def tokens : Value → List Token
  | .null => [.null]
  | .bool value => [.bool value]
  | .number lexeme => [.number lexeme]
  | .string pieces => [.string pieces]
  | .array [] => [.openBracket, .closeBracket]
  | .array (item :: rest) => .openBracket :: (item.tokens ++ itemTokens rest)
  | .object [] => [.openBrace, .closeBrace]
  | .object ((name, value) :: rest) =>
    .openBrace :: .string name :: .colon :: (value.tokens ++ memberTokens rest)

def itemTokens : List Value → List Token
  | [] => [.closeBracket]
  | item :: rest => .comma :: (item.tokens ++ itemTokens rest)

def memberTokens : List (List Piece × Value) → List Token
  | [] => [.closeBrace]
  | (name, value) :: rest =>
    .comma :: .string name :: .colon :: (value.tokens ++ memberTokens rest)

end

/-- The tokens without blanks between them. -/
def write (value : Value) : List UInt8 :=
  value.tokens.flatMap Token.write

end Value

end ByExample.Json
