import ByExample.Decimal
import ByExample.Json.Value

/-!
What JSON values mean where a text, an integer, a list or a record is wanted. Integers have 64 bits
and neither a fraction nor an exponent. Records follow the conventions of derived decoders: the
fields are members of an object, of which other names are ignored and no name of a field may occur
twice, or they are the first so many items of an array.
-/

namespace ByExample.Json.Value

variable {α : Type}

def text? : Value → Option String
  | .string pieces => Json.text? pieces
  | _ => none

def ofText (text : String) : Value :=
  .string (piecesOf text)

/-- Integers have neither fraction nor exponent, and zero has no sign. -/
def word? : Value → Option Int64
  | .number lexeme =>
    if lexeme = ['-', '0'] then none else (Decimal.integer? lexeme).bind Decimal.word?
  | _ => none

def ofWord (word : Int64) : Value :=
  .number (Decimal.digits word.toInt)

def list? (read : Value → Option α) : Value → Option (List α)
  | .array items => items.mapM read
  | _ => none

def members? : Value → Option (List (String × Value))
  | .object members => members.mapM fun (name, value) => (Json.text? name).map fun name => (name, value)
  | _ => none

def uniqueMember? (members : List (String × Value)) (name : String) : Option (Option Value) :=
  match members.filter (·.1 = name) with
  | [] => some none
  | [(_, value)] => some (some value)
  | _ => none

/-- The fields of a record, which is an object with these names and perhaps others, or an array of
the first so many fields in order. -/
def fields? (names : List String) : Value → Option (List (Option Value))
  | .array items =>
    if items.length ≤ names.length then
      some (items.map some ++ List.replicate (names.length - items.length) none)
    else none
  | value => value.members?.bind fun members => names.mapM (uniqueMember? members)

def ofMembers (members : List (String × Value)) : Value :=
  .object (members.map fun (name, value) => (piecesOf name, value))

end ByExample.Json.Value
