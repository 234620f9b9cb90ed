/-!
Whole numbers in decimal digits. Only the ASCII digits count, and a number has at least one.
-/

namespace ByExample.Decimal

def digit? (c : Char) : Option Nat :=
  if '0' ≤ c ∧ c ≤ '9' then some (c.toNat - '0'.toNat) else none

def extend? (leading : Nat) : List Char → Option Nat
  | [] => some leading
  | c :: rest =>
    match digit? c with
    | some digit => extend? (10 * leading + digit) rest
    | none => none

def natural? (text : List Char) : Option Nat :=
  if text = [] then none else extend? 0 text

def integer? : List Char → Option Int
  | '-' :: digits => (natural? digits).map fun n => -(n : Int)
  | '+' :: digits => (natural? digits).map fun n => (n : Int)
  | digits => (natural? digits).map fun n => (n : Int)

/-- The 64-bit word of this value, if there is one. -/
def word? (value : Int) : Option Int64 :=
  if Int64.minValue.toInt ≤ value ∧ value ≤ Int64.maxValue.toInt then some (.ofInt value) else none

def digits : Int → List Char
  | .ofNat n => Nat.toDigits 10 n
  | .negSucc n => '-' :: Nat.toDigits 10 (n + 1)

end ByExample.Decimal
