/-! What a TOML document holds. -/
namespace TerminalShell.Toml

/-- The magnitude of a written number: `digits` times ten to the power `exponent`. -/
structure Decimal where
  digits : Nat
  exponent : Int
  deriving DecidableEq, Repr

namespace Decimal

/-- The least magnitude that no double-precision number is nearest to. -/
def doubleLimit : Nat := 1 <<< 1024 - 1 <<< 970

/-- Whether a magnitude is too large for a double-precision number. The count of digits settles
all but the close cases without computing large powers. -/
def overflows (d : Decimal) : Bool :=
  let places := (Nat.toDigits 10 d.digits).length
  if d.digits = 0 then false
  else if d.exponent + places > 320 then true
  else if d.exponent + places < 300 then false
  else if d.exponent < 0 then decide (doubleLimit * Nat.pow 10 d.exponent.natAbs ≤ d.digits)
  else decide (doubleLimit ≤ d.digits * Nat.pow 10 d.exponent.natAbs)

end Decimal

inductive Value where
  | string (text : String)
  | integer (n : Int)
  /-- A number by its magnitude; infinities and what is no number have none. -/
  | float (magnitude : Option Decimal)
  | boolean (b : Bool)
  | datetime
  | array (items : List Value)
  | table (entries : List (String × Value))
  deriving Repr

namespace Value

mutual

/-- Whether every number in a value has a machine representation: 128 bits for an integer, double
precision for a float. -/
def isRepresentable : Value → Bool
  | .integer n => decide (-Int.ofNat (1 <<< 127) ≤ n) && decide (n < Int.ofNat (1 <<< 128))
  | .float (some d) => !d.overflows
  | .array items => areRepresentable items
  | .table entries => entriesAreRepresentable entries
  | _ => true

def areRepresentable : List Value → Bool
  | [] => true
  | v :: rest => v.isRepresentable && areRepresentable rest

def entriesAreRepresentable : List (String × Value) → Bool
  | [] => true
  | (_, v) :: rest => v.isRepresentable && entriesAreRepresentable rest

end

end Value

end TerminalShell.Toml
