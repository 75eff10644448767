import TerminalShell.Text.Pieces
import TerminalShell.Toml.Value

/-! The written forms of integers and floats. -/
namespace TerminalShell.Toml

/-- Digits with single underscores between them, without the underscores. -/
def digits? (isDigit : Char → Bool) (cs : List Char) : Option (List Char) :=
  let runs := Text.pieces (· == '_') cs
  if runs.all fun run => !run.isEmpty && run.all isDigit then some runs.flatten else none

def digitValue (c : Char) : Nat :=
  if c.isDigit then c.toNat - '0'.toNat
  else if c.isLower then c.toNat - 'a'.toNat + 10
  else c.toNat - 'A'.toNat + 10

def isDigitOf (base : Nat) (c : Char) : Bool := c.isAlphanum && decide (digitValue c < base)

def ofDigits (base : Nat) (cs : List Char) : Nat :=
  cs.foldl (fun n c => n * base + digitValue c) 0

def natural? (base : Nat) (cs : List Char) : Option Nat :=
  (digits? (isDigitOf base) cs).map (ofDigits base)

def decimal? (cs : List Char) : Option Nat :=
  if cs.head? = some '0' ∧ cs ≠ ['0'] then none else natural? 10 cs

def integer? : List Char → Option Int
  | '0' :: 'x' :: cs => (natural? 16 cs).map Int.ofNat
  | '0' :: 'o' :: cs => (natural? 8 cs).map Int.ofNat
  | '0' :: 'b' :: cs => (natural? 2 cs).map Int.ofNat
  | '+' :: cs => (decimal? cs).map Int.ofNat
  | '-' :: cs => (decimal? cs).map fun n => -Int.ofNat n
  | cs => (decimal? cs).map Int.ofNat

def exponent? : List Char → Option Int
  | '+' :: cs => (natural? 10 cs).map Int.ofNat
  | '-' :: cs => (natural? 10 cs).map fun n => -Int.ofNat n
  | cs => (natural? 10 cs).map Int.ofNat

/-- A number with a point or without one, as digits and a power of ten. -/
def fraction? (cs : List Char) : Option Decimal :=
  match Text.pieces (· == '.') cs with
  | [whole] => (decimal? whole).map fun n => ⟨n, 0⟩
  | [whole, part] => do
    let n ← decimal? whole
    let part ← digits? Char.isDigit part
    return ⟨n * Nat.pow 10 part.length + ofDigits 10 part, -Int.ofNat part.length⟩
  | _ => none

def unsigned : List Char → List Char
  | '+' :: cs => cs
  | '-' :: cs => cs
  | cs => cs

/-- A float; a number without a point needs a power of ten to be one. -/
def float? (cs : List Char) : Option (Option Decimal) :=
  let cs := unsigned cs
  if cs = ['i', 'n', 'f'] ∨ cs = ['n', 'a', 'n'] then some none
  else
    match Text.pieces (fun c => c == 'e' || c == 'E') cs with
    | [number] => if number.contains '.' then (fraction? number).map some else none
    | [number, power] => do
      let d ← fraction? number
      let e ← exponent? power
      return some ⟨d.digits, d.exponent + e⟩
    | _ => none

end TerminalShell.Toml
