/-! The written forms of dates and times. Nothing but their form is ever asked for. -/
namespace TerminalShell.Toml

def figures? (cs : List Char) : Option Nat :=
  if cs.all Char.isDigit then some (cs.foldl (fun n c => 10 * n + (c.toNat - '0'.toNat)) 0)
  else none

def isLeapYear (year : Nat) : Bool :=
  year % 4 == 0 && (year % 100 != 0 || year % 400 == 0)

def daysInMonth (year month : Nat) : Nat :=
  if month = 2 then (if isLeapYear year then 29 else 28)
  else if month = 4 ∨ month = 6 ∨ month = 9 ∨ month = 11 then 30
  else 31

def afterDate? : List Char → Option (List Char)
  | y₁ :: y₂ :: y₃ :: y₄ :: '-' :: m₁ :: m₂ :: '-' :: d₁ :: d₂ :: rest => do
    let year ← figures? [y₁, y₂, y₃, y₄]
    let month ← figures? [m₁, m₂]
    let day ← figures? [d₁, d₂]
    if 1 ≤ month ∧ month ≤ 12 ∧ 1 ≤ day ∧ day ≤ daysInMonth year month then some rest else none
  | _ => none

def afterDecimals? : List Char → Option (List Char)
  | '.' :: c :: rest => if c.isDigit then some (rest.dropWhile Char.isDigit) else none
  | '.' :: [] => none
  | rest => some rest

/-- What follows a time of day. A minute may have a leap second. -/
def afterTime? : List Char → Option (List Char)
  | h₁ :: h₂ :: ':' :: m₁ :: m₂ :: ':' :: s₁ :: s₂ :: rest => do
    let hour ← figures? [h₁, h₂]
    let minute ← figures? [m₁, m₂]
    let second ← figures? [s₁, s₂]
    if hour ≤ 23 ∧ minute ≤ 59 ∧ second ≤ 60 then afterDecimals? rest else none
  | _ => none

/-- Whether a text is a difference from universal time, or nothing. -/
def isOffset : List Char → Bool
  | [] => true
  | ['Z'] | ['z'] => true
  | [sign, h₁, h₂, ':', m₁, m₂] =>
    (sign == '+' || sign == '-') &&
      (figures? [h₁, h₂]).any (· ≤ 23) && (figures? [m₁, m₂]).any (· ≤ 59)
  | _ => false

def isTime (cs : List Char) : Bool := afterTime? cs == some []

def isDate (cs : List Char) : Bool := afterDate? cs == some []

/-- A date, a time of day, or a date and a time with or without an offset. -/
def isDatetime (cs : List Char) : Bool :=
  match afterDate? cs with
  | none => isTime cs
  | some [] => true
  | some (c :: rest) =>
    (c == 'T' || c == 't' || c == ' ') && (afterTime? rest).any isOffset

end TerminalShell.Toml
