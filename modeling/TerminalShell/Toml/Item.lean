import TerminalShell.Toml.Datetime
import TerminalShell.Toml.Quotation
import TerminalShell.Toml.Tree

/-!
Keys and values. Each reader yields what it has read and what follows it. The depth of nested
arrays and inline tables is limited, which is what ends the recursion.
-/
namespace TerminalShell.Toml

/-- A reader of the start of a text. -/
abbrev Reader (α : Type) := List Char → Option (α × List Char)

def dropBlanks (cs : List Char) : List Char := cs.dropWhile fun c => c == ' ' || c == '\t'

def dropComment : List Char → List Char
  | '#' :: rest => rest.dropWhile isText
  | cs => cs

def isBare (c : Char) : Bool := c.isAlphanum || c == '_' || c == '-'

def bareKey : Reader String := fun cs =>
  match cs.takeWhile isBare with
  | [] => none
  | key => some (String.ofList key, cs.dropWhile isBare)

/-- One part of a key, bare or a string on one line. -/
def simpleKey : Reader String
  | '"' :: rest => (basic? rest).map fun (text, after) => (String.ofList text, after)
  | '\'' :: rest => (literal? rest).map fun (text, after) => (String.ofList text, after)
  | cs => bareKey cs

/-- A key with at most `most` parts between dots. -/
def keyParts (most : Nat) : Reader (List String) := fun cs =>
  match most with
  | 0 => none
  | most + 1 => do
    let (part, rest) ← simpleKey (dropBlanks cs)
    match dropBlanks rest with
    | '.' :: more => do
      let (parts, rest) ← keyParts most more
      return (part :: parts, rest)
    | rest => return ([part], rest)

/-- How many parts a key may have, and how deep arrays and inline tables may be nested. -/
def maxDepth : Nat := 80

def key : Reader (List String) := keyParts maxDepth

def isScalarChar (c : Char) : Bool := isBare c || c == '+' || c == '.' || c == ':'

/-- The value that a run of characters without quotes and brackets stands for. -/
def plain? (cs : List Char) : Option Value :=
  if cs = "true".toList then some (.boolean true)
  else if cs = "false".toList then some (.boolean false)
  else
    match integer? cs with
    | some n => some (.integer n)
    | none =>
      match float? cs with
      | some magnitude => some (.float magnitude)
      | none => if isDatetime cs then some .datetime else none

/-- A value that is neither a string nor made of values. A space may stand between a date and a
time. -/
def scalar : Reader Value := fun cs =>
  let run := cs.takeWhile isScalarChar
  let rest := cs.dropWhile isScalarChar
  let (run, rest) :=
    match rest with
    | ' ' :: c :: more =>
      if isDate run && c.isDigit then
        (run ++ ' ' :: (c :: more).takeWhile isScalarChar, (c :: more).dropWhile isScalarChar)
      else (run, rest)
    | _ => (run, rest)
  (plain? run).map fun v => (v, rest)

/-- What follows blank characters, line ends and comments; `fuel` bounds their number. -/
def dropLines : Nat → List Char → List Char
  | 0, cs => cs
  | fuel + 1, cs =>
    let rest := dropComment (dropBlanks cs)
    match afterLineEnd? rest with
    | some more => dropLines fuel more
    | none => rest

/-- The items of an array and its closing bracket; `fuel` bounds their number. -/
def items (value : Reader Value) : Nat → Reader (List Value)
  | 0, _ => none
  | fuel + 1, cs =>
    match dropLines cs.length cs with
    | ']' :: rest => some ([], rest)
    | cs => do
      let (v, rest) ← value cs
      match dropLines rest.length rest with
      | ']' :: rest => return ([v], rest)
      | ',' :: rest => do
        let (vs, rest) ← items value fuel rest
        return (v :: vs, rest)
      | _ => none

def pair (value : Reader Value) : Reader (List String × Value) := fun cs => do
  let (key, rest) ← key cs
  match rest with
  | '=' :: rest =>
    let (v, rest) ← value (dropBlanks rest)
    return ((key, v), rest)
  | _ => none

/-- The pairs of an inline table and its closing brace; `fuel` bounds their number. -/
def inlinePairs (value : Reader Value) : Nat → Entries → Reader Entries
  | 0, _, _ => none
  | fuel + 1, entries, cs => do
    let ((key, v), rest) ← pair value cs
    let entries ← entries.insert? key v
    match dropBlanks rest with
    | '\x7d' :: rest => return (entries, rest)
    | ',' :: rest => inlinePairs value fuel entries rest
    | _ => none

def inlineTable (value : Reader Value) : Reader Entries := fun cs =>
  match dropBlanks cs with
  | '\x7d' :: rest => some ([], rest)
  | cs => inlinePairs value cs.length [] cs

/-- A value with at most `depth` levels of arrays and inline tables. -/
def value : Nat → Reader Value
  | depth, cs =>
    match cs with
    | '"' :: _ | '\'' :: _ =>
      (quotation? cs).map fun (text, rest) => (.string (String.ofList text), rest)
    | '[' :: rest =>
      match depth with
      | 0 => none
      | depth + 1 =>
        (items (value depth) rest.length rest).map fun (vs, rest) => (.array vs, rest)
    | '\x7b' :: rest =>
      match depth with
      | 0 => none
      | depth + 1 =>
        (inlineTable (value depth) rest).map fun (entries, rest) =>
          (.table (entriesToValues entries), rest)
    | cs => scalar cs

end TerminalShell.Toml
