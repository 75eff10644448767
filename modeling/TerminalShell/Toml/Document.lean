import TerminalShell.Toml.Item

/-!
Documents: lines with a header or a key and its value, one after the other. Most of what can be
wrong with one needs no name here, so reading yields the value of a document or nothing.
-/
namespace TerminalShell.Toml

/-- What has been read of a document: all its tables, and the path of the one that the next line
adds to. -/
structure Draft where
  root : Entries := []
  path : List String := []

namespace Draft

def add? (d : Draft) (key : List String) (v : Value) : Option Draft :=
  (d.root.alter? (·.insert? key v) d.path).map fun root => { d with root }

def begin? (d : Draft) (repeated : Bool) (path : List String) : Option Draft :=
  match path.getLast? with
  | none => none
  | some key =>
    let enter := fun entries : Entries =>
      if repeated then entries.repeatedHeader? key else entries.header? key
    (d.root.alter? enter path.dropLast).map fun root => { root, path }

end Draft

/-- The path in a header, and what follows its closing bracket. -/
def headerPath : Reader (List String) := fun cs => do
  let (path, rest) ← key cs
  match rest with
  | ']' :: rest => return (path, rest)
  | _ => none

/-- What a line with a header or a pair does, and what follows on the line. -/
def line (d : Draft) : Reader Draft
  | '[' :: '[' :: rest => do
    let (path, rest) ← headerPath rest
    match rest with
    | ']' :: rest => return (← d.begin? true path, rest)
    | _ => none
  | '[' :: rest => do
    let (path, rest) ← headerPath rest
    return (← d.begin? false path, rest)
  | cs => do
    let ((key, v), rest) ← pair (value maxDepth) cs
    return (← d.add? key v, rest)

/-- The lines of a document; `fuel` bounds their number. -/
def lines : Nat → Draft → List Char → Option Draft
  | 0, _, _ => none
  | fuel + 1, d, cs =>
    match dropComment (dropBlanks cs) with
    | [] => some d
    | cs =>
      match afterLineEnd? cs with
      | some rest => lines fuel d rest
      | none => do
        let (d, rest) ← line d cs
        match dropComment (dropBlanks rest) with
        | [] => return d
        | rest => lines fuel d (← afterLineEnd? rest)

/-- The entries of a document. A byte order mark at its start is left out. -/
def parse? (text : String) : Option (List (String × Value)) :=
  let cs :=
    match text.toList with
    | '\ufeff' :: rest => rest
    | cs => cs
  (lines (cs.length + 1) {} cs).map fun d => entriesToValues d.root

end TerminalShell.Toml
