import TerminalShell.Text.Blank
import TerminalShell.Text.Pieces

/-!
Absolute paths as texts. A path is the separator followed by segments with single separators
between them; the separator alone is the root.
-/
namespace TerminalShell

structure PathStyle where
  separator : Char := '/'
  deriving DecidableEq, Repr

inductive PathError where
  | malformed (path : String)
  deriving DecidableEq, Repr

def PathError.message : PathError → String
  | .malformed path => "malformed path '" ++ path ++ "'"

namespace PathStyle

/-- Follows one more segment from the directory whose segments are stacked up, the last one
first. -/
def enter (stack : List String) (segment : String) : List String :=
  if segment = "." then stack
  else if segment = ".." then stack.tail
  else if Text.isBlankText segment then stack
  else segment :: stack

/-- Resolves `.` and `..` and drops blank segments; the root is its own parent. -/
def normalize (segments : List String) : List String :=
  (segments.foldl enter []).reverse

variable (style : PathStyle)

def isAbsolute (path : String) : Bool := path.toList.head? == some style.separator

def trimEnd (path : List Char) : List Char :=
  (path.reverse.dropWhile (· == style.separator)).reverse

def trim (path : List Char) : List Char :=
  style.trimEnd (path.dropWhile (· == style.separator))

def segments (path : String) : List String :=
  ((Text.pieces (· == style.separator) path.toList).filter fun piece => !piece.isEmpty).map
    String.ofList

/-- One absolute path through all parts, with the separators at their ends left out. -/
def join (parts : List String) : String :=
  let path := parts.flatMap fun part =>
    match style.trim part.toList with
    | [] => []
    | text => style.separator :: text
  if path.isEmpty then style.separator.toString else String.ofList path

def split (path : String) : Except PathError (List String) :=
  if Text.isBlankText path || !style.isAbsolute path then .error (.malformed path)
  else .ok (style.segments path)

def resolve (cwd path : String) : Except PathError String := do
  let base ← if style.isAbsolute path then pure [] else style.split cwd
  return style.join (normalize (base ++ style.segments path))

/-- The text behind the last separator, separators at the end aside. -/
def fileName (path : String) : Option String :=
  match ((style.trimEnd path.toList).reverse.takeWhile (· != style.separator)).reverse with
  | [] => none
  | name => some (String.ofList name)

/-- The text before the last separator, separators at the end aside. -/
def parent (path : String) : String :=
  match (style.trimEnd path.toList).reverse.dropWhile (· != style.separator) with
  | [] => if style.isAbsolute path then style.separator.toString else "."
  | [_] => style.separator.toString
  | _ :: before => String.ofList before.reverse

end PathStyle

end TerminalShell
