import TerminalShell.Command.Grammar
import TerminalShell.Command.LineError

/-!
The redirection clause of a line: the first redirection operator among its words and all that
follows it.
-/
namespace TerminalShell.Command

namespace Redirection

/-- Which end of a pipeline a target replaces, and whether what the target holds is kept. -/
inductive Mode where
  | input
  | output
  | append
  deriving DecidableEq, Repr

def Mode.name : Mode → String
  | .input => "Input"
  | .output => "Output"
  | .append => "Append"

end Redirection

structure Redirection where
  mode : Redirection.Mode
  target : String
  deriving DecidableEq, Repr

namespace Grammar

def mode? (g : Grammar) (word : String) : Option Redirection.Mode :=
  if word = g.input then some .input
  else if word = g.output then some .output
  else if word = g.append then some .append
  else none

/-- The target named by the words after a redirection operator: they are joined by single
spaces and hold no further operator. -/
def target (g : Grammar) (operator : String) (clause : List String) : Except LineError String :=
  if clause.isEmpty then .error (.missingTarget operator)
  else
    match clause.find? g.isOperator with
    | some extra => .error (.ambiguousTarget extra)
    | none => .ok (" ".intercalate clause)

/-- The words before the first redirection operator, and the redirection if there is one. -/
def extractRedirection (g : Grammar) :
    List String → Except LineError (List String × Option Redirection)
  | [] => .ok ([], none)
  | word :: rest =>
    match g.mode? word with
    | some mode => (g.target word rest).map fun target => ([], some ⟨mode, target⟩)
    | none => (g.extractRedirection rest).map fun (words, r) => (word :: words, r)

theorem extractRedirection_cons_of_mode?_eq_none {g : Grammar} {word : String}
    (h : g.mode? word = none) (rest : List String) :
    g.extractRedirection (word :: rest) =
      (g.extractRedirection rest).map fun (words, r) => (word :: words, r) := by
  simp [extractRedirection, h]

theorem extractRedirection_cons_of_mode?_eq_some {g : Grammar} {word : String}
    {mode : Redirection.Mode} (h : g.mode? word = some mode) (rest : List String) :
    g.extractRedirection (word :: rest) =
      (g.target word rest).map fun target => ([], some ⟨mode, target⟩) := by
  simp [extractRedirection, h]

end Grammar

end TerminalShell.Command
