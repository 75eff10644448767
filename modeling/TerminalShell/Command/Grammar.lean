/-! The characters and operators that give a command line its structure. -/
namespace TerminalShell.Command

structure Grammar where
  escape : Char := '\\'
  quote : Char := '"'
  pipe : String := "|"
  input : String := "<"
  output : String := ">"
  append : String := ">>"
  deriving DecidableEq, Repr

namespace Grammar

/-- The four operators, in the order in which they are checked for conflicts. -/
def operators (g : Grammar) : List String := [g.pipe, g.input, g.output, g.append]

def isOperator (g : Grammar) (word : String) : Bool := g.operators.contains word

theorem isOperator_iff {g : Grammar} {word : String} :
    g.isOperator word = true ↔ word ∈ g.operators := List.contains_iff_mem

theorem isOperator_eq_false_iff {g : Grammar} {word : String} :
    g.isOperator word = false ↔ word ∉ g.operators := by
  rw [← Bool.not_eq_true, isOperator_iff]

end Grammar

end TerminalShell.Command
