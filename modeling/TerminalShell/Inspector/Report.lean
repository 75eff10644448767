import TerminalShell.Command.Submission
import TerminalShell.Text.Quoted

/-! The report on a line: what it asks for or what is wrong with it, and a mark for its end. -/
namespace TerminalShell.Inspector
open TerminalShell.Command

namespace Report

/-- The line that ends every report. -/
def endMark : String := "--"

def stageLine (index : Nat) (words : List String) : String :=
  "stage " ++ toString index ++ ": " ++ Text.quoteAll words

def redirectionLine (r : Redirection) : String :=
  "redirect " ++ r.mode.name ++ ": " ++ Text.quote r.target

/-- The lines for the stages of a plan and its redirection. -/
def planLines (plan : Plan) : List String :=
  if plan.segments.isEmpty then ["(empty)"]
  else plan.segments.mapIdx stageLine ++ (plan.redirection.map redirectionLine).toList

/-- The report on a line, without its end. -/
def lines (g : Grammar) (line : String) : List String :=
  match g.plan line with
  | .ok plan => planLines plan
  | .error e => ["error: " ++ e.message]

/-- The report on a line as it is written. -/
def text (g : Grammar) (line : String) : String :=
  String.join ((lines g line ++ [endMark]).map (· ++ "\n"))

end Report

end TerminalShell.Inspector
