/-! Completion of a word from a list of candidates. -/
namespace TerminalShell.Command

structure Completion where
  /-- The matching candidates in increasing order, each once. -/
  found : List String
  /-- The longest text with which every match starts; the stem itself when nothing matches. -/
  common : String
  deriving DecidableEq, Repr

namespace Completion

def sharedStart : List Char → List Char → List Char
  | a :: as, b :: bs => if a = b then a :: sharedStart as bs else []
  | _, _ => []

def commonStart (first : String) (rest : List String) : String :=
  rest.foldl (fun start text => String.ofList (sharedStart start.toList text.toList)) first

/-- A list without the elements that equal the one behind them. -/
def eraseRepeats : List String → List String
  | [] => []
  | text :: rest =>
    if rest.head? = some text then eraseRepeats rest else text :: eraseRepeats rest

def ofCandidates (candidates : List String) (stem : String) : Completion :=
  let found := candidates.filter fun c => stem.toList.isPrefixOf c.toList
  let found := eraseRepeats (found.mergeSort fun a b => decide (a ≤ b))
  match found with
  | [] => ⟨[], stem⟩
  | first :: rest => ⟨found, commonStart first rest⟩

end Completion

end TerminalShell.Command
