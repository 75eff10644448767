/-! What can be wrong with a command line before any of it is carried out. -/
namespace TerminalShell.Command

inductive Malformation where
  | adjacentQuote
  | danglingEscape
  | unterminatedQuote
  deriving DecidableEq, Repr

def Malformation.message : Malformation → String
  | .adjacentQuote => "quote directly follows a closing quote"
  | .danglingEscape => "line ends with an escape character"
  | .unterminatedQuote => "unterminated quote"

inductive LineError where
  /-- The offset counts the bytes of the line's UTF-8 form. -/
  | malformed (offset : Nat) (reason : Malformation)
  | missingTarget (operator : String)
  | ambiguousTarget (operator : String)
  | emptyStage (index : Nat)
  deriving DecidableEq, Repr

def LineError.message : LineError → String
  | .malformed offset reason =>
    "malformed input at offset " ++ toString offset ++ ": " ++ reason.message
  | .missingTarget operator => "missing target after '" ++ operator ++ "'"
  | .ambiguousTarget operator => "unexpected '" ++ operator ++ "' in redirection target"
  | .emptyStage index => "empty command in pipeline stage " ++ toString index

end TerminalShell.Command
