import TerminalShell.Command.LineError

/-! The segments of a pipeline: the words between its pipe operators, none of them empty. -/
namespace TerminalShell.Command

/-- The segments of `words` when `current` holds the first words of segment number `index`. -/
def segmentsFrom (pipe : String) (index : Nat) (current : List String) :
    List String → Except LineError (List (List String))
  | [] => if current.isEmpty then .error (.emptyStage index) else .ok [current]
  | word :: rest =>
    if word = pipe then
      if current.isEmpty then .error (.emptyStage index)
      else (segmentsFrom pipe (index + 1) [] rest).map (current :: ·)
    else segmentsFrom pipe index (current ++ [word]) rest

/-- The segments of a list of words. The end of the words closes the last segment as a pipe
operator would; no words make no segment. -/
def segments (pipe : String) (words : List String) : Except LineError (List (List String)) :=
  if words.isEmpty then .ok [] else segmentsFrom pipe 0 [] words

end TerminalShell.Command
