import TerminalShell.Command.Redirection
import TerminalShell.Command.Segments
import TerminalShell.Command.Stage
import TerminalShell.Command.Words
import TerminalShell.ShellError

/-!
From a line to wired stages. Everything about the line itself is settled first; only then is the
target of a redirection opened, at most once, and the stages are wired last.
-/
namespace TerminalShell.Command

structure CommandLine where
  words : List String
  redirection : Option Redirection
  deriving DecidableEq, Repr

structure Plan where
  segments : List (List String)
  redirection : Option Redirection
  deriving DecidableEq, Repr

namespace Grammar

def parse (g : Grammar) (line : String) : Except LineError CommandLine :=
  (g.words line).bind fun words =>
    (g.extractRedirection words).map fun (words, redirection) => ⟨words, redirection⟩

/-- What a line asks for; a redirection of no command is refused. -/
def plan (g : Grammar) (line : String) : Except LineError Plan :=
  (g.parse line).bind fun parsed =>
    if parsed.words.isEmpty && parsed.redirection.isSome then .error (.emptyStage 0)
    else (segments g.pipe parsed.words).map fun segments => ⟨segments, parsed.redirection⟩

end Grammar

/-- Opens the target of a redirection, as a function of an own state and of the streams, or tells
why it cannot. -/
abbrev Opener (σ : Type) :=
  String → Redirection.Mode → σ → Streams → Except String StreamId × σ × Streams

structure Ends where
  input : StreamId
  output : StreamId
  deriving DecidableEq, Repr

def Ends.redirect (ends : Ends) (target : StreamId) : Redirection.Mode → Ends
  | .input => { ends with input := target }
  | .output | .append => { ends with output := target }

structure Submission where
  stages : List Stage
  redirection : Option Redirection
  /-- Whether the redirection has taken the place of one of the ends. -/
  applied : Bool
  deriving DecidableEq, Repr

variable {σ : Type}

/-- Opens the target of a redirection when there are both a target and an opener, and tells
whether it has replaced an end. -/
def connect (opener? : Option (Opener σ)) (redirection : Option Redirection) (ends : Ends)
    (state : σ) (streams : Streams) : Except ShellError (Ends × Bool) × σ × Streams :=
  match opener?, redirection with
  | some opener, some r =>
    match opener r.target r.mode state streams with
    | (.ok target, state, streams) => (.ok (ends.redirect target r.mode, true), state, streams)
    | (.error reason, state, streams) => (.error (.unopened r.target reason), state, streams)
  | _, _ => (.ok (ends, false), state, streams)

/-- Plans a line, opens its target and wires its stages between the two ends. -/
def Grammar.submit (g : Grammar) (opener? : Option (Opener σ)) (line : String) (ends : Ends)
    (state : σ) (streams : Streams) : Except ShellError Submission × σ × Streams :=
  match g.plan line with
  | .error e => (.error (.line e), state, streams)
  | .ok plan =>
    match connect opener? plan.redirection ends state streams with
    | (.error e, state, streams) => (.error e, state, streams)
    | (.ok (ends, applied), state, streams) =>
      let (stages, streams) := wire plan.segments ends.input ends.output streams
      (.ok ⟨stages, plan.redirection, applied⟩, state, streams)

end TerminalShell.Command
