import TerminalShell.Channel.ByteQueue
import TerminalShell.Command.LineError
import TerminalShell.Path

/-! Everything that can go wrong with a line, from its words to its streams. -/
namespace TerminalShell

inductive ShellError where
  | line (e : Command.LineError)
  | channel (e : Channel.ChannelError)
  | path (e : PathError)
  | unopened (path reason : String)
  deriving DecidableEq, Repr

namespace ShellError

def message : ShellError → String
  | .line e => e.message
  | .channel e => e.message
  | .path e => e.message
  | .unopened target reason => "cannot open '" ++ target ++ "': " ++ reason

/-- Whether the text that the user typed is to blame. -/
def isUserError : ShellError → Bool
  | .line _ | .path _ => true
  | .channel _ | .unopened _ _ => false

end ShellError

end TerminalShell
