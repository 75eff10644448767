import TerminalShell.Command.Submission

/-! An opener over streams that are known by paths, as files are. -/
namespace TerminalShell.Command

structure NamedStreams where
  entries : List (String × StreamId) := []
  /-- Paths that cannot be opened, with the reasons. -/
  denied : List (String × String) := []
  /-- What has been asked for, the latest last. -/
  requests : List (String × Redirection.Mode) := []
  deriving DecidableEq, Repr

namespace NamedStreams

def lookup (n : NamedStreams) (path : String) : Option StreamId := n.entries.lookup path

/-- Lets `path` name a stream, and no other any longer. -/
def bind (n : NamedStreams) (path : String) (id : StreamId) : NamedStreams :=
  { n with entries := (path, id) :: n.entries.filter fun entry => entry.1 != path }

/-- Gives `path` a new empty stream. -/
def create (path : String) (n : NamedStreams) (streams : Streams) :
    Except String StreamId × NamedStreams × Streams :=
  let (id, streams) := streams.add .empty
  (.ok id, n.bind path id, streams)

/-- Input needs a stream that exists, output begins a new one, and appending goes on with the one
that exists or begins one. -/
def opener : Opener NamedStreams := fun path mode n streams =>
  let n := { n with requests := n.requests ++ [(path, mode)] }
  match n.denied.lookup path with
  | some reason => (.error reason, n, streams)
  | none =>
    match mode, n.lookup path with
    | .input, some id => (.ok id, n, streams)
    | .input, none => (.error "no such file", n, streams)
    | .append, some id => (.ok id, n, streams)
    | .append, none | .output, _ => create path n streams

end NamedStreams

end TerminalShell.Command
