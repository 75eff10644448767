import TerminalShell.Channel.ByteQueue

/-!
The stages of a pipeline and the streams between them. Streams live in a store and are known by
their place in it, so that two stages can share one.
-/
namespace TerminalShell.Command
open TerminalShell.Channel

structure StreamId where
  index : Nat
  deriving DecidableEq, Repr

structure Streams where
  queues : Array ByteQueue := #[]
  deriving DecidableEq, Repr

namespace Streams

def add (q : ByteQueue) (s : Streams) : StreamId × Streams := (⟨s.queues.size⟩, ⟨s.queues.push q⟩)

/-- A stream; one that does not exist is closed. -/
def get (s : Streams) (id : StreamId) : ByteQueue := s.queues.getD id.index .closed

def set (s : Streams) (id : StreamId) (q : ByteQueue) : Streams :=
  ⟨s.queues.setIfInBounds id.index q⟩

def on {α : Type} (id : StreamId) (op : ByteQueue → α × ByteQueue) (s : Streams) : α × Streams :=
  ((op (s.get id)).1, s.set id (op (s.get id)).2)

end Streams

structure Stage where
  words : List String
  input : StreamId
  output : StreamId
  deriving DecidableEq, Repr

namespace Stage

def command (s : Stage) : String := s.words.headD ""

def arguments (s : Stage) : List String := s.words.tail

end Stage

/-- Stages for the segments of a pipeline: the first reads `input`, the last writes `output`, and
neighbours share a new stream. -/
def wire : List (List String) → StreamId → StreamId → Streams → List Stage × Streams
  | [], _, _, s => ([], s)
  | [words], input, output, s => ([⟨words, input, output⟩], s)
  | words :: next :: rest, input, output, s =>
    let (link, s) := s.add .empty
    let (stages, s) := wire (next :: rest) link output s
    (⟨words, input, link⟩ :: stages, s)

end TerminalShell.Command
