import TerminalShell.Channel.ByteSource
import TerminalShell.Text.Pieces

/-!
A terminal: keystrokes go from the screen to a command, output from the command to the screen.
A typed interrupt byte is not a keystroke but a signal to the command. Either side closes both
directions.
-/
namespace TerminalShell.Channel

structure Terminal where
  input : ByteQueue := .empty
  output : ByteQueue := .empty
  interruptByte : UInt8 := 3
  deriving DecidableEq, Repr

namespace Terminal

/-- What typing does to the input queue, one step at a time. -/
inductive Emission where
  | data (bytes : List UInt8)
  | signal
  deriving DecidableEq, Repr

def Emission.apply (q : ByteQueue) : Emission → ByteQueue
  | .data bytes => (q.write bytes).2
  | .signal => q.signalInterrupt

/-- The emissions of a typed text: what stands between interrupt bytes goes to the queue, and
each interrupt byte is a signal. -/
def emissions (interruptByte : UInt8) (bytes : List UInt8) : List Emission :=
  ((Text.pieces (· == interruptByte) bytes).map Emission.data).intersperse .signal

/-- The screen types bytes; interrupt bytes count among those accepted. -/
def typeBytes (bytes : List UInt8) (t : Terminal) : Except ChannelError Nat × Terminal :=
  if t.input.isClosed then (.error .closed, t)
  else
    (.ok bytes.length,
      { t with input := (emissions t.interruptByte bytes).foldl Emission.apply t.input })

def interrupt (t : Terminal) : Except ChannelError Unit × Terminal :=
  if t.input.isClosed then (.error .closed, t)
  else (.ok (), { t with input := t.input.signalInterrupt })

def print (bytes : List UInt8) (t : Terminal) : Except ChannelError Nat × Terminal :=
  ((t.output.write bytes).1, { t with output := (t.output.write bytes).2 })

def close (t : Terminal) : Terminal :=
  { t with input := t.input.close, output := t.output.close }

def isClosed (t : Terminal) : Bool := t.input.isClosed || t.output.isClosed

def polledInput : ByteSource Terminal :=
  ByteQueue.polled.within input (fun q t => { t with input := q }) fun _ _ => rfl

def awaitedInput : ByteSource Terminal :=
  ByteQueue.awaited.within input (fun q t => { t with input := q }) fun _ _ => rfl

def awaitedOutput : ByteSource Terminal :=
  ByteQueue.awaited.within output (fun q t => { t with output := q }) fun _ _ => rfl

end Terminal

end TerminalShell.Channel
