/-!
A queue of bytes between a writer and a reader. Bytes come out in the order in which they went
in; an interrupt is a flag beside them that only a reader without bytes sees; a closed queue
holds nothing and stays closed.
-/
namespace TerminalShell.Channel

inductive ChannelError where
  | closed
  /-- A pending interrupt, which this failure takes away. -/
  | interrupted
  deriving DecidableEq, Repr

def ChannelError.message : ChannelError → String
  | .closed => "channel closed"
  | .interrupted => "read interrupted"

inductive ByteQueue where
  | opened (bytes : List UInt8) (interrupted : Bool)
  | closed
  deriving DecidableEq, Repr

namespace ByteQueue

def empty : ByteQueue := .opened [] false

def ofBytes (bytes : List UInt8) : ByteQueue := .opened bytes false

def bytes : ByteQueue → List UInt8
  | .opened bytes _ => bytes
  | .closed => []

def isInterrupted : ByteQueue → Bool
  | .opened _ interrupted => interrupted
  | .closed => false

def isClosed : ByteQueue → Bool
  | .opened _ _ => false
  | .closed => true

def write (bytes : List UInt8) : ByteQueue → Except ChannelError Nat × ByteQueue
  | .opened old interrupted => (.ok bytes.length, .opened (old ++ bytes) interrupted)
  | .closed => (.error .closed, .closed)

/-- Takes up to `n` bytes without waiting. Only a reader that finds no byte learns of an
interrupt, and takes it away. -/
def read (n : Nat) : ByteQueue → Except ChannelError (List UInt8) × ByteQueue
  | .opened bytes interrupted =>
    if bytes.isEmpty && interrupted then (.error .interrupted, .opened [] false)
    else (.ok (bytes.take n), .opened (bytes.drop n) interrupted)
  | .closed => (.error .closed, .closed)

/-- Takes up to `n` bytes when there is something to report, and is nothing while a reader of at
least one byte has to wait. -/
def readBlocking? (n : Nat) (q : ByteQueue) :
    Option (Except ChannelError (List UInt8) × ByteQueue) :=
  if n ≠ 0 ∧ q = .opened [] false then none else some (q.read n)

/-- Takes up to `n` bytes when there is something to report; a reader that has to wait looks a
last time when its patience ends, here with nothing happening meanwhile. -/
def readTimeout (n : Nat) (q : ByteQueue) : Except ChannelError (List UInt8) × ByteQueue :=
  (q.readBlocking? n).getD (q.read n)

/-- Leaves an interrupt for the reader. Signals do not add up. -/
def signalInterrupt : ByteQueue → ByteQueue
  | .opened bytes _ => .opened bytes true
  | .closed => .closed

/-- Drops what the queue holds and fails every later read and write. -/
def close (_ : ByteQueue) : ByteQueue := .closed

theorem length_bytes_lt_of_read {n : Nat} {q rest : ByteQueue} {b : UInt8} {taken : List UInt8}
    (h : q.read n = (.ok (b :: taken), rest)) : rest.bytes.length < q.bytes.length := by
  cases q with
  | closed => simp [read] at h
  | opened all interrupted =>
    by_cases hb : (all.isEmpty && interrupted) = true
    · simp [read, hb] at h
    · simp only [read, hb, Bool.false_eq_true, if_false, Prod.mk.injEq, Except.ok.injEq] at h
      obtain ⟨ht, rfl⟩ := h
      have := congrArg List.length ht
      simp only [List.length_take, List.length_cons] at this
      simp only [ByteQueue.bytes, List.length_drop]
      omega

/-- All bytes that wait, taken by reads of at most `chunk` bytes until one finds nothing. -/
def drain (chunk : Nat) (q : ByteQueue) : Except ChannelError (List UInt8) × ByteQueue :=
  match h : q.read chunk with
  | (.error e, rest) => (.error e, rest)
  | (.ok [], rest) => (.ok [], rest)
  | (.ok (b :: taken), rest) =>
    have := length_bytes_lt_of_read h
    let (result, last) := rest.drain chunk
    (result.map ((b :: taken) ++ ·), last)
termination_by q.bytes.length

/-- Everything a buffer between two commands holds. -/
def takeAll (q : ByteQueue) : Except ChannelError (List UInt8) × ByteQueue := q.drain 1024

end ByteQueue

end TerminalShell.Channel
