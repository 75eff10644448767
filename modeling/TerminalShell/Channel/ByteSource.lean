import TerminalShell.Channel.ByteQueue

/-!
Where a reader's bytes come from. A source says what a read of some size yields; a measure of
what it can still deliver bounds every reader.
-/
namespace TerminalShell.Channel

inductive Reading where
  | delivered (bytes : List UInt8)
  | failed (e : ChannelError)
  /-- The reader has to wait; nothing has changed. -/
  | waiting
  deriving DecidableEq, Repr

namespace Reading

def ofResult : Except ChannelError (List UInt8) → Reading
  | .ok bytes => .delivered bytes
  | .error e => .failed e

/-- How much a read takes from its source: bytes, or an interrupt. -/
def size : Reading → Nat
  | .delivered bytes => bytes.length
  | .failed .interrupted => 1
  | .failed .closed => 0
  | .waiting => 0

end Reading

structure ByteSource (σ : Type) where
  read : Nat → σ → Reading × σ
  /-- How much the source can still deliver. -/
  remaining : σ → Nat
  size_add_remaining_le : ∀ n s, (read n s).1.size + remaining (read n s).2 ≤ remaining s

namespace ByteQueue

/-- How much a queue can still deliver: its bytes and its interrupt. -/
def remaining (q : ByteQueue) : Nat := q.bytes.length + q.isInterrupted.toNat

theorem size_add_remaining_read (n : Nat) (q : ByteQueue) :
    (Reading.ofResult (q.read n).1).size + (q.read n).2.remaining = q.remaining := by
  cases q with
  | closed => rfl
  | opened all interrupted =>
    by_cases hb : (all.isEmpty && interrupted) = true
    · simp only [read, hb, if_true]
      simp_all [Reading.ofResult, Reading.size, remaining, ByteQueue.bytes, isInterrupted]
    · simp only [read, hb, Bool.false_eq_true, if_false, Reading.ofResult, Reading.size, remaining,
        ByteQueue.bytes, isInterrupted, List.length_take, List.length_drop]
      omega

def polled : ByteSource ByteQueue where
  read n q := (.ofResult (q.read n).1, (q.read n).2)
  remaining := remaining
  size_add_remaining_le n q := Nat.le_of_eq (size_add_remaining_read n q)

/-- A queue whose reader waits until there is something to report. -/
def awaited : ByteSource ByteQueue where
  read n q :=
    match q.readBlocking? n with
    | some (result, rest) => (.ofResult result, rest)
    | none => (.waiting, q)
  remaining := remaining
  size_add_remaining_le n q := by
    by_cases h : n ≠ 0 ∧ q = .opened [] false
    · simp [readBlocking?, h, Reading.size]
    · simp only [readBlocking?, h, if_false]
      exact Nat.le_of_eq (size_add_remaining_read n q)

end ByteQueue

namespace ByteSource

/-- The source inside a larger state. -/
def within {σ τ : Type} (source : ByteSource σ) (get : τ → σ) (set : σ → τ → τ)
    (get_set : ∀ s t, get (set s t) = s) : ByteSource τ where
  read n t := ((source.read n (get t)).1, set (source.read n (get t)).2 t)
  remaining t := source.remaining (get t)
  size_add_remaining_le n t := by
    rw [get_set]
    exact source.size_add_remaining_le n (get t)

end ByteSource

end TerminalShell.Channel
