import TerminalShell.Channel.ByteSource

/-! A source that yields what a list lays down, and no bytes once the list is used up. -/
namespace TerminalShell.Channel

namespace Script

inductive Item where
  | failure (e : ChannelError)
  | data (bytes : List UInt8)
  deriving DecidableEq, Repr

def Item.size : Item → Nat
  | .failure _ => 1
  | .data bytes => bytes.length + 1

end Script

abbrev Script := List Script.Item

namespace Script

/-- What one read of up to `n` bytes yields. Data that is longer stays first in the list. -/
def read (n : Nat) : Script → Reading × Script
  | [] => (.delivered [], [])
  | .failure e :: rest => (.failed e, rest)
  | .data bytes :: rest =>
    (.delivered (bytes.take n),
      if bytes.length ≤ n then rest else .data (bytes.drop n) :: rest)

def remaining : Script → Nat
  | [] => 0
  | item :: rest => item.size + remaining rest

def source : ByteSource Script where
  read := read
  remaining := remaining
  size_add_remaining_le n s := by
    match s with
    | [] => simp [read, Reading.size]
    | .failure e :: rest => cases e <;> simp [read, Reading.size, remaining, Item.size]
    | .data bytes :: rest =>
      simp only [read, Reading.size, remaining, Item.size, List.length_take]
      split
      · omega
      · simp only [remaining, Item.size, List.length_drop]
        omega

end Script

end TerminalShell.Channel
