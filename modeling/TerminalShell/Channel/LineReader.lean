import TerminalShell.Channel.ByteSource
import TerminalShell.Text.Line
import TerminalShell.Text.Utf8

/-!
Lines from a source of bytes. A reader keeps the bytes of an unfinished line; an interrupt
throws them away, and the end of the source makes them the last line.
-/
namespace TerminalShell.Channel

structure LineReader where
  pending : List UInt8 := []
  chunkSize : Nat := 4096
  chunkSize_pos : 0 < chunkSize := by decide
  deriving DecidableEq, Repr

namespace LineReader

/-- A reader whose reads have the given size, and at least one. What is said of readers of any size
assumes that a buffer of that size, which each read fills, can be allocated. -/
def ofChunkSize (n : Nat) : LineReader where
  chunkSize := max n 1
  chunkSize_pos := Nat.lt_of_lt_of_le Nat.zero_lt_one (Nat.le_max_right n 1)

inductive Outcome where
  | line (text : String)
  | incomplete
  | failed (e : ChannelError)
  /-- The reader has to wait for the source. -/
  | waiting
  deriving DecidableEq, Repr

/-- Takes the first complete line off the pending bytes, without its terminator. -/
def takeLine? (r : LineReader) : Option (String × LineReader) :=
  (Text.splitLine? r.pending).map fun (line, rest) =>
    (Text.Utf8.decodeLenient (Text.dropReturn line), { r with pending := rest })

/-- What a reading means to a reader without a complete line: an outcome, or more to read. -/
def absorb (r : LineReader) : Reading → Option Outcome × LineReader
  | .delivered bytes =>
    if bytes.isEmpty then (some .incomplete, r)
    else (none, { r with pending := r.pending ++ bytes })
  | .failed .interrupted => (some (.failed .interrupted), { r with pending := [] })
  | .failed .closed =>
    if r.pending.isEmpty then (some (.failed .closed), r)
    else (some (.line (Text.Utf8.decodeLenient r.pending)), { r with pending := [] })
  | .waiting => (some .waiting, r)

theorem size_pos_of_absorb {r r' : LineReader} {reading : Reading}
    (h : r.absorb reading = (none, r')) : 0 < reading.size := by
  match reading with
  | .delivered [] => simp [absorb] at h
  | .delivered (b :: bytes) => simp [Reading.size]
  | .failed .interrupted => simp [absorb] at h
  | .failed .closed =>
    simp only [absorb] at h
    split at h <;> simp at h
  | .waiting => simp [absorb] at h

variable {σ : Type}

def next (source : ByteSource σ) (r : LineReader) (s : σ) : Outcome × LineReader × σ :=
  match r.takeLine? with
  | some (text, r) => (.line text, r, s)
  | none =>
    match h : r.absorb (source.read r.chunkSize s).1 with
    | (some outcome, r') => (outcome, r', (source.read r.chunkSize s).2)
    | (none, r') =>
      have := size_pos_of_absorb h
      have := source.size_add_remaining_le r.chunkSize s
      next source r' (source.read r.chunkSize s).2
termination_by source.remaining s

/-- How much a reader and its source can still deliver. -/
def remaining (source : ByteSource σ) (r : LineReader) (s : σ) : Nat :=
  r.pending.length + source.remaining s

/-- Whether an outcome uses up a part of what the source can deliver. -/
def Outcome.isProgress : Outcome → Bool
  | .line _ => true
  | .failed .interrupted => true
  | _ => false

theorem length_pending_lt_of_takeLine? {r r' : LineReader} {text : String}
    (h : r.takeLine? = some (text, r')) : r'.pending.length < r.pending.length := by
  simp only [takeLine?, Option.map_eq_some_iff, Prod.mk.injEq] at h
  obtain ⟨⟨line, rest⟩, h, -, rfl⟩ := h
  simp only [Text.eq_append_of_splitLine? h, List.length_append, List.length_cons]
  omega

theorem length_pending_absorb (r : LineReader) (reading : Reading) :
    (r.absorb reading).2.pending.length + ((r.absorb reading).1.any Outcome.isProgress).toNat ≤
      r.pending.length + reading.size := by
  match reading with
  | .delivered bytes =>
    by_cases h : bytes.isEmpty <;> simp [absorb, h, Outcome.isProgress, Reading.size]
  | .failed .interrupted => simp [absorb, Outcome.isProgress, Reading.size]
  | .failed .closed =>
    cases h : r.pending <;> simp [absorb, h, Outcome.isProgress, Reading.size]
  | .waiting => simp [absorb, Outcome.isProgress, Reading.size]

theorem remaining_next (source : ByteSource σ) (r : LineReader) (s : σ) :
    (next source r s).2.1.remaining source (next source r s).2.2 +
      (next source r s).1.isProgress.toNat ≤ r.remaining source s := by
  fun_induction next source r s with
  | case1 r s text r' h =>
    have := length_pending_lt_of_takeLine? h
    simp only [remaining, Outcome.isProgress, Bool.toNat_true]
    omega
  | case2 r s _ outcome r' h =>
    have h₁ := length_pending_absorb r (source.read r.chunkSize s).1
    have h₂ := source.size_add_remaining_le r.chunkSize s
    simp only [h, Option.any_some] at h₁
    simp only [remaining]
    omega
  | case3 r s _ r' h _ _ ih =>
    have h₁ := length_pending_absorb r (source.read r.chunkSize s).1
    have h₂ := source.size_add_remaining_le r.chunkSize s
    simp only [h] at h₁
    simp only [remaining] at ih ⊢
    omega

end LineReader

end TerminalShell.Channel
