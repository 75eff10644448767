import TerminalShell.Proofs.Channel.LineDelivery

/-!
The size of a reader's reads never shows. What comes out depends on the bytes that the reader and
the queue hold together and on whether an interrupt is pending, so a reader and its terminal behave
like a machine in which there are no reads.
-/
namespace TerminalShell.Channel

namespace LineReader

/-- An interrupt that waits costs a reader the unfinished line, with all that was queued of it. -/
theorem next_polled_of_interrupted {r : LineReader} {bytes : List UInt8}
    (h : 10 ∉ r.pending ++ bytes) :
    next ByteQueue.polled r (.opened bytes true) =
      (.failed .interrupted, { r with pending := [] }, .opened [] false) := by
  have hread : ByteQueue.polled.read r.chunkSize (.opened [] true) =
      (.failed .interrupted, .opened [] false) := by
    simp [ByteQueue.polled, ByteQueue.read, Reading.ofResult]
  rw [next_opened_drained ByteQueue.polled_reports h, next_of_outcome _ _ h (by rw [hread]; rfl),
    hread]

end LineReader

namespace Terminal

theorem emissions_cons_self (interruptByte : UInt8) (bytes : List UInt8) :
    emissions interruptByte (interruptByte :: bytes) =
      .data [] :: .signal :: emissions interruptByte bytes := by
  obtain ⟨piece, more, hp⟩ := List.exists_cons_of_ne_nil
    (Text.pieces_ne_nil (· == interruptByte) bytes)
  simp [emissions, Text.pieces, hp]

theorem emissions_cons_of_ne {interruptByte b : UInt8} (h : b ≠ interruptByte)
    (bytes : List UInt8) :
    ∃ piece more, emissions interruptByte bytes = .data piece :: more ∧
      emissions interruptByte (b :: bytes) = .data (b :: piece) :: more := by
  obtain ⟨piece, more, hp⟩ := List.exists_cons_of_ne_nil
    (Text.pieces_ne_nil (· == interruptByte) bytes)
  cases more with
  | nil => exact ⟨piece, [], by simp [emissions, hp], by simp [emissions, Text.pieces, h, hp]⟩
  | cons second more =>
    exact ⟨piece, _, by simp [emissions, hp]; rfl, by simp [emissions, Text.pieces, h, hp]⟩

/-- What is typed reaches an open queue as it is, less its interrupt bytes, which leave an
interrupt. -/
theorem foldl_emissions (interruptByte : UInt8) (bytes queued : List UInt8) (interrupted : Bool) :
    (emissions interruptByte bytes).foldl Emission.apply (.opened queued interrupted) =
      .opened (queued ++ bytes.filter (· != interruptByte))
        (interrupted || bytes.contains interruptByte) := by
  induction bytes generalizing queued interrupted with
  | nil => simp [emissions, Text.pieces, Emission.apply, ByteQueue.write]
  | cons b bytes ih =>
    by_cases hb : b = interruptByte
    · subst hb
      rw [emissions_cons_self, List.foldl_cons, List.foldl_cons]
      simp [Emission.apply, ByteQueue.write, ByteQueue.signalInterrupt, ih]
    · obtain ⟨piece, more, hp, hcons⟩ := emissions_cons_of_ne hb bytes
      have ih := ih (queued ++ [b]) interrupted
      rw [hp] at ih
      rw [hcons]
      simpa [Emission.apply, ByteQueue.write, hb, Ne.symm hb] using ih

/-- A command that does not wait and finds an interrupt instead of a line has lost all that was
typed of it. -/
theorem next_keystrokes_of_interrupted {r : LineReader} {t : Terminal} {queued : List UInt8}
    (ht : t.input = .opened queued true) (h : 10 ∉ r.pending ++ queued) :
    r.next (keystrokes false) t =
      (.failed .interrupted, { r with pending := [] }, { t with input := .opened [] false }) := by
  rw [keystrokes, if_neg Bool.false_ne_true, polledInput, next_within_input, ht,
    LineReader.next_polled_of_interrupted h]

end Terminal

/-- What can be done with a terminal that stays open and with a reader of its keystrokes that never
waits. -/
inductive Move where
  | type (bytes : List UInt8)
  | interrupt
  | nextLine
  deriving DecidableEq, Repr

namespace Exchange

def move (x : Exchange) : Move → Exchange
  | .type bytes => x.act (.type bytes)
  | .interrupt => { x with terminal := x.terminal.interrupt.2 }
  | .nextLine => x.act (.nextLine false)

def play (x : Exchange) (moves : List Move) : Exchange := moves.foldl move x

/-- The bytes that have been typed and are part of no outcome yet, wherever they are. -/
def unread (x : Exchange) : List UInt8 := x.reader.pending ++ x.terminal.input.bytes

end Exchange

/-- An exchange without the place where its bytes are. -/
structure Transcript where
  unread : List UInt8 := []
  interrupted : Bool := false
  outcomes : List LineReader.Outcome := []
  deriving DecidableEq, Repr

namespace Transcript

/-- The first line of the unread bytes comes out; if they hold none, an interrupt does and throws
them away. -/
def nextLine (t : Transcript) : Transcript :=
  match Text.splitLine? t.unread with
  | some (line, rest) =>
    { t with
      unread := rest
      outcomes := t.outcomes ++ [.line (Text.Utf8.decodeLenient (Text.dropReturn line))] }
  | none =>
    if t.interrupted then
      { unread := [], interrupted := false, outcomes := t.outcomes ++ [.failed .interrupted] }
    else { t with outcomes := t.outcomes ++ [.incomplete] }

def move (interruptByte : UInt8) (t : Transcript) : Move → Transcript
  | .type bytes =>
    { t with
      unread := t.unread ++ bytes.filter (· != interruptByte)
      interrupted := t.interrupted || bytes.contains interruptByte }
  | .interrupt => { t with interrupted := true }
  | .nextLine => t.nextLine

end Transcript

namespace Exchange

def transcript (x : Exchange) : Transcript where
  unread := x.unread
  interrupted := x.terminal.input.isInterrupted
  outcomes := x.outcomes

variable {x : Exchange} {queued : List UInt8} {interrupted : Bool}

theorem transcript_of_input (h : x.terminal.input = .opened queued interrupted) :
    x.transcript = ⟨x.reader.pending ++ queued, interrupted, x.outcomes⟩ := by
  rw [transcript, unread, h, ByteQueue.bytes, ByteQueue.isInterrupted]

theorem move_nextLine {outcome : LineReader.Outcome} {reader : LineReader} {terminal : Terminal}
    (h : x.reader.next (Terminal.keystrokes false) x.terminal = (outcome, reader, terminal)) :
    x.move .nextLine = { terminal, reader, outcomes := x.outcomes ++ [outcome] } := by
  rw [move, act, h]

theorem transcript_nextLine (h : x.terminal.input = .opened queued interrupted) :
    (x.move .nextLine).transcript = x.transcript.nextLine ∧
      (x.move .nextLine).terminal.interruptByte = x.terminal.interruptByte ∧
      (x.move .nextLine).terminal.input.isClosed = false := by
  rw [transcript_of_input h, Transcript.nextLine]
  cases hs : Text.splitLine? (x.reader.pending ++ queued) with
  | some found =>
    obtain ⟨line, rest⟩ := found
    obtain ⟨hline, hcut⟩ := Text.splitLine?_eq_some_iff.mp hs
    obtain ⟨pending, left, rfl, hn⟩ := Terminal.next_keystrokes_of_line false h hline hcut
    rw [move_nextLine hn]
    exact ⟨transcript_of_input rfl, rfl, rfl⟩
  | none =>
    have hm := Text.splitLine?_eq_none_iff.mp hs
    cases interrupted with
    | true =>
      rw [move_nextLine (Terminal.next_keystrokes_of_interrupted h hm)]
      exact ⟨transcript_of_input rfl, rfl, rfl⟩
    | false =>
      rw [move_nextLine (Terminal.next_keystrokes_of_notMem false h hm)]
      refine ⟨?_, rfl, rfl⟩
      rw [transcript_of_input rfl, List.append_nil]
      rfl

/-- Each move does to the transcript what it does where there are no reads, and leaves the terminal
open. -/
theorem transcript_move (h : x.terminal.input.isClosed = false) (m : Move) :
    (x.move m).transcript = x.transcript.move x.terminal.interruptByte m ∧
      (x.move m).terminal.interruptByte = x.terminal.interruptByte ∧
      (x.move m).terminal.input.isClosed = false := by
  cases hi : x.terminal.input with
  | closed => simp [hi, ByteQueue.isClosed] at h
  | opened queued interrupted =>
    cases m with
    | type bytes =>
      simp [move, act, Terminal.typeBytes, hi, ByteQueue.isClosed, Terminal.foldl_emissions,
        transcript, Transcript.move, unread, ByteQueue.bytes, ByteQueue.isInterrupted]
    | interrupt =>
      simp [move, Terminal.interrupt, hi, ByteQueue.isClosed, ByteQueue.signalInterrupt,
        transcript, Transcript.move, unread, ByteQueue.bytes, ByteQueue.isInterrupted]
    | nextLine => exact transcript_nextLine hi

theorem transcript_play (h : x.terminal.input.isClosed = false) (moves : List Move) :
    (x.play moves).transcript =
      moves.foldl (Transcript.move x.terminal.interruptByte) x.transcript := by
  induction moves generalizing x with
  | nil => rfl
  | cons m moves ih =>
    obtain ⟨ht, hb, ho⟩ := transcript_move h m
    have ih := ih ho
    rw [ht, hb] at ih
    exact ih

/-- Two readers with reads of any two sizes, each at a terminal of its own where the same is done
in the same order: they yield the same lines, waits and interrupts, and after any sequence of moves
(so after each move of a longer one) the same bytes are unread and the same interrupt is pending. -/
theorem chunkSize_unobservable (interruptByte : UInt8) (size otherSize : Nat)
    (moves : List Move) :
    let x := (start interruptByte size).play moves
    let y := (start interruptByte otherSize).play moves
    x.outcomes = y.outcomes ∧
    x.reader.pending ++ x.terminal.input.bytes = y.reader.pending ++ y.terminal.input.bytes ∧
    x.terminal.input.isInterrupted = y.terminal.input.isInterrupted := by
  intro x y
  have h (n : Nat) : ((start interruptByte n).play moves).transcript =
      moves.foldl (Transcript.move interruptByte) {} := transcript_play rfl moves
  have hxy : x.transcript = y.transcript := (h size).trans (h otherSize).symm
  exact ⟨congrArg Transcript.outcomes hxy, congrArg Transcript.unread hxy,
    congrArg Transcript.interrupted hxy⟩

/-- Where the unread bytes are is all that differs. -/
example :
    let x := (start 3 1).play [.type [97, 10, 98], .nextLine]
    let y := (start 3 4).play [.type [97, 10, 98], .nextLine]
    x.reader.pending = [] ∧ y.reader.pending = [98] ∧ x.outcomes = [.line "a"] ∧
      x.transcript = y.transcript := by
  decide +kernel

end Exchange

end TerminalShell.Channel
