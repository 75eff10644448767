import TerminalShell.Proofs.Channel.LineAccount
import TerminalShell.Proofs.Channel.LineDelivery

/-!
A reader of lines behind the end of its source. What it has kept comes out line by line, then what
follows the last line feed, and then nothing but the end.
-/
namespace TerminalShell.Channel

variable {σ : Type}

namespace ByteSource

/-- Every read fails as the source is closed, however many reads come before it. -/
def Ended (source : ByteSource σ) (s : σ) : Prop :=
  ∀ (sizes : List Nat) (n : Nat),
    (source.read n (sizes.foldl (fun s n => (source.read n s).2) s)).1 = .failed .closed

variable {source : ByteSource σ} {s : σ}

theorem Ended.read (h : source.Ended s) (n : Nat) : (source.read n s).1 = .failed .closed :=
  h [] n

theorem Ended.after_read (h : source.Ended s) (n : Nat) : source.Ended (source.read n s).2 :=
  fun sizes => h (n :: sizes)

theorem ended_of_read_eq (h : ∀ n, source.read n s = (.failed .closed, s)) : source.Ended s := by
  intro sizes n
  have hs : sizes.foldl (fun s n => (source.read n s).2) s = s := by
    induction sizes with
    | nil => rfl
    | cons m sizes ih => rw [List.foldl_cons, h m, ih]
  rw [hs, h n]

end ByteSource

/-- A closed terminal is the end of its keystrokes, whether their reader waits or not. -/
theorem Terminal.keystrokes_ended {t : Terminal} (h : t.input = .closed) (waits : Bool) :
    (keystrokes waits).Ended t := by
  have hread {source : ByteSource ByteQueue} (hs : source.Reports) (n : Nat) :
      source.read n .closed = (.failed .closed, .closed) := hs n .closed (by simp)
  have hsame : { t with input := .closed } = t := by rw [← h]
  apply ByteSource.ended_of_read_eq
  intro n
  cases waits with
  | true =>
    simp [keystrokes, awaitedInput, ByteSource.within, h, hread ByteQueue.awaited_reports, hsame]
  | false =>
    simp [keystrokes, polledInput, ByteSource.within, h, hread ByteQueue.polled_reports, hsame]

/-- Bytes to which no more come: the complete lines, without their line feeds, and what follows the
last of these. -/
structure Remains where
  lines : List (List UInt8)
  tail : List UInt8
  lines_unbroken : ∀ line ∈ lines, 10 ∉ line
  tail_unbroken : 10 ∉ tail

namespace Remains

/-- The bytes in the pieces in which they come out. -/
def pieces (e : Remains) : List (List UInt8) :=
  e.lines.map (· ++ [10]) ++ if e.tail = [] then [] else [e.tail]

/-- What the pieces come out as. Only a line loses a carriage return. -/
def texts (e : Remains) : List String :=
  e.lines.map (fun line => Text.Utf8.decodeLenient (Text.dropReturn line)) ++
    if e.tail = [] then [] else [Text.Utf8.decodeLenient e.tail]

theorem exists_flatten_pieces (bytes : List UInt8) :
    ∃ e : Remains, e.pieces.flatten = bytes := by
  induction bytes with
  | nil => exact ⟨⟨[], [], by simp, by simp⟩, rfl⟩
  | cons b bytes ih =>
    obtain ⟨⟨lines, tail, hlines, htail⟩, rfl⟩ := ih
    by_cases hb : b = 10
    · subst hb
      exact ⟨⟨[] :: lines, tail, List.forall_mem_cons.mpr ⟨by simp, hlines⟩, htail⟩, rfl⟩
    · cases lines with
      | nil =>
        refine ⟨⟨[], b :: tail, by simp, by simpa [Ne.symm hb] using htail⟩, ?_⟩
        by_cases ht : tail = [] <;> simp [pieces, ht]
      | cons line more =>
        obtain ⟨hline, hmore⟩ := List.forall_mem_cons.mp hlines
        refine ⟨⟨(b :: line) :: more, tail, List.forall_mem_cons.mpr ⟨?_, hmore⟩, htail⟩, rfl⟩
        simpa [Ne.symm hb] using hline

end Remains

namespace LineReader

variable {source : ByteSource σ} {s : σ} {r : LineReader}

theorem next_of_ended_of_nil (hs : source.Ended s) (hp : r.pending = []) :
    next source r s = (.failed .closed, r, (source.read r.chunkSize s).2) := by
  have habsorb : r.absorb (source.read r.chunkSize s).1 = (some (.failed .closed), r) := by
    simp [hs.read, absorb, hp]
  exact next_of_outcome source s (by simp [hp]) habsorb

theorem next_of_ended_of_notMem (hs : source.Ended s) (hp : 10 ∉ r.pending)
    (hne : r.pending ≠ []) :
    next source r s = (.line (Text.Utf8.decodeLenient r.pending), { r with pending := [] },
      (source.read r.chunkSize s).2) := by
  have habsorb : r.absorb (source.read r.chunkSize s).1 =
      (some (.line (Text.Utf8.decodeLenient r.pending)), { r with pending := [] }) := by
    simp [hs.read, absorb, hne]
  exact next_of_outcome source s hp habsorb

/-- A call behind the end of the source: the first piece comes out, and if there is none the end
does. -/
theorem next_of_ended (hs : source.Ended s) (e : Remains) (h : e.pieces.flatten = r.pending) :
    (e.pieces = [] ∧ e.texts = [] ∧ (next source r s).1 = .failed .closed ∧
      (next source r s).2.1.pending = [] ∧ source.Ended (next source r s).2.2) ∨
    ∃ (piece : List UInt8) (text : String) (rest : Remains),
      e.pieces = piece :: rest.pieces ∧ e.texts = text :: rest.texts ∧
      (next source r s).1 = .line text ∧
      rest.pieces.flatten = (next source r s).2.1.pending ∧
      source.Ended (next source r s).2.2 := by
  obtain ⟨_ | ⟨line, more⟩, tail, hlines, htail⟩ := e
  · by_cases ht : tail = []
    · left
      subst ht
      have hp : r.pending = [] := h.symm
      rw [next_of_ended_of_nil hs hp]
      exact ⟨rfl, rfl, rfl, hp, hs.after_read r.chunkSize⟩
    · right
      have hp : r.pending = tail := by simp [← h, Remains.pieces, ht]
      rw [next_of_ended_of_notMem hs (hp ▸ htail) (hp ▸ ht), hp]
      exact ⟨tail, _, ⟨[], [], by simp, by simp⟩, by simp [Remains.pieces, ht],
        by simp [Remains.texts, ht], rfl, rfl, hs.after_read r.chunkSize⟩
  · right
    obtain ⟨hline, hmore⟩ := List.forall_mem_cons.mp hlines
    let rest : Remains := ⟨more, tail, hmore, htail⟩
    have hp : r.pending = line ++ 10 :: rest.pieces.flatten := by
      simp [← h, Remains.pieces, rest]
    have htake : r.takeLine? = some (Text.Utf8.decodeLenient (Text.dropReturn line),
        { r with pending := rest.pieces.flatten }) := by
      rw [takeLine?, hp, Text.splitLine?_append hline]
      rfl
    rw [next_of_takeLine? source s htake]
    exact ⟨line ++ [10], _, rest, rfl, rfl, rfl, rfl, hs⟩

/-- Calls in a row behind the end of the source. -/
theorem calls_of_ended (hs : source.Ended s) (e : Remains) (h : e.pieces.flatten = r.pending)
    (k : Nat) :
    (calls source r s k).1 = (e.texts.take k).map .line ++
        List.replicate (k - e.texts.length) (.failed .closed) ∧
      (calls source r s k).2.1.pending = (e.pieces.drop k).flatten := by
  induction k generalizing r s e with
  | zero => exact ⟨by simp [calls], by simp [calls, h]⟩
  | succ k ih =>
    rw [calls]
    rcases next_of_ended hs e h with ⟨hpieces, htexts, hout, hpending, hended⟩ |
      ⟨piece, text, rest, hpieces, htexts, hout, hpending, hended⟩
    · obtain ⟨houts, hlast⟩ := ih hended e (by rw [hpieces, hpending]; rfl)
      simp only [hout, houts, hlast, hpieces, htexts]
      simp [List.replicate_succ]
    · obtain ⟨houts, hlast⟩ := ih hended rest hpending
      simp only [hout, houts, hlast, hpieces, htexts]
      simp

/-- Whatever a reader keeps when its source has ended, and however often it is asked: it yields its
complete lines in order, without their line feeds and a carriage return before these, then what
follows the last line feed as it is, unless that is nothing, and from then on the end. Each call
that yields a text takes just the bytes of that text, so none is lost or comes out twice. -/
theorem ended_source_drained (hs : source.Ended s) (r : LineReader) :
    ∃ e : Remains, e.pieces.flatten = r.pending ∧ e.pieces.length = e.texts.length ∧
      ∀ k, (calls source r s k).1 = (e.texts.take k).map .line ++
          List.replicate (k - e.texts.length) (.failed .closed) ∧
        (calls source r s k).2.1.pending = (e.pieces.drop k).flatten := by
  obtain ⟨e, h⟩ := Remains.exists_flatten_pieces r.pending
  refine ⟨e, h, ?_, calls_of_ended hs e h⟩
  by_cases ht : e.tail = [] <;> simp [Remains.pieces, Remains.texts, ht]

/-- A line that ended with both characters, an empty one, and a carriage return that stays. -/
theorem ended_source_drained_returns :
    let t := ({} : Terminal).close
    let r : LineReader := { pending := [97, 13, 10, 10, 98, 13] }
    (Terminal.keystrokes true).Ended t ∧
      (calls (Terminal.keystrokes true) r t 5).1 =
        [.line "a", .line "", .line "b\r", .failed .closed, .failed .closed] ∧
      ∃ e : Remains, e.pieces.flatten = r.pending ∧
        (calls (Terminal.keystrokes true) r t 2).2.1.pending = (e.pieces.drop 2).flatten := by
  intro t r
  have hs : (Terminal.keystrokes true).Ended t := Terminal.keystrokes_ended rfl true
  obtain ⟨e, h, -, hcalls⟩ := ended_source_drained hs r
  exact ⟨hs, by decide +kernel, e, h, (hcalls 2).2⟩

end LineReader

end TerminalShell.Channel
