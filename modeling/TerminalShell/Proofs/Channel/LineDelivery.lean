import TerminalShell.Channel.Terminal
import TerminalShell.Proofs.Channel.LineReading
import TerminalShell.Proofs.Text.EncodedText
import TerminalShell.Proofs.Text.Splitting

/-!
Texts that a screen types line by line, in pieces of any kind, come to the command as they are: in
order, once each, and all of them when the command has read what was typed.
-/
namespace TerminalShell.Channel

inductive LineEnd where
  | lf
  | crlf
  deriving DecidableEq, Repr

def LineEnd.bytes : LineEnd → List UInt8
  | .lf => [10]
  | .crlf => [13, 10]

structure SentLine where
  text : String
  ending : LineEnd

namespace SentLine

def bytes (line : SentLine) : List UInt8 := Text.Utf8.encode line.text ++ line.ending.bytes

/-- A text of one line, which neither ends as if its terminator had begun nor interrupts. -/
structure IsPlain (interruptByte : UInt8) (line : SentLine) : Prop where
  no_feed : '\n' ∉ line.text.toList
  no_return : line.text.toList.getLast? ≠ some '\r'
  no_interrupt : interruptByte ∉ Text.Utf8.encode line.text

variable {interruptByte : UInt8} {line : SentLine}

/-- A plain line is one line of bytes, which hold its text. -/
theorem IsPlain.bytes_eq (h : line.IsPlain interruptByte) :
    ∃ body, line.bytes = body ++ [10] ∧ 10 ∉ body ∧
      Text.Utf8.decodeLenient (Text.dropReturn body) = line.text := by
  have hfeed : (10 : UInt8) ∉ Text.Utf8.encode line.text :=
    mt (Text.Utf8.mem_encode_iff (a := '\n') (by decide) line.text).mp h.no_feed
  unfold SentLine.bytes
  cases line.ending with
  | lf =>
    refine ⟨Text.Utf8.encode line.text, rfl, hfeed, ?_⟩
    rw [Text.dropReturn_encode h.no_return, Text.Utf8.decodeLenient_encode]
  | crlf =>
    refine ⟨Text.Utf8.encode line.text ++ [13], by simp [LineEnd.bytes], by simp [hfeed], ?_⟩
    rw [Text.dropReturn_concat, Text.Utf8.decodeLenient_encode]

theorem IsPlain.notMem_bytes (h : line.IsPlain interruptByte) (hf : interruptByte ≠ 10)
    (hr : interruptByte ≠ 13) : interruptByte ∉ line.bytes := by
  unfold SentLine.bytes
  cases line.ending <;> simp [LineEnd.bytes, h.no_interrupt, hf, hr]

end SentLine

namespace Terminal

def keystrokes (waits : Bool) : ByteSource Terminal := if waits then awaitedInput else polledInput

theorem emissions_of_notMem {interruptByte : UInt8} {bytes : List UInt8}
    (h : interruptByte ∉ bytes) : emissions interruptByte bytes = [.data bytes] := by
  have hp : Text.pieces (· == interruptByte) bytes = [bytes] := by
    rw [Text.pieces_eq_splitOnP]
    exact List.splitOnP_eq_singleton fun b hb => beq_false_of_ne (ne_of_mem_of_not_mem hb h)
  rw [emissions, hp]
  rfl

/-- Bytes that do not interrupt go to the input queue as they are. -/
theorem typeBytes_of_notMem {t : Terminal} {bytes queued : List UInt8} {interrupted : Bool}
    (ht : t.input = .opened queued interrupted) (h : t.interruptByte ∉ bytes) :
    t.typeBytes bytes =
      (.ok bytes.length, { t with input := .opened (queued ++ bytes) interrupted }) := by
  simp [typeBytes, emissions_of_notMem h, ht, ByteQueue.isClosed, Emission.apply, ByteQueue.write]

/-- A reader of the keystrokes touches nothing but the input queue. -/
theorem next_within_input (source : ByteSource ByteQueue) (r : LineReader) (t : Terminal) :
    r.next (source.within input (fun q t => { t with input := q }) fun _ _ => rfl) t =
      ((r.next source t.input).1, (r.next source t.input).2.1,
        { t with input := (r.next source t.input).2.2 }) :=
  LineReader.next_within source _ (by intros; rfl) (by intro; rfl) r t

variable {r : LineReader} {t : Terminal} {queued : List UInt8}

/-- A command that finds a line takes it, whether it would have waited or not. -/
theorem next_keystrokes_of_line (waits : Bool) {line rest : List UInt8} {interrupted : Bool}
    (ht : t.input = .opened queued interrupted) (hl : 10 ∉ line)
    (h : r.pending ++ queued = line ++ 10 :: rest) :
    ∃ pending left, pending ++ left = rest ∧
      r.next (keystrokes waits) t =
        (.line (Text.Utf8.decodeLenient (Text.dropReturn line)), { r with pending := pending },
          { t with input := .opened left interrupted }) := by
  have hs (source : ByteSource ByteQueue) (hsource : source.Reports) :
      ∃ pending left, pending ++ left = rest ∧
        r.next (source.within input (fun q t => { t with input := q }) fun _ _ => rfl) t =
          (.line (Text.Utf8.decodeLenient (Text.dropReturn line)), { r with pending := pending },
            { t with input := .opened left interrupted }) := by
    obtain ⟨pending, left, hrest, hn⟩ := LineReader.next_opened_of_line hsource hl h
    refine ⟨pending, left, hrest, ?_⟩
    rw [next_within_input, ht, hn]
  cases waits with
  | true => exact hs _ ByteQueue.awaited_reports
  | false => exact hs _ ByteQueue.polled_reports

/-- A command that finds no line takes what there is and tells so, or waits. -/
theorem next_keystrokes_of_notMem (waits : Bool) (ht : t.input = .opened queued false)
    (h : 10 ∉ r.pending ++ queued) :
    r.next (keystrokes waits) t =
      (if waits then .waiting else .incomplete, { r with pending := r.pending ++ queued },
        { t with input := .opened [] false }) := by
  cases waits with
  | true =>
    rw [keystrokes, if_pos rfl, awaitedInput, next_within_input, ht,
      LineReader.next_awaited_of_notMem h]
    rfl
  | false =>
    rw [keystrokes, if_neg Bool.false_ne_true, polledInput, next_within_input, ht,
      LineReader.next_polled_of_notMem h]
    rfl

end Terminal

inductive Act where
  | type (bytes : List UInt8)
  | nextLine (waits : Bool)
  deriving DecidableEq, Repr

def Act.typed : Act → List UInt8
  | .type bytes => bytes
  | .nextLine _ => []

/-- A terminal, the command's reader of it, and what the reader has yielded. A wait counts as
an outcome: the next wish goes on with it. -/
structure Exchange where
  terminal : Terminal
  reader : LineReader
  outcomes : List LineReader.Outcome := []

namespace Exchange

def start (interruptByte : UInt8) (chunkSize : Nat) : Exchange where
  terminal := { interruptByte }
  reader := .ofChunkSize chunkSize

def act (x : Exchange) : Act → Exchange
  | .type bytes => { x with terminal := (x.terminal.typeBytes bytes).2 }
  | .nextLine waits =>
    let (outcome, reader, terminal) := x.reader.next (Terminal.keystrokes waits) x.terminal
    { terminal, reader, outcomes := x.outcomes ++ [outcome] }

def run (x : Exchange) (acts : List Act) : Exchange := acts.foldl act x

def poll (x : Exchange) : LineReader.Outcome × LineReader × Terminal :=
  x.reader.next Terminal.polledInput x.terminal

def lines (x : Exchange) : List String :=
  x.outcomes.filterMap fun
    | .line text => some text
    | _ => none

/-- Between the acts: of the lines sent, those in `rest` are still to come, and their bytes are
pending in the reader, queued in the terminal, or to be typed later. -/
structure Awaits (interruptByte : UInt8) (sent : List SentLine) (later : List UInt8)
    (rest : List SentLine) (x : Exchange) : Prop where
  input_eq : x.terminal.input = .opened x.terminal.input.bytes false
  interruptByte_eq : x.terminal.interruptByte = interruptByte
  plain : ∀ line ∈ rest, line.IsPlain interruptByte
  bytes_eq : x.reader.pending ++ x.terminal.input.bytes ++ later = rest.flatMap SentLine.bytes
  lines_eq : x.lines ++ rest.map SentLine.text = sent.map SentLine.text
  not_failed : ∀ e, .failed e ∉ x.outcomes

variable {interruptByte : UInt8} {sent rest : List SentLine} {later : List UInt8} {x : Exchange}

theorem awaits_start (chunkSize : Nat) (hp : ∀ line ∈ sent, line.IsPlain interruptByte) :
    (start interruptByte chunkSize).Awaits interruptByte sent (sent.flatMap SentLine.bytes) sent :=
  ⟨rfl, rfl, hp, rfl, rfl, by simp [start]⟩

theorem Awaits.act_type {bytes : List UInt8}
    (h : x.Awaits interruptByte sent (bytes ++ later) rest) (hf : interruptByte ≠ 10)
    (hr : interruptByte ≠ 13) : (x.act (.type bytes)).Awaits interruptByte sent later rest := by
  have hi : x.terminal.interruptByte ∉ bytes := by
    intro hm
    have hall : interruptByte ∈ rest.flatMap SentLine.bytes := by
      rw [← h.bytes_eq, ← h.interruptByte_eq]
      exact List.mem_append_right _ (List.mem_append_left _ hm)
    obtain ⟨line, hl, hb⟩ := List.mem_flatMap.mp hall
    exact (h.plain line hl).notMem_bytes hf hr hb
  have ht : (x.act (.type bytes)).terminal =
      { x.terminal with input := .opened (x.terminal.input.bytes ++ bytes) false } :=
    congrArg Prod.snd (Terminal.typeBytes_of_notMem h.input_eq hi)
  constructor
  case input_eq => rw [ht]; rfl
  case interruptByte_eq => rw [ht]; exact h.interruptByte_eq
  case plain => exact h.plain
  case bytes_eq =>
    rw [ht, ← h.bytes_eq]
    simp [act, ByteQueue.bytes]
  case lines_eq => exact h.lines_eq
  case not_failed => exact h.not_failed

/-- The first line to come is what a line feed among the bytes that have come belongs to. -/
theorem Awaits.exists_line (h : x.Awaits interruptByte sent later rest)
    (hm : 10 ∈ x.reader.pending ++ x.terminal.input.bytes) :
    ∃ line more body tail, rest = line :: more ∧ 10 ∉ body ∧
      Text.Utf8.decodeLenient (Text.dropReturn body) = line.text ∧
      x.reader.pending ++ x.terminal.input.bytes = body ++ 10 :: tail ∧
      tail ++ later = more.flatMap SentLine.bytes := by
  obtain ⟨⟨found, tail⟩, hs⟩ := Option.ne_none_iff_exists'.mp
    (mt Text.splitLine?_eq_none_iff.mp (not_not_intro hm))
  obtain ⟨hfound, hcut⟩ := Text.splitLine?_eq_some_iff.mp hs
  have hb := h.bytes_eq
  rw [hcut, List.append_assoc, List.cons_append] at hb
  cases rest with
  | nil => simp at hb
  | cons line more =>
    obtain ⟨body, hline, hbody, htext⟩ := (h.plain line List.mem_cons_self).bytes_eq
    rw [List.flatMap_cons, hline, List.append_assoc, List.singleton_append] at hb
    obtain ⟨rfl, htail⟩ := Text.firstLine_inj hfound hbody hb
    exact ⟨line, more, found, tail, rfl, hbody, htext, hcut, htail⟩

theorem Awaits.act_nextLine (h : x.Awaits interruptByte sent later rest) (waits : Bool) :
    ∃ rest', (x.act (.nextLine waits)).Awaits interruptByte sent later rest' := by
  by_cases hm : 10 ∈ x.reader.pending ++ x.terminal.input.bytes
  · obtain ⟨line, more, body, tail, rfl, hbody, htext, hcut, htail⟩ := h.exists_line hm
    obtain ⟨pending, left, hleft, hn⟩ :=
      Terminal.next_keystrokes_of_line waits h.input_eq hbody hcut
    obtain ⟨-, hplain⟩ := List.forall_mem_cons.mp h.plain
    refine ⟨more, ?_⟩
    rw [act, hn]
    constructor
    case input_eq => rfl
    case interruptByte_eq => exact h.interruptByte_eq
    case plain => exact hplain
    case bytes_eq => simpa only [ByteQueue.bytes, hleft] using htail
    case lines_eq =>
      rw [← h.lines_eq]
      simp [lines, htext]
    case not_failed => simpa using h.not_failed
  · refine ⟨rest, ?_⟩
    rw [act, Terminal.next_keystrokes_of_notMem waits h.input_eq hm]
    constructor
    case input_eq => rfl
    case interruptByte_eq => exact h.interruptByte_eq
    case plain => exact h.plain
    case bytes_eq =>
      rw [← h.bytes_eq]
      simp [ByteQueue.bytes]
    case lines_eq =>
      rw [← h.lines_eq]
      cases waits <;> simp [lines]
    case not_failed => cases waits <;> simpa using h.not_failed

theorem Awaits.run {acts : List Act} (hf : interruptByte ≠ 10) (hr : interruptByte ≠ 13)
    (h : x.Awaits interruptByte sent (acts.flatMap Act.typed ++ later) rest) :
    ∃ rest', (x.run acts).Awaits interruptByte sent later rest' := by
  induction acts generalizing x rest with
  | nil => exact ⟨rest, h⟩
  | cons a acts ih =>
    rw [List.flatMap_cons, List.append_assoc] at h
    cases a with
    | type bytes => exact ih (h.act_type hf hr)
    | nextLine waits =>
      obtain ⟨rest', h'⟩ := h.act_nextLine waits
      exact ih h'

theorem Awaits.length_lines (h : x.Awaits interruptByte sent later rest) :
    x.lines.length = sent.length ↔ rest = [] := by
  have hl := congrArg List.length h.lines_eq
  simp only [List.length_append, List.length_map] at hl
  rw [← List.length_eq_zero_iff]
  omega

/-- When no line is to come, nothing is left anywhere, and the command learns so. -/
theorem Awaits.nothing_left (h : x.Awaits interruptByte sent later []) :
    later = [] ∧ x.reader.pending = [] ∧ x.terminal.input.bytes = [] ∧
      x.poll = (.incomplete, x.reader, x.terminal) := by
  obtain ⟨hp, hq, hlater⟩ :
      x.reader.pending = [] ∧ x.terminal.input.bytes = [] ∧ later = [] := by
    simpa using h.bytes_eq
  have hm : 10 ∉ x.reader.pending ++ x.terminal.input.bytes := by simp [hp, hq]
  have hpoll : x.poll = _ := Terminal.next_keystrokes_of_notMem false h.input_eq hm
  refine ⟨hlater, hp, hq, ?_⟩
  rw [hpoll, hq, List.append_nil, ← hq, ← h.input_eq]
  rfl

/-- While a line that has been typed is to come, a command that asks gets it. -/
theorem Awaits.poll_ne_incomplete (h : x.Awaits interruptByte sent [] rest) (hne : rest ≠ []) :
    x.poll.1 ≠ .incomplete := by
  obtain ⟨line, more, rfl⟩ := List.exists_cons_of_ne_nil hne
  obtain ⟨body, hline, -⟩ := (h.plain line List.mem_cons_self).bytes_eq
  have hm : 10 ∈ x.reader.pending ++ x.terminal.input.bytes := by
    have hb := h.bytes_eq
    rw [List.append_nil, List.flatMap_cons, hline] at hb
    simp [hb]
  obtain ⟨_, _, body, tail, _, hbody, _, hcut, _⟩ := h.exists_line hm
  obtain ⟨pending, left, -, hn⟩ :=
    Terminal.next_keystrokes_of_line false h.input_eq hbody hcut
  have hpoll : x.poll = _ := hn
  simp [hpoll]

/-- Over every cutting of the lines sent into typed pieces and every interleaving with wishes for
a line: the command gets the texts sent, in order, and no failure; once all has been typed, it is
told that there is no line exactly when it has got them all, and then nothing is left anywhere. -/
theorem lines_delivered (hf : interruptByte ≠ 10) (hr : interruptByte ≠ 13) (chunkSize : Nat)
    {acts : List Act} (hp : ∀ line ∈ sent, line.IsPlain interruptByte)
    (ht : acts.flatMap Act.typed ++ later = sent.flatMap SentLine.bytes) :
    let x := (start interruptByte chunkSize).run acts
    x.lines <+: sent.map SentLine.text ∧
    (∀ e, .failed e ∉ x.outcomes) ∧
    (later = [] → (x.poll.1 = .incomplete ↔ x.lines.length = sent.length)) ∧
    (x.lines.length = sent.length →
      later = [] ∧ x.lines = sent.map SentLine.text ∧ x.reader.pending = [] ∧
      x.terminal.input.bytes = [] ∧ x.poll = (.incomplete, x.reader, x.terminal)) := by
  intro x
  obtain ⟨rest, h⟩ : ∃ rest, x.Awaits interruptByte sent later rest :=
    Awaits.run hf hr (ht ▸ awaits_start chunkSize hp)
  refine ⟨⟨_, h.lines_eq⟩, h.not_failed, ?_, ?_⟩
  · rintro rfl
    rw [h.length_lines]
    constructor
    · intro hpoll
      by_contra hne
      exact h.poll_ne_incomplete hne hpoll
    · rintro rfl
      rw [h.nothing_left.2.2.2]
  · intro hall
    obtain rfl := h.length_lines.mp hall
    obtain ⟨hlater, hpending, hqueued, hpoll⟩ := h.nothing_left
    exact ⟨hlater, by simpa using h.lines_eq, hpending, hqueued, hpoll⟩

/-- A character and a line end typed in two pieces each, to a reader of single bytes. -/
theorem lines_delivered_in_pieces :
    let x := (start 3 0).run [.type [195], .nextLine false, .type [169, 13], .nextLine true,
      .type [10, 98], .nextLine true, .nextLine true, .type [10], .nextLine false]
    x.lines = ["é", "b"] ∧ x.reader.pending = [] ∧ x.terminal.input.bytes = [] ∧
      x.poll = (.incomplete, x.reader, x.terminal) := by
  have hp : ∀ line ∈ [SentLine.mk "é" .crlf, SentLine.mk "b" .lf], line.IsPlain 3 := by
    intro line hl
    simp only [List.mem_cons, List.not_mem_nil, or_false] at hl
    rcases hl with rfl | rfl <;> exact ⟨by decide, by decide, by decide⟩
  intro x
  have hall : x.lines.length = 2 := by decide +kernel
  exact ((@lines_delivered 3 _ [] (by decide) (by decide) 0 _ hp (by rfl)).2.2.2 hall).2

end Exchange

end TerminalShell.Channel
