import TerminalShell.Channel.Script
import TerminalShell.Proofs.Channel.LineReading
import TerminalShell.Proofs.Text.DecodedText

/-!
What becomes of the bytes that a source delivers to a reader of lines. Whatever the source mixes
them with, each of them is in a line that came out, in a line that an interrupt threw away, in what
the end of the source made the last line, or still with the reader, and all in their order.
-/
namespace TerminalShell.Channel

def Reading.bytes : Reading → List UInt8
  | .delivered bytes => bytes
  | .failed _ => []
  | .waiting => []

/-- The bytes that have come with some readings. -/
def delivered (readings : List Reading) : List UInt8 := readings.flatMap Reading.bytes

@[simp] theorem delivered_append (first second : List Reading) :
    delivered (first ++ second) = delivered first ++ delivered second := List.flatMap_append

/-- The source that also notes everything it yields. -/
def ByteSource.recorded {σ : Type} (source : ByteSource σ) : ByteSource (σ × List Reading) where
  read n s :=
    ((source.read n s.1).1, (source.read n s.1).2, s.2 ++ [(source.read n s.1).1])
  remaining s := source.remaining s.1
  size_add_remaining_le n s := source.size_add_remaining_le n s.1

namespace LineReader

variable {σ : Type}

/-- The outcomes of `k` calls in a row, and what they leave. -/
def calls (source : ByteSource σ) (r : LineReader) (s : σ) :
    Nat → List Outcome × LineReader × σ
  | 0 => ([], r, s)
  | k + 1 =>
    let (outcome, r, s) := next source r s
    let (outcomes, r, s) := calls source r s k
    (outcome :: outcomes, r, s)

/-- What takes bytes off the front of those that a reader keeps. -/
inductive Event where
  /-- A line with its line feed. -/
  | line (raw : List UInt8)
  /-- An unfinished line that an interrupt throws away. -/
  | discarded (bytes : List UInt8)
  /-- An unfinished line that the end of the source makes the last one. -/
  | flushed (bytes : List UInt8)
  deriving DecidableEq, Repr

def Event.bytes : Event → List UInt8
  | .line raw => raw
  | .discarded bytes => bytes
  | .flushed bytes => bytes

/-- Readings after which a call goes on: each brings some bytes. -/
def Bring (readings : List Reading) : Prop :=
  ∀ reading ∈ readings, ∃ bytes, bytes ≠ [] ∧ reading = .delivered bytes

/-- One call: the bytes kept before it, the readings it gets, its outcome, the event that this
completes if any, and the bytes kept after it. -/
inductive Turn : List UInt8 → List Reading → Outcome → Option Event → List UInt8 → Prop where
  | line {before body after : List UInt8} {readings : List Reading} (hr : Bring readings)
      (hbody : 10 ∉ body) (h : before ++ delivered readings = body ++ 10 :: after) :
      Turn before readings (.line (Text.Utf8.decodeLenient (Text.dropReturn body)))
        (some (.line (body ++ [10]))) after
  | discarded {before bytes : List UInt8} {readings : List Reading} (hr : Bring readings)
      (hbytes : 10 ∉ bytes) (h : before ++ delivered readings = bytes) :
      Turn before (readings ++ [.failed .interrupted]) (.failed .interrupted)
        (some (.discarded bytes)) []
  | flushed {before bytes : List UInt8} {readings : List Reading} (hr : Bring readings)
      (hne : bytes ≠ []) (hbytes : 10 ∉ bytes) (h : before ++ delivered readings = bytes) :
      Turn before (readings ++ [.failed .closed]) (.line (Text.Utf8.decodeLenient bytes))
        (some (.flushed bytes)) []
  | closed : Turn [] [.failed .closed] (.failed .closed) none []
  | incomplete {before after : List UInt8} {readings : List Reading} (hr : Bring readings)
      (hafter : 10 ∉ after) (h : before ++ delivered readings = after) :
      Turn before (readings ++ [.delivered []]) .incomplete none after
  | waiting {before after : List UInt8} {readings : List Reading} (hr : Bring readings)
      (hafter : 10 ∉ after) (h : before ++ delivered readings = after) :
      Turn before (readings ++ [.waiting]) .waiting none after

/-- Calls in a row, with all their readings and the events that they complete. -/
inductive Turns : List UInt8 → List Reading → List Outcome → List Event → List UInt8 → Prop where
  | nil (kept : List UInt8) : Turns kept [] [] [] kept
  | cons {before middle after : List UInt8} {readings more : List Reading} {outcome : Outcome}
      {outcomes : List Outcome} {event : Option Event} {events : List Event}
      (first : Turn before readings outcome event middle)
      (rest : Turns middle more outcomes events after) :
      Turns before (readings ++ more) (outcome :: outcomes) (event.toList ++ events) after

section Turn

variable {before after : List UInt8} {readings : List Reading} {outcome : Outcome}
  {event : Option Event}

theorem Turn.more {bytes : List UInt8} (hne : bytes ≠ [])
    (h : Turn (before ++ bytes) readings outcome event after) :
    Turn before (.delivered bytes :: readings) outcome event after := by
  generalize hb : before ++ bytes = all at h
  have hcons (readings : List Reading) :
      before ++ delivered (.delivered bytes :: readings) = all ++ delivered readings := by
    rw [← hb, List.append_assoc]
    rfl
  have hbring {readings : List Reading} (hr : Bring readings) :
      Bring (.delivered bytes :: readings) := List.forall_mem_cons.mpr ⟨⟨bytes, hne, rfl⟩, hr⟩
  cases h with
  | line hr hbody h => exact .line (hbring hr) hbody ((hcons _).trans h)
  | discarded hr hbytes h => exact .discarded (hbring hr) hbytes ((hcons _).trans h)
  | flushed hr hne hbytes h => exact .flushed (hbring hr) hne hbytes ((hcons _).trans h)
  | closed => exact absurd (List.append_eq_nil_iff.mp hb).2 hne
  | incomplete hr hafter h => exact .incomplete (hbring hr) hafter ((hcons _).trans h)
  | waiting hr hafter h => exact .waiting (hbring hr) hafter ((hcons _).trans h)

/-- A call neither loses nor reorders bytes: those kept and those that come are those of its event
and those kept after it. -/
theorem Turn.conserves (h : Turn before readings outcome event after) :
    before ++ delivered readings = event.toList.flatMap Event.bytes ++ after := by
  cases h with
  | line hr hbody h => simp [h, Event.bytes]
  | discarded hr hbytes h | flushed hr hne hbytes h =>
    simp [← h, Event.bytes, delivered, Reading.bytes]
  | closed => rfl
  | incomplete hr hafter h | waiting hr hafter h => simp [← h, delivered, Reading.bytes]

theorem notMem_dropReturn {line : List UInt8} (h : 10 ∉ line) : 10 ∉ Text.dropReturn line := by
  unfold Text.dropReturn
  split
  · exact fun hm => h (List.dropLast_subset line hm)
  · exact h

theorem notMem_decodeLenient {bytes : List UInt8} (h : 10 ∉ bytes) :
    '\n' ∉ (Text.Utf8.decodeLenient bytes).toList :=
  fun hm => h (Text.Utf8.mem_of_mem_decodeLenient (by decide) (by decide) hm)

theorem Turn.notMem_line {text : String} (h : Turn before readings (.line text) event after) :
    '\n' ∉ text.toList := by
  cases h with
  | line hr hbody h => exact notMem_decodeLenient (notMem_dropReturn hbody)
  | flushed hr hne hbytes h => exact notMem_decodeLenient hbytes

/-- A wait of the reader is one of its source. -/
theorem Turn.waiting_mem (h : Turn before readings .waiting event after) : .waiting ∈ readings := by
  cases h with
  | waiting hr hafter h => simp

end Turn

/-- The reading that ends a call of a reader without a complete line. -/
theorem turn_of_absorb {r r' : LineReader} {reading : Reading} {outcome : Outcome}
    (hr : 10 ∉ r.pending) (h : r.absorb reading = (some outcome, r')) :
    ∃ event, Turn r.pending [reading] outcome event r'.pending := by
  have hnone : Bring [] := List.forall_mem_nil _
  have hkept : r.pending ++ delivered [] = r.pending := List.append_nil r.pending
  match reading with
  | .delivered bytes =>
    by_cases hb : bytes.isEmpty
    · obtain rfl := List.isEmpty_iff.mp hb
      simp only [absorb, hb, if_true, Prod.mk.injEq, Option.some.injEq] at h
      obtain ⟨rfl, rfl⟩ := h
      exact ⟨none, .incomplete hnone hr hkept⟩
    · simp [absorb, hb] at h
  | .failed .interrupted =>
    simp only [absorb, Prod.mk.injEq, Option.some.injEq] at h
    obtain ⟨rfl, rfl⟩ := h
    exact ⟨_, .discarded hnone hr hkept⟩
  | .failed .closed =>
    by_cases hp : r.pending.isEmpty
    · simp only [absorb, hp, if_true, Prod.mk.injEq, Option.some.injEq] at h
      obtain ⟨rfl, rfl⟩ := h
      rw [List.isEmpty_iff.mp hp]
      exact ⟨none, .closed⟩
    · simp only [absorb, hp, Bool.false_eq_true, if_false, Prod.mk.injEq, Option.some.injEq] at h
      obtain ⟨rfl, rfl⟩ := h
      exact ⟨_, .flushed hnone (by simpa using hp) hr hkept⟩
  | .waiting =>
    simp only [absorb, Prod.mk.injEq, Option.some.injEq] at h
    obtain ⟨rfl, rfl⟩ := h
    exact ⟨none, .waiting hnone hr hkept⟩

/-- The reading after which a call goes on. -/
theorem delivered_of_absorb {r r' : LineReader} {reading : Reading}
    (h : r.absorb reading = (none, r')) :
    ∃ bytes, bytes ≠ [] ∧ reading = .delivered bytes ∧ r'.pending = r.pending ++ bytes := by
  match reading with
  | .delivered bytes =>
    by_cases hb : bytes.isEmpty
    · simp [absorb, hb] at h
    · simp only [absorb, hb, Bool.false_eq_true, if_false, Prod.mk.injEq, true_and] at h
      subst h
      exact ⟨bytes, by simpa using hb, rfl, rfl⟩
  | .failed .interrupted => simp [absorb] at h
  | .failed .closed =>
    simp only [absorb] at h
    split at h <;> simp at h
  | .waiting => simp [absorb] at h

/-- To note what a source yields changes nothing, and what is noted during a call are the readings
of a turn. -/
theorem next_recorded (source : ByteSource σ) (r : LineReader) (s : σ) (log : List Reading) :
    ∃ readings event,
      next source.recorded r (s, log) =
        ((next source r s).1, (next source r s).2.1, (next source r s).2.2, log ++ readings) ∧
      Turn r.pending readings (next source r s).1 event (next source r s).2.1.pending := by
  fun_induction next source r s generalizing log with
  | case1 r s text r' h =>
    obtain ⟨line, rest, hline, hcut, rfl, rfl⟩ := takeLine?_eq_some h
    refine ⟨[], _, ?_, .line (List.forall_mem_nil _) hline ((List.append_nil _).trans hcut)⟩
    rw [next_of_takeLine? _ _ h, List.append_nil]
  | case2 r s hnone outcome r' h =>
    have hr := takeLine?_eq_none_iff.mp hnone
    obtain ⟨event, hturn⟩ := turn_of_absorb hr h
    exact ⟨_, event, next_of_outcome source.recorded (s, log) hr h, hturn⟩
  | case3 r s hnone r' h _ _ ih =>
    have hr := takeLine?_eq_none_iff.mp hnone
    obtain ⟨bytes, hne, hreading, hpending⟩ := delivered_of_absorb h
    obtain ⟨readings, event, hnext, hturn⟩ := ih (log ++ [(source.read r.chunkSize s).1])
    refine ⟨(source.read r.chunkSize s).1 :: readings, event, ?_, ?_⟩
    · rw [next_of_more source.recorded (s, log) hr h]
      exact hnext.trans (by rw [List.append_assoc, List.singleton_append])
    · rw [hpending] at hturn
      rw [hreading]
      exact hturn.more hne

/-- What every read of a source keeps, a call keeps. -/
theorem next_preserves (source : ByteSource σ) {p : σ → Prop}
    (hp : ∀ n s, p s → p (source.read n s).2) (r : LineReader) (s : σ) (hs : p s) :
    p (next source r s).2.2 := by
  fun_induction next source r s with
  | case1 r s text r' h => exact hs
  | case2 r s hnone outcome r' h => exact hp _ _ hs
  | case3 r s hnone r' h _ _ ih => exact ih (hp _ _ hs)

theorem calls_preserves (source : ByteSource σ) {p : σ → Prop}
    (hp : ∀ n s, p s → p (source.read n s).2) (r : LineReader) (s : σ) (k : Nat) (hs : p s) :
    p (calls source r s k).2.2 := by
  induction k generalizing r s with
  | zero => exact hs
  | succ k ih => exact ih _ _ (next_preserves source hp r s hs)

theorem length_calls (source : ByteSource σ) (r : LineReader) (s : σ) (k : Nat) :
    (calls source r s k).1.length = k := by
  induction k generalizing r s with
  | zero => rfl
  | succ k ih => exact congrArg Nat.succ (ih _ _)

theorem calls_recorded (source : ByteSource σ) (r : LineReader) (s : σ) (log : List Reading)
    (k : Nat) :
    ∃ readings events,
      calls source.recorded r (s, log) k =
        ((calls source r s k).1, (calls source r s k).2.1, (calls source r s k).2.2,
          log ++ readings) ∧
      Turns r.pending readings (calls source r s k).1 events (calls source r s k).2.1.pending := by
  induction k generalizing r s log with
  | zero => exact ⟨[], [], by rw [List.append_nil]; rfl, .nil _⟩
  | succ k ih =>
    obtain ⟨readings, event, hnext, hturn⟩ := next_recorded source r s log
    obtain ⟨more, events, hcalls, hturns⟩ :=
      ih (next source r s).2.1 (next source r s).2.2 (log ++ readings)
    refine ⟨readings ++ more, event.toList ++ events, ?_, .cons hturn hturns⟩
    simp only [calls, hnext, hcalls, List.append_assoc]

section Turns

variable {before after : List UInt8} {readings : List Reading} {outcomes : List Outcome}
  {events : List Event}

theorem Turns.conserves (h : Turns before readings outcomes events after) :
    before ++ delivered readings = events.flatMap Event.bytes ++ after := by
  induction h with
  | nil kept => simp [delivered]
  | cons first rest ih =>
    rw [delivered_append, ← List.append_assoc, first.conserves, List.append_assoc, ih,
      List.flatMap_append, List.append_assoc]

theorem Turns.notMem_line {text : String} (h : Turns before readings outcomes events after)
    (hm : .line text ∈ outcomes) : '\n' ∉ text.toList := by
  induction h with
  | nil kept => contradiction
  | cons first rest ih =>
    rcases List.mem_cons.mp hm with rfl | hm
    · exact first.notMem_line
    · exact ih hm

theorem Turns.waiting_mem (h : Turns before readings outcomes events after)
    (hm : .waiting ∈ outcomes) : .waiting ∈ readings := by
  induction h with
  | nil kept => contradiction
  | cons first rest ih =>
    rcases List.mem_cons.mp hm with rfl | hm
    · exact List.mem_append_left _ first.waiting_mem
    · exact List.mem_append_right _ (ih hm)

end Turns

end LineReader

namespace Script

def Item.bytes : Item → List UInt8
  | .failure _ => []
  | .data bytes => bytes

/-- All bytes that a script still holds. -/
def contents (script : Script) : List UInt8 := script.flatMap Item.bytes

theorem bytes_read (n : Nat) (script : Script) :
    (script.read n).1.bytes ++ (script.read n).2.contents = script.contents := by
  cases script with
  | nil => rfl
  | cons item rest =>
    cases item with
    | failure e => rfl
    | data bytes =>
      by_cases h : bytes.length ≤ n
      · simp [read, h, Reading.bytes, contents, Item.bytes, List.take_of_length_le h]
      · simp [read, h, Reading.bytes, contents, Item.bytes, ← List.append_assoc]

theorem read_ne_waiting (n : Nat) (script : Script) : (script.read n).1 ≠ .waiting := by
  cases script with
  | nil => simp [read]
  | cons item rest => cases item <;> simp [read]

/-- What has been noted and what the script still holds are the script, and nobody has waited. -/
structure Recorded (script : Script) (s : Script × List Reading) : Prop where
  contents_eq : delivered s.2 ++ s.1.contents = script.contents
  not_waiting : .waiting ∉ s.2

theorem recorded_start (script : Script) : Recorded script (script, []) :=
  ⟨rfl, List.not_mem_nil⟩

theorem Recorded.read {script : Script} (n : Nat) (s : Script × List Reading)
    (h : Recorded script s) : Recorded script (source.recorded.read n s).2 where
  contents_eq := by
    rw [← h.contents_eq, ← bytes_read n s.1]
    simp [ByteSource.recorded, source, delivered]
  not_waiting := by
    simpa [ByteSource.recorded, source, h.not_waiting] using (read_ne_waiting n s.1).symm

end Script

namespace LineReader

/-- Over every script of data, empty reads, interrupts and closes, every size of the reads and
every number of calls: each call comes back; the bytes delivered so far are, in order, those of one
event for each call that yields a line or an interrupt, and those that the reader keeps; they are
all that the script has lost; and no line that comes out has a line feed in it. -/
theorem script_bytes_accounted (script : Script) (chunkSize k : Nat) :
    ∃ outcomes reader left readings events,
      (ofChunkSize chunkSize).calls Script.source.recorded (script, []) k =
        (outcomes, reader, left, readings) ∧
      (ofChunkSize chunkSize).calls Script.source script k = (outcomes, reader, left) ∧
      outcomes.length = k ∧
      .waiting ∉ outcomes ∧
      Turns [] readings outcomes events reader.pending ∧
      delivered readings = events.flatMap Event.bytes ++ reader.pending ∧
      delivered readings ++ left.contents = script.contents ∧
      ∀ text, .line text ∈ outcomes → '\n' ∉ text.toList := by
  obtain ⟨readings, events, hcalls, hturns⟩ :=
    calls_recorded Script.source (ofChunkSize chunkSize) script [] k
  have hscript := calls_preserves Script.source.recorded Script.Recorded.read
    (ofChunkSize chunkSize) (script, []) k (Script.recorded_start script)
  rw [List.nil_append] at hcalls
  rw [hcalls] at hscript
  exact ⟨_, _, _, readings, events, hcalls, rfl, length_calls ..,
    mt hturns.waiting_mem hscript.not_waiting, hturns, hturns.conserves, hscript.contents_eq,
    fun _ hm => hturns.notMem_line hm⟩

/-- An interrupt takes `b` away, the end of the source does not take `d`. -/
example :
    ((ofChunkSize 2).calls Script.source
      [.data [97, 13, 10, 98], .failure .interrupted, .data [100], .failure .closed] 4).1 =
      [.line "a", .failed .interrupted, .line "d", .incomplete] := by
  decide +kernel

end LineReader

end TerminalShell.Channel
