import TerminalShell.Inspector.Session
import TerminalShell.Proofs.Channel.Looking
import TerminalShell.Proofs.Text.EncodedText
import TerminalShell.Proofs.Text.Splitting

/-!
A session whose two sides run at once. The screen puts one segment or one signal into the input
queue at a time, and either side looks once at its queue at a time; any interleaving of these steps
can happen. A side waits when a look at its queue finds nothing to report.
-/
namespace TerminalShell.Inspector
open Channel Command

/-- The lines that a text is typed as. -/
def typedLines (text : String) : List String :=
  (Text.pieces (· == '\n') text.toList).map String.ofList

/-- What texts are typed as are lines. -/
theorem notMem_encode_of_mem_typedLines {texts : List String} :
    ∀ line ∈ texts.flatMap typedLines, 10 ∉ Text.Utf8.encode line := by
  intro line h hm
  obtain ⟨text, -, h⟩ := List.mem_flatMap.mp h
  obtain ⟨piece, hp, rfl⟩ := List.mem_map.mp h
  have hfeed : '\n' ∈ piece := by
    simpa using (Text.Utf8.mem_encode_iff (a := '\n') (by decide) _).mp hm
  simpa using Text.not_isSeparator_of_mem_pieces hp '\n' hfeed

inductive ShellTask where
  | read
  /-- A line has been read, and the report on it is still to be written. -/
  | answer (line : String)
  | stopped
  deriving DecidableEq, Repr

inductive ScreenTask where
  | proceed
  /-- Types what is left of a line, and then reads the report on it. -/
  | inspect (left : List Terminal.Emission)
  /-- The input is closed, the output not yet. -/
  | leave
  | stopped (failure : Option ChannelError)
  deriving DecidableEq, Repr

structure Dialogue where
  terminal : Terminal
  shell : LineReader
  screen : LineReader
  shellTask : ShellTask := .read
  screenTask : ScreenTask := .proceed
  /-- The lines that the screen has not begun to type. -/
  later : List String
  printed : List String := []
  /-- The lines that the shell has reported on. -/
  answered : List String := []
  /-- How many line feeds have come into the input queue. -/
  lineEnds : Nat := 0
  deriving DecidableEq, Repr

inductive Party where
  | screen
  | shell
  deriving DecidableEq, Repr

namespace Dialogue

def start (settings : Settings) (lines : List String) : Dialogue where
  terminal := (Session.start settings).terminal
  shell := (Session.start settings).shell
  screen := (Session.start settings).screen
  later := lines

def session (d : Dialogue) : Session := ⟨d.terminal, d.shell, d.screen⟩

def setInput (d : Dialogue) (q : ByteQueue) : Dialogue :=
  { d with terminal := { d.terminal with input := q } }

def setOutput (d : Dialogue) (q : ByteQueue) : Dialogue :=
  { d with terminal := { d.terminal with output := q } }

/-- The shell has looked for a line. An interrupt only costs it what it has of one. -/
def hear (d : Dialogue) : Option LineReader.Outcome → Dialogue
  | some (.line text) => { d with shellTask := .answer text }
  | some (.failed .closed) => { d with shellTask := .stopped }
  | _ => d

/-- The next step of the shell, unless it has to wait or has stopped. -/
def shellStep (g : Grammar) (d : Dialogue) : Option Dialogue :=
  match d.shellTask with
  | .read =>
    let (outcome, shell, input) := d.shell.look ByteQueue.awaited d.terminal.input
    if outcome = some .waiting then none else some ({ d.setInput input with shell }.hear outcome)
  | .answer line =>
    match d.terminal.output.write (Text.Utf8.encode (Report.text g line)) with
    | (.ok _, output) =>
      some { d.setOutput output with shellTask := .read, answered := d.answered ++ [line] }
    | (.error _, _) => some { d with shellTask := .stopped }
  | .stopped => none

/-- The screen has looked for a line. A failure ends it, and a read without bytes ends the
report. -/
def see (d : Dialogue) : Option LineReader.Outcome → Dialogue
  | some (.line text) =>
    if text = Report.endMark then { d with screenTask := .proceed }
    else { d with printed := d.printed ++ [text] }
  | some (.failed e) => { d with screenTask := .stopped (some e) }
  | some .incomplete => { d with screenTask := .proceed }
  | some .waiting | none => d

/-- The next step of the screen, unless it has to wait or has stopped. -/
def screenStep (d : Dialogue) : Option Dialogue :=
  match d.screenTask with
  | .proceed =>
    match d.later with
    | [] => some { d.setInput d.terminal.input.close with screenTask := .leave }
    | line :: later =>
      if d.terminal.input.isClosed then some { d with screenTask := .stopped (some .closed) }
      else
        some { d with
          later
          screenTask := .inspect (Terminal.emissions d.terminal.interruptByte
            (Text.Utf8.encode (line ++ "\n"))) }
  | .inspect (.data bytes :: left) =>
    match d.terminal.input.write bytes with
    | (.ok _, input) =>
      some { d.setInput input with
        screenTask := .inspect left
        lineEnds := d.lineEnds + bytes.count 10 }
    | (.error e, _) => some { d with screenTask := .stopped (some e) }
  | .inspect (.signal :: left) =>
    some { d.setInput d.terminal.input.signalInterrupt with screenTask := .inspect left }
  | .inspect [] =>
    let (outcome, screen, output) := d.screen.look ByteQueue.awaited d.terminal.output
    if outcome = some .waiting then none else some ({ d.setOutput output with screen }.see outcome)
  | .leave =>
    some { d.setOutput d.terminal.output.close with screenTask := .stopped none }
  | .stopped _ => none

def step (g : Grammar) (d : Dialogue) : Party → Option Dialogue
  | .screen => d.screenStep
  | .shell => d.shellStep g

/-- What becomes of a dialogue when its parties are given turns in some order. A party that cannot
go on leaves its turn out. -/
def run (g : Grammar) (turns : List Party) (d : Dialogue) : Dialogue :=
  turns.foldl (fun d p => (d.step g p).getD d) d

/-- Whatever the turns, and as many of them as there may be. -/
def Reaches (g : Grammar) : Dialogue → Dialogue → Prop :=
  Relation.ReflTransGen fun d e => ∃ p, d.step g p = some e

theorem reaches_run (g : Grammar) (turns : List Party) (d : Dialogue) :
    Reaches g d (d.run g turns) := by
  induction turns generalizing d with
  | nil => exact .refl
  | cons p turns ih =>
    unfold run
    rw [List.foldl_cons]
    cases hs : d.step g p with
    | none => exact ih d
    | some e => exact .head ⟨p, hs⟩ (ih e)

/-- The bytes of the screen that no line has been made of. -/
def unread (d : Dialogue) : List UInt8 := d.shell.pending ++ d.terminal.input.bytes

/-- The bytes of the shell that no line has been made of. -/
def unseen (d : Dialogue) : List UInt8 := d.screen.pending ++ d.terminal.output.bytes

section Steps

variable {g : Grammar} {d : Dialogue}

theorem shellStep_of_read (ht : d.shellTask = .read) :
    ∃ outcome shell input, LineReader.Looks d.shell d.terminal.input (outcome, shell, input) ∧
      d.shellStep g = if outcome = some .waiting then none
        else some ({ d.setInput input with shell }.hear outcome) :=
  ⟨_, _, _, LineReader.look_looks d.shell d.terminal.input, by rw [shellStep, ht]; rfl⟩

theorem screenStep_of_inspect (ht : d.screenTask = .inspect []) :
    ∃ outcome screen output,
      LineReader.Looks d.screen d.terminal.output (outcome, screen, output) ∧
      d.screenStep = if outcome = some .waiting then none
        else some ({ d.setOutput output with screen }.see outcome) :=
  ⟨_, _, _, LineReader.look_looks d.screen d.terminal.output, by rw [screenStep, ht]; rfl⟩

theorem shellStep_eq_none_iff (ht : d.shellTask = .read) :
    d.shellStep g = none ↔ 10 ∉ d.shell.pending ∧ d.terminal.input = .opened [] false := by
  obtain ⟨outcome, shell, input, hl, hs⟩ := @shellStep_of_read g d ht
  rw [hs, ← LineReader.Looks.eq_waiting_iff hl]
  simp

theorem screenStep_eq_none_iff (ht : d.screenTask = .inspect []) :
    d.screenStep = none ↔ 10 ∉ d.screen.pending ∧ d.terminal.output = .opened [] false := by
  obtain ⟨outcome, screen, output, hl, hs⟩ := screenStep_of_inspect ht
  rw [hs, ← LineReader.Looks.eq_waiting_iff hl]
  simp

end Steps

end Dialogue

end TerminalShell.Inspector
