import TerminalShell.Channel.LineReader
import TerminalShell.Channel.Terminal
import TerminalShell.Inspector.Report
import TerminalShell.Settings.Basic

/-!
A session of the inspector. The screen types a line and reads the report on it; the shell on the
other side of the terminal reads lines and writes a report on each. They take turns: the shell
works until it has to wait, then the screen reads up to the end of a report.
-/
namespace TerminalShell.Inspector
open TerminalShell.Channel TerminalShell.Command

structure Session where
  terminal : Terminal
  /-- Reads what is typed. -/
  shell : LineReader
  /-- Reads what is reported. -/
  screen : LineReader
  deriving DecidableEq, Repr

namespace Session

def start (settings : Settings) : Session where
  terminal := { interruptByte := settings.terminal.interruptByte }
  shell := .ofChunkSize settings.terminal.chunkSize
  screen := .ofChunkSize settings.terminal.chunkSize

/-- Asks the shell's side for a line. -/
def nextTyped (s : Session) : LineReader.Outcome × Session :=
  let (outcome, reader, terminal) := s.shell.next Terminal.awaitedInput s.terminal
  (outcome, { s with shell := reader, terminal })

/-- Asks the screen's side for a line. -/
def nextReported (s : Session) : LineReader.Outcome × Session :=
  let (outcome, reader, terminal) := s.screen.next Terminal.awaitedOutput s.terminal
  (outcome, { s with screen := reader, terminal })

/-- What the shell's side can still deliver. -/
def typedRemaining (s : Session) : Nat := s.shell.remaining Terminal.awaitedInput s.terminal

/-- What the screen's side can still deliver. -/
def reportedRemaining (s : Session) : Nat := s.screen.remaining Terminal.awaitedOutput s.terminal

theorem typedRemaining_lt {s t : Session} {outcome : LineReader.Outcome}
    (h : s.nextTyped = (outcome, t)) (progress : outcome.isProgress = true) :
    t.typedRemaining < s.typedRemaining := by
  have := LineReader.remaining_next Terminal.awaitedInput s.shell s.terminal
  obtain ⟨rfl, rfl⟩ := Prod.mk.inj h
  simp only [progress, Bool.toNat_true] at this
  exact this

theorem reportedRemaining_lt {s t : Session} {outcome : LineReader.Outcome}
    (h : s.nextReported = (outcome, t)) (progress : outcome.isProgress = true) :
    t.reportedRemaining < s.reportedRemaining := by
  have := LineReader.remaining_next Terminal.awaitedOutput s.screen s.terminal
  obtain ⟨rfl, rfl⟩ := Prod.mk.inj h
  simp only [progress, Bool.toNat_true] at this
  exact this

/-- The shell writes a report. -/
def report (g : Grammar) (line : String) (s : Session) : Session :=
  { s with terminal := (s.terminal.print (Text.Utf8.encode (Report.text g line))).2 }

/-- The shell reports on every line that has been typed, until it has to wait. An interrupt only
costs it the line that it was about to read. -/
def serve (g : Grammar) (s : Session) : Session :=
  match h : s.nextTyped with
  | (.line text, t) =>
    have := typedRemaining_lt h rfl
    serve g (t.report g text)
  | (.failed .interrupted, t) =>
    have := typedRemaining_lt h rfl
    serve g t
  | (.failed .closed, t) | (.incomplete, t) | (.waiting, t) => t
termination_by s.typedRemaining

/-- The screen reads the lines of a report. -/
def collect (s : Session) : List String × Session :=
  match h : s.nextReported with
  | (.line text, t) =>
    have := reportedRemaining_lt h rfl
    if text = Report.endMark then ([], t)
    else
      let (lines, u) := collect t
      (text :: lines, u)
  | (.failed _, t) | (.incomplete, t) | (.waiting, t) => ([], t)
termination_by s.reportedRemaining

/-- Types one line and reads the report on it. -/
def typeLine (g : Grammar) (line : String) (s : Session) : List String × Session :=
  let typed := (s.terminal.typeBytes (Text.Utf8.encode (line ++ "\n"))).2
  collect (serve g { s with terminal := typed })

/-- Types the lines of a text one after the other. -/
def inspect (g : Grammar) (text : String) (s : Session) : List String × Session :=
  let pieces := (Text.pieces (· == '\n') text.toList).map String.ofList
  pieces.foldl
    (fun (lines, s) piece =>
      let (more, s) := typeLine g piece s
      (lines ++ more, s))
    ([], s)

def inspectAll (g : Grammar) (texts : List String) (s : Session) : List String × Session :=
  texts.foldl
    (fun (lines, s) text =>
      let (more, s) := inspect g text s
      (lines ++ more, s))
    ([], s)

end Session

end TerminalShell.Inspector
