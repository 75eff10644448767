import TerminalShell.Command.Completion
import TerminalShell.Inspector.Options
import TerminalShell.Inspector.Session
import TerminalShell.Settings.Load
import TerminalShell.Settings.Location

/-! The inspector as a function of its surroundings. -/
namespace TerminalShell.Inspector
open TerminalShell.Command

structure Surroundings where
  /-- The directory for settings, if the user has chosen one. -/
  configHome : Option String
  home : String
  read : String → Except FileError (List UInt8)
  input : List UInt8

structure Outcome where
  exitCode : UInt8 := 0
  output : List String := []
  /-- A failure to be told on standard error. -/
  failure : Option String := none
  deriving DecidableEq, Repr

def versionLine : String := "simshell 0.1.0"

def helpLines : List String := [
  "Inspect how shell lines are tokenized, redirected and piped",
  "",
  "Usage: simshell [OPTIONS]",
  "",
  "Options:",
  "      --config <CONFIG>    Config file (default: the per-user simshell config)",
  "  -c, --command <COMMANDS> Line to inspect; may be repeated. Reads stdin when absent",
  "      --complete <PREFIX>  Print completion candidates for PREFIX and exit",
  "  -h, --help               Print help",
  "  -V, --version            Print version"]

/-- The lines of some bytes as far as they are text: each without its terminator, and whether all
of them are text. -/
def inputLines (bytes : List UInt8) : List String × Bool :=
  match h : Text.splitLine? bytes with
  | some (line, rest) =>
    have := Text.eq_append_of_splitLine? h
    match Text.Utf8.decode? (Text.dropReturn line) with
    | some text =>
      let (lines, isText) := inputLines rest
      (text :: lines, isText)
    | none => ([], false)
  | none =>
    if bytes.isEmpty then ([], true)
    else
      match Text.Utf8.decode? bytes with
      | some text => ([text], true)
      | none => ([], false)
termination_by bytes.length
decreasing_by
  simp only [this, List.length_append, List.length_cons]
  omega

/-- The file with the settings: the one that the options name, or else that of the user. -/
def settingsPath (o : Options) (configHome : Option String) (home : String) : String :=
  o.config.getD (Settings.location configHome home)

/-- The settings of a session. A file that the options name has to be there. -/
def settings (o : Options) (w : Surroundings) : Except Settings.LoadError Settings :=
  let path := settingsPath o w.configHome w.home
  if o.config.isSome then Settings.ofContents path (w.read path)
  else Settings.ofOptionalContents path (w.read path)

/-- The file for the log of one run: two numbers keep the runs apart. -/
def logPath (base : String) (time run : Nat) : String :=
  base ++ "." ++ toString time ++ "." ++ toString run

/-- Completes a word, or inspects the lines given as arguments or else those of the input. -/
def runWith (o : Options) (w : Surroundings) (s : Settings) : Outcome :=
  match o.complete with
  | some stem => { output := (Completion.ofCandidates s.candidates stem).found }
  | none =>
    let inspect (texts : List String) : List String :=
      (Session.inspectAll s.grammar texts (.start s)).1
    if o.commands.isEmpty then
      let (lines, isText) := inputLines w.input
      if isText then { output := inspect lines }
      else
        { exitCode := 1
          output := inspect lines
          failure := some ("Error: " ++ Settings.notText) }
    else { output := inspect o.commands }

/-- Whether a request takes its lines from standard input. -/
def Request.readsInput : Request → Bool
  | .run o => o.complete.isNone && o.commands.isEmpty
  | _ => false

/-- Carries out a request. -/
def answer (request : Request) (w : Surroundings) : Outcome :=
  match request with
  | .misuse => { exitCode := 2, failure := some "error: invalid arguments" }
  | .version => { output := [versionLine] }
  | .help => { output := helpLines }
  | .run o =>
    match settings o w with
    | .error e => { exitCode := 1, failure := some ("Error: " ++ e.message) }
    | .ok s => runWith o w s

end TerminalShell.Inspector
