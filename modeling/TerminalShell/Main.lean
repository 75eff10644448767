import TerminalShell.Inspector.Program

/-! The command line of the inspector. -/
namespace TerminalShell.Inspector

def readFile (path : String) : IO (Except FileError (List UInt8)) := do
  try
    return .ok (← IO.FS.readBinFile path).toList
  catch e =>
    match e with
    | .noFileOrDirectory .. => return .error .missing
    | .inappropriateType _ code _ =>
      return .error (if code = 21 then .isDirectory else .notDirectory)
    | other => return .error (.other (toString other))

partial def readAll (stream : IO.FS.Stream) (sofar : ByteArray) : IO ByteArray := do
  let more ← stream.read 65536
  if more.isEmpty then return sofar else readAll stream (sofar ++ more)

/-- Starts a log file when the user has named one; a run goes on without it. -/
def startLog : IO Unit := do
  match ← IO.getEnv "SIMSHELL_LOG" with
  | none => return
  | some base =>
    let path := logPath base (← IO.monoMsNow) (← IO.monoNanosNow)
    try
      IO.FS.writeFile path ("INFO logging started path=" ++ path ++ "\n")
    catch e =>
      IO.eprintln ("Warning: cannot create log file " ++ path ++ ": " ++ toString e)

def runMain (arguments : List String) : IO UInt32 := do
  let request := Request.parse arguments
  let configHome ← IO.getEnv "XDG_CONFIG_HOME"
  let home := (← IO.getEnv "HOME").getD ""
  let contents ←
    match request with
    | .run o =>
      startLog
      readFile (settingsPath o configHome home)
    | _ => pure (.error .missing)
  let input ←
    if request.readsInput then readAll (← IO.getStdin) .empty else pure .empty
  let outcome := answer request ⟨configHome, home, fun _ => contents, input.toList⟩
  for line in outcome.output do
    IO.println line
  if let some failure := outcome.failure then
    IO.eprintln failure
  return outcome.exitCode.toUInt32

end TerminalShell.Inspector

def main (arguments : List String) : IO UInt32 :=
  TerminalShell.Inspector.runMain arguments
