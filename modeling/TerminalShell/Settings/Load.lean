import TerminalShell.Settings.Decode
import TerminalShell.Text.Utf8
import TerminalShell.Toml.Document

/-! Settings from the contents of a file. -/
namespace TerminalShell

/-- Why a file cannot be read. -/
inductive FileError where
  | missing
  | notDirectory
  | isDirectory
  | other (reason : String)
  deriving DecidableEq, Repr

def FileError.message : FileError → String
  | .missing => "No such file or directory (os error 2)"
  | .notDirectory => "Not a directory (os error 20)"
  | .isDirectory => "Is a directory (os error 21)"
  | .other reason => reason

namespace Settings

inductive LoadError where
  | unreadable (path reason : String)
  | unparsable (path : String)
  | invalid (e : Invalid)
  deriving DecidableEq, Repr

def LoadError.message : LoadError → String
  | .unreadable path reason => "Failed to read config file '" ++ path ++ "': " ++ reason
  | .unparsable path => "Failed to parse config file '" ++ path ++ "'"
  | .invalid e => "Config validation failed: " ++ e.message

/-- The reason when the bytes of a file are no text. -/
def notText : String := "stream did not contain valid UTF-8"

/-- The settings in a file that has been read, or could not be. -/
def ofContents (path : String) (contents : Except FileError (List UInt8)) :
    Except LoadError Settings :=
  match contents with
  | .error e => .error (.unreadable path e.message)
  | .ok bytes =>
    match Text.Utf8.decode? bytes with
    | none => .error (.unreadable path notText)
    | some text =>
      match (Toml.parse? text).bind decode? with
      | none => .error (.unparsable path)
      | some settings =>
        match settings.validate with
        | .error e => .error (.invalid e)
        | .ok () => .ok settings

/-- The settings of a user, or the standard ones when the user has no file for them. -/
def ofOptionalContents (path : String) (contents : Except FileError (List UInt8)) :
    Except LoadError Settings :=
  match contents with
  | .error .missing | .error .notDirectory => .ok {}
  | contents => ofContents path contents

end Settings

end TerminalShell
