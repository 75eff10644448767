/-! Where the settings of a user are kept. -/
namespace TerminalShell.Settings

def inDirectory (directory name : String) : String :=
  if directory.isEmpty || directory.endsWith "/" then directory ++ name
  else directory ++ "/" ++ name

/-- The file with a user's settings: below the directory for settings if that is an absolute
path, and below the home directory otherwise. -/
def location (configHome : Option String) (home : String) : String :=
  let base :=
    match configHome with
    | some path => if path.startsWith "/" then path else inDirectory home ".config"
    | none => inDirectory home ".config"
  inDirectory (inDirectory base "simshell") "config.toml"

end TerminalShell.Settings
