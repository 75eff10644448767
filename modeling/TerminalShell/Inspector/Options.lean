/-!
The arguments of the inspector. They are read from the left, and the first one that asks for the
version or for help, or that is wrong, decides.
-/
namespace TerminalShell.Inspector

inductive Slot where
  | config
  | command
  | complete
  deriving DecidableEq, Repr

structure Options where
  config : Option String := none
  complete : Option String := none
  /-- The texts to inspect, in order. -/
  commands : List String := []
  deriving DecidableEq, Repr

inductive Request where
  | run (options : Options)
  | version
  | help
  | misuse
  deriving DecidableEq, Repr

/-- An argument by its form. A dash alone is a text. -/
inductive Argument where
  | text (value : String)
  | long (name : String) (value : Option String)
  | short (letter : Char) (rest : List Char)
  /-- The mark behind which no options follow. -/
  | endOfOptions
  deriving DecidableEq, Repr

namespace Argument

def ofString (argument : String) : Argument :=
  match argument.toList with
  | ['-', '-'] => .endOfOptions
  | '-' :: '-' :: cs =>
    let name := String.ofList (cs.takeWhile (· != '='))
    match cs.dropWhile (· != '=') with
    | [] => .long name none
    | _ :: value => .long name (some (String.ofList value))
  | '-' :: c :: cs => .short c cs
  | _ => .text argument

/-- The value attached to a short option, with or without an equals sign. -/
def attached : List Char → Option String
  | [] => none
  | '=' :: cs => some (String.ofList cs)
  | cs => some (String.ofList cs)

end Argument

namespace Options

/-- Gives an option its value; a path has to be given for the settings, and only lines may be
given more than once. -/
def set? (o : Options) (value : String) : Slot → Option Options
  | .config => if o.config.isSome || value.isEmpty then none else some { o with config := value }
  | .command => some { o with commands := o.commands ++ [value] }
  | .complete => if o.complete.isSome then none else some { o with complete := value }

end Options

def Slot.ofName? : String → Option Slot
  | "config" => some .config
  | "command" => some .command
  | "complete" => some .complete
  | _ => none

namespace Request

/-- Reads arguments when `waiting` is the option whose value has to come next. -/
def parseFrom (o : Options) (waiting : Option Slot) : List String → Request
  | [] => if waiting.isSome then .misuse else .run o
  | argument :: rest =>
    /- Gives a value that has been found to its option and goes on. -/
    let assign (slot : Slot) (value : String) : Request :=
      match o.set? value slot with
      | some o => parseFrom o none rest
      | none => .misuse
    let assignOrWait (slot : Slot) : Option String → Request
      | some value => assign slot value
      | none => parseFrom o (some slot) rest
    match waiting, Argument.ofString argument with
    | some slot, .text value => assign slot value
    | some _, _ | none, .text _ => .misuse
    | none, .endOfOptions => if rest.isEmpty then .run o else .misuse
    | none, .short 'c' more => assignOrWait .command (Argument.attached more)
    | none, .short 'V' _ => .version
    | none, .short 'h' _ => .help
    | none, .short _ _ => .misuse
    | none, .long "version" none => .version
    | none, .long "help" none => .help
    | none, .long name value =>
      match Slot.ofName? name with
      | some slot => assignOrWait slot value
      | none => .misuse

def parse (arguments : List String) : Request := parseFrom {} none arguments

end Request

end TerminalShell.Inspector
