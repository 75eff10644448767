import TerminalShell.Settings.Basic
import TerminalShell.Toml.Value

/-!
Settings from the entries of a document. A section is a table or an array of its fields in a
fixed order; what is left out keeps its default, and unknown names are passed over.
-/
namespace TerminalShell.Settings
open TerminalShell.Toml

def fields? (names : List String) : Value → Option (List (String × Value))
  | .table entries =>
    if entries.all fun (name, v) => names.contains name || v.isRepresentable then some entries
    else none
  | .array items => some (names.zip items)
  | .datetime => some []
  | _ => none

/-- One field of a section, or its default when the section leaves it out. -/
def field? {α : Type} (fields : List (String × Value)) (name : String)
    (decode : Value → Option α) (default : α) : Option α :=
  match fields.lookup name with
  | some v => decode v
  | none => some default

def natural? (bound : Nat) : Value → Option Nat
  | .integer (.ofNat n) => if n < bound then some n else none
  | _ => none

def byte? (v : Value) : Option UInt8 := (natural? 256 v).map UInt8.ofNat

def text? : Value → Option String
  | .string text => some text
  | _ => none

def character? (v : Value) : Option Char :=
  match (text? v).map String.toList with
  | some [c] => some c
  | _ => none

def texts? : Value → Option (List String)
  | .array items => items.mapM text?
  | _ => none

def terminal? (v : Value) : Option TerminalSettings := do
  let fields ← fields? ["interrupt_byte", "read_chunk_size"] v
  let standard : TerminalSettings := {}
  return {
    interruptByte := ← field? fields "interrupt_byte" byte? standard.interruptByte
    chunkSize := ← field? fields "read_chunk_size" (natural? (1 <<< 64)) standard.chunkSize }

def grammar? (v : Value) : Option Command.Grammar := do
  let fields ←
    fields? ["escape_char", "quote_char", "pipe", "input", "output", "append"] v
  let standard : Command.Grammar := {}
  return {
    escape := ← field? fields "escape_char" character? standard.escape
    quote := ← field? fields "quote_char" character? standard.quote
    pipe := ← field? fields "pipe" text? standard.pipe
    input := ← field? fields "input" text? standard.input
    output := ← field? fields "output" text? standard.output
    append := ← field? fields "append" text? standard.append }

def path? (v : Value) : Option PathStyle := do
  let fields ← fields? ["separator"] v
  let standard : PathStyle := {}
  return { separator := ← field? fields "separator" character? standard.separator }

def candidates? (v : Value) : Option (List String) := do
  let fields ← fields? ["candidates"] v
  field? fields "candidates" texts? []

def decode? (entries : List (String × Value)) : Option Settings := do
  let fields ← fields? ["terminal", "syntax", "paths", "completion"] (.table entries)
  return {
    terminal := ← field? fields "terminal" terminal? {}
    grammar := ← field? fields "syntax" grammar? {}
    path := ← field? fields "paths" path? {}
    candidates := ← field? fields "completion" candidates? [] }

end TerminalShell.Settings
