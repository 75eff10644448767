import TerminalShell.Command.Grammar
import TerminalShell.Path

/-! What a user can set, and the settings that make sense. -/
namespace TerminalShell

namespace Settings

structure TerminalSettings where
  interruptByte : UInt8 := 3
  /-- The size of one read when a stream is read line by line. -/
  chunkSize : Nat := 4096
  deriving DecidableEq, Repr

inductive Invalid where
  | zeroChunkSize
  | interruptEndsLine
  | escapeIsQuote
  | blankEscapeOrQuote
  | brokenOperator (operator : String)
  | repeatedOperator (operator : String)
  | blankSeparator
  deriving DecidableEq, Repr

def Invalid.message : Invalid → String
  | .zeroChunkSize => "terminal.read_chunk_size must be greater than zero"
  | .interruptEndsLine => "terminal.interrupt_byte must not be a line terminator"
  | .escapeIsQuote => "syntax.escape_char and syntax.quote_char must differ"
  | .blankEscapeOrQuote => "syntax escape and quote characters must not be whitespace"
  | .brokenOperator operator =>
    "Operator '" ++ operator ++ "' must be non-empty and contain no whitespace"
  | .repeatedOperator operator => "Operator '" ++ operator ++ "' is configured more than once"
  | .blankSeparator => "paths.separator must not be whitespace"

end Settings

structure Settings where
  terminal : Settings.TerminalSettings := {}
  grammar : Command.Grammar := {}
  path : PathStyle := {}
  candidates : List String := []
  deriving DecidableEq, Repr

namespace Settings

/-- The first operator that is no word of its own or equals one before it. -/
def operatorFault (earlier : List String) : List String → Option Invalid
  | [] => none
  | op :: rest =>
    if op.isEmpty || op.toList.any Text.isBlank then some (.brokenOperator op)
    else if earlier.contains op then some (.repeatedOperator op)
    else operatorFault (earlier ++ [op]) rest

def fault (s : Settings) : Option Invalid :=
  if s.terminal.chunkSize = 0 then some .zeroChunkSize
  else if s.terminal.interruptByte = 10 ∨ s.terminal.interruptByte = 13 then
    some .interruptEndsLine
  else if s.grammar.escape = s.grammar.quote then some .escapeIsQuote
  else if Text.isBlank s.grammar.escape || Text.isBlank s.grammar.quote then
    some .blankEscapeOrQuote
  else
    match operatorFault [] s.grammar.operators with
    | some invalid => some invalid
    | none => if Text.isBlank s.path.separator then some .blankSeparator else none

def validate (s : Settings) : Except Invalid Unit :=
  match s.fault with
  | some invalid => .error invalid
  | none => .ok ()

end Settings

end TerminalShell
