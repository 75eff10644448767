import TerminalShell.Command.Grammar
import TerminalShell.Command.LineError
import TerminalShell.Text.Blank

/-!
The words of a line. Blank characters separate words, a quoted region keeps them, and the
escape character takes the next character as it is. One scan from the left decides both the
words and the first error.
-/
namespace TerminalShell.Command

inductive Region where
  | outside
  /-- Directly behind a closing quote. -/
  | closed
  | quoted (start : Nat)
  deriving DecidableEq, Repr

def Region.next : Region → Region
  | .quoted start => .quoted start
  | _ => .outside

/-- The words completed so far and what has been read of the next one. -/
structure Scan where
  words : Array String := #[]
  word : String := ""
  region : Region := .outside
  escaping : Bool := false
  offset : Nat := 0
  deriving DecidableEq, Repr

def unescape : Char → Char
  | 'r' => '\r'
  | 't' => '\t'
  | 'n' => '\n'
  | c => c

namespace Scan

/-- The words when the current word ends here; an empty word is none. -/
def allWords (s : Scan) : Array String :=
  if s.word.isEmpty then s.words else s.words.push s.word

def step (g : Grammar) (s : Scan) (c : Char) : Except LineError Scan :=
  let offset := s.offset + c.utf8Size
  if s.escaping then
    .ok { s with word := s.word.push (unescape c), escaping := false, offset }
  else if c = g.escape then
    .ok { s with escaping := true, region := s.region.next, offset }
  else if c = g.quote then
    match s.region with
    | .outside => .ok { s with region := .quoted s.offset, offset }
    | .closed => .error (.malformed s.offset .adjacentQuote)
    | .quoted _ => .ok { s with region := .closed, offset }
  else
    match s.region with
    | .quoted _ => .ok { s with word := s.word.push c, offset }
    | _ =>
      if Text.isBlank c then
        .ok { s with words := s.allWords, word := "", region := .outside, offset }
      else
        .ok { s with word := s.word.push c, region := .outside, offset }

def finish (s : Scan) : Except LineError (List String) :=
  if s.escaping then .error (.malformed s.offset .danglingEscape)
  else
    match s.region with
    | .quoted start => .error (.malformed start .unterminatedQuote)
    | _ => .ok s.allWords.toList

end Scan

namespace Grammar

def scan (g : Grammar) (s : Scan) (text : List Char) : Except LineError Scan :=
  text.foldlM (Scan.step g) s

theorem scan_append (g : Grammar) (s : Scan) (a b : List Char) :
    g.scan s (a ++ b) = (g.scan s a).bind fun t => g.scan t b := by
  simp [scan, List.foldlM_append, bind]

def words (g : Grammar) (line : String) : Except LineError (List String) :=
  (g.scan {} line.toList).bind Scan.finish

end Grammar

end TerminalShell.Command
