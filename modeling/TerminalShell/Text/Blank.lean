/-! Blank characters, the ones that separate words. -/
namespace TerminalShell.Text

/-- The characters with the property White_Space. -/
def isBlank (c : Char) : Bool :=
  ('\t' ≤ c && c ≤ '\r') || c == ' ' || c == '\u0085' || c == '\u00a0' || c == '\u1680' ||
    ('\u2000' ≤ c && c ≤ '\u200a') || c == '\u2028' || c == '\u2029' || c == '\u202f' ||
    c == '\u205f' || c == '\u3000'

/-- A text of blank characters only, the empty text included. -/
def isBlankText (text : String) : Bool := text.toList.all isBlank

end TerminalShell.Text
