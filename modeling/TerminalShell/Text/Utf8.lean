/-!
UTF-8. A decoder goes through the bytes once and yields a piece at a time: a character, or
nothing where bytes are not part of any character. Strict decoding refuses such a text; lenient
decoding puts the replacement character for each of these pieces.
-/
namespace TerminalShell.Text.Utf8

def encode (text : String) : List UInt8 := text.toList.flatMap String.utf8EncodeChar

/-- A character of which some bytes have been read: its value so far, how many bytes are missing,
and the range of the next one. -/
structure Unfinished where
  value : Nat
  missing : Nat
  least : Nat := 0x80
  greatest : Nat := 0xBF
  deriving DecidableEq, Repr

def lead (b : Nat) : List (Option Char) × Option Unfinished :=
  if b < 0x80 then ([some (Char.ofNat b)], none)
  else if b < 0xC2 then ([none], none)
  else if b < 0xE0 then ([], some { value := b - 0xC0, missing := 1 })
  else if b = 0xE0 then ([], some { value := 0, missing := 2, least := 0xA0 })
  else if b = 0xED then ([], some { value := 0xD, missing := 2, greatest := 0x9F })
  else if b < 0xF0 then ([], some { value := b - 0xE0, missing := 2 })
  else if b = 0xF0 then ([], some { value := 0, missing := 3, least := 0x90 })
  else if b < 0xF4 then ([], some { value := b - 0xF0, missing := 3 })
  else if b = 0xF4 then ([], some { value := 4, missing := 3, greatest := 0x8F })
  else ([none], none)

/-- What one more byte yields. A byte that cannot continue the unfinished character ends it and
is read as the first byte of another one. -/
def step (state : Option Unfinished) (b : Nat) : List (Option Char) × Option Unfinished :=
  match state with
  | none => lead b
  | some u =>
    if u.least ≤ b ∧ b ≤ u.greatest then
      let value := u.value * 64 + (b - 0x80)
      if u.missing = 1 then ([some (Char.ofNat value)], none)
      else ([], some { value, missing := u.missing - 1 })
    else
      let (out, next) := lead b
      (none :: out, next)

def piecesFrom : Option Unfinished → List UInt8 → List (Option Char)
  | none, [] => []
  | some _, [] => [none]
  | state, b :: rest =>
    let (out, next) := step state b.toNat
    out ++ piecesFrom next rest

/-- The characters of a text, and nothing for each maximal start of a character that breaks off
and for each byte that starts none. -/
def pieces (bytes : List UInt8) : List (Option Char) := piecesFrom none bytes

def decode? (bytes : List UInt8) : Option String :=
  ((pieces bytes).mapM id).map String.ofList

/-- The text that bytes encode, with a replacement character for each malformed piece. -/
def decodeLenient (bytes : List UInt8) : String :=
  String.ofList ((pieces bytes).map fun piece => piece.getD '\ufffd')

end TerminalShell.Text.Utf8
