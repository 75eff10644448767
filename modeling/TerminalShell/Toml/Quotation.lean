import TerminalShell.Toml.Number

/-!
Strings of a document, on one line or on several, with escapes or taken as they stand. Each
reader starts behind the opening quotes and yields the characters and what follows the closing
quotes.
-/
namespace TerminalShell.Toml

/-- The characters that need no escape: all but the control characters, and the tab. -/
def isText (c : Char) : Bool := c == '\t' || (' ' ≤ c && c != '\x7f')

def afterLineEnd? : List Char → Option (List Char)
  | '\n' :: rest => some rest
  | '\r' :: '\n' :: rest => some rest
  | _ => none

theorem length_afterLineEnd?_lt {cs rest : List Char} (h : afterLineEnd? cs = some rest) :
    rest.length < cs.length := by
  unfold afterLineEnd? at h
  split at h
  · cases h
    exact Nat.lt_succ_self _
  · cases h
    simp only [List.length_cons]
    omega
  · simp at h

def scalar? (cs : List Char) : Option Char :=
  if cs.all (isDigitOf 16) then
    let n := ofDigits 16 cs
    if n.isValidChar then some (Char.ofNat n) else none
  else none

def letterEscape? : Char → Option Char
  | 'b' => some '\x08'
  | 't' => some '\t'
  | 'n' => some '\n'
  | 'f' => some '\x0c'
  | 'r' => some '\r'
  | '"' => some '"'
  | '\\' => some '\\'
  | _ => none

def escapeDigits : Char → Nat
  | 'u' => 4
  | 'U' => 8
  | _ => 0

def escape? : List Char → Option (Char × List Char)
  | [] => none
  | c :: rest =>
    match letterEscape? c with
    | some e => some (e, rest)
    | none =>
      if escapeDigits c = 0 ∨ rest.length < escapeDigits c then none
      else (scalar? (rest.take (escapeDigits c))).map fun e => (e, rest.drop (escapeDigits c))

theorem length_escape?_lt {cs rest : List Char} {c : Char} (h : escape? cs = some (c, rest)) :
    rest.length < cs.length := by
  cases cs with
  | nil => simp [escape?] at h
  | cons a more =>
    rw [List.length_cons]
    cases hl : letterEscape? a with
    | some e =>
      simp only [escape?, hl, Option.some.injEq, Prod.mk.injEq] at h
      rw [h.2]
      exact Nat.lt_succ_self _
    | none =>
      simp only [escape?, hl] at h
      split at h
      · simp at h
      · simp only [Option.map_eq_some_iff, Prod.mk.injEq] at h
        obtain ⟨-, -, -, rfl⟩ := h
        rw [List.length_drop]
        omega

def basic? : List Char → Option (List Char × List Char)
  | [] => none
  | c :: rest =>
    if c = '"' then some ([], rest)
    else if c = '\\' then
      match h : escape? rest with
      | some (e, more) =>
        have := length_escape?_lt h
        (basic? more).map fun (text, after) => (e :: text, after)
      | none => none
    else if isText c then (basic? rest).map fun (text, after) => (c :: text, after)
    else none
termination_by cs => cs.length

def literal? : List Char → Option (List Char × List Char)
  | [] => none
  | c :: rest =>
    if c = '\'' then some ([], rest)
    else if isText c then (literal? rest).map fun (text, after) => (c :: text, after)
    else none

/-- The quotes that a run of them at the end of a string on several lines adds to it, and what
follows the closing ones. Two quotes may stand before the three that close. -/
def closing? (quote : Char) (cs : List Char) : Option (List Char × List Char) :=
  let run := (cs.takeWhile (· == quote)).length
  if run < 3 then none
  else
    let own := min (run - 3) 2
    some (List.replicate own quote, cs.drop (own + 3))

/-- A text without the blank characters and line ends at its start. A carriage return is part of
a line end or stays. -/
def dropBlankLines : List Char → List Char
  | ' ' :: rest => dropBlankLines rest
  | '\t' :: rest => dropBlankLines rest
  | '\n' :: rest => dropBlankLines rest
  | '\r' :: '\n' :: rest => dropBlankLines rest
  | cs => cs

theorem length_dropBlankLines_le (cs : List Char) : (dropBlankLines cs).length ≤ cs.length := by
  fun_induction dropBlankLines cs with
  | case1 rest ih | case2 rest ih | case3 rest ih => exact Nat.le_succ_of_le ih
  | case4 rest ih => exact Nat.le_succ_of_le (Nat.le_succ_of_le ih)
  | case5 => exact Nat.le_refl _

/-- What follows the blank characters behind a backslash at the end of a line. -/
def joined? (cs : List Char) : Option (List Char) :=
  (afterLineEnd? (cs.dropWhile fun c => c == ' ' || c == '\t')).map dropBlankLines

theorem length_joined?_le {cs rest : List Char} (h : joined? cs = some rest) :
    rest.length ≤ cs.length := by
  simp only [joined?, Option.map_eq_some_iff] at h
  obtain ⟨more, h, rfl⟩ := h
  have h₁ := length_afterLineEnd?_lt h
  have h₂ := length_dropBlankLines_le more
  have h₃ := (List.dropWhile_sublist (fun c => c == ' ' || c == '\t') (l := cs)).length_le
  omega

def basicLines? : List Char → Option (List Char × List Char)
  | [] => none
  | c :: rest =>
    match closing? '"' (c :: rest) with
    | some closed => some closed
    | none =>
      if c = '\\' then
        match hj : joined? rest with
        | some more =>
          have := length_joined?_le hj
          basicLines? more
        | none =>
          match he : escape? rest with
          | some (e, more) =>
            have := length_escape?_lt he
            (basicLines? more).map fun (text, after) => (e :: text, after)
          | none => none
      else if isText c || c == '\n' || (c == '\r' && rest.head? == some '\n') then
        (basicLines? rest).map fun (text, after) => (c :: text, after)
      else none
termination_by cs => cs.length

def literalLines? : List Char → Option (List Char × List Char)
  | [] => none
  | c :: rest =>
    match closing? '\'' (c :: rest) with
    | some closed => some closed
    | none =>
      if isText c || c == '\n' || (c == '\r' && rest.head? == some '\n') then
        (literalLines? rest).map fun (text, after) => (c :: text, after)
      else none

def dropLineEnd (cs : List Char) : List Char := (afterLineEnd? cs).getD cs

def quotation? : List Char → Option (List Char × List Char)
  | '"' :: '"' :: '"' :: rest => basicLines? (dropLineEnd rest)
  | '\'' :: '\'' :: '\'' :: rest => literalLines? (dropLineEnd rest)
  | '"' :: rest => basic? rest
  | '\'' :: rest => literal? rest
  | _ => none

end TerminalShell.Toml
