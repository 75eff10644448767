import TerminalShell.Proofs.Command.WordGrammar

/-!
Two lines with a blank character between them. The blank character ends the last word of the first
line, and what a scan does behind it is what it does to the second line alone, further on and with
the words of the first in front. Main statement: the words, or the fault, of both lines together.
-/
namespace TerminalShell.Command

variable {g : Grammar}

/-- The same fault `n` bytes further on. -/
def LineError.behind (n : Nat) : LineError → LineError
  | .malformed offset reason => .malformed (offset + n) reason
  | e => e

def Region.behind (n : Nat) : Region → Region
  | .quoted start => .quoted (start + n)
  | r => r

namespace Scan

/-- The same scan `n` bytes further on, with some words completed before it. -/
def behind (words : Array String) (n : Nat) (s : Scan) : Scan :=
  { s with words := words ++ s.words, region := s.region.behind n, offset := s.offset + n }

theorem allWords_behind (words : Array String) (n : Nat) (s : Scan) :
    (s.behind words n).allWords = words ++ s.allWords := by
  unfold allWords behind
  split
  · rfl
  · exact Array.append_push.symm

/-- A scan does the same wherever it stands. -/
theorem step_behind (words : Array String) (n : Nat) (s : Scan) (c : Char) :
    (s.behind words n).step g c =
      ((s.step g c).map (behind words n)).mapError (LineError.behind n) := by
  have hsize : s.offset + n + c.utf8Size = s.offset + c.utf8Size + n := Nat.add_right_comm _ _ _
  have hall : (s.behind words n).allWords = words ++ s.allWords := allWords_behind words n s
  unfold step
  by_cases hs : s.escaping = true
  · simp [hs, behind, hsize, Except.map, Except.mapError]
  have hs' : ¬ (s.behind words n).escaping = true := hs
  rw [if_neg hs, if_neg hs']
  by_cases he : c = g.escape
  · have hnext : (s.region.behind n).next = s.region.next.behind n := by cases s.region <;> rfl
    rw [if_pos he, if_pos he]
    simp [behind, hnext, hsize, Except.map, Except.mapError]
  rw [if_neg he, if_neg he]
  by_cases hq : c = g.quote
  · rw [if_pos hq, if_pos hq]
    cases hr : s.region <;>
      simp [behind, Region.behind, LineError.behind, hr, hsize, Except.map, Except.mapError]
  · rw [if_neg hq, if_neg hq, hall]
    by_cases hb : Text.isBlank c = true <;> cases hr : s.region <;>
      simp [behind, Region.behind, hr, hb, hsize, Except.map, Except.mapError]

theorem scan_behind (words : Array String) (n : Nat) (s : Scan) (text : List Char) :
    g.scan (s.behind words n) text =
      ((g.scan s text).map (behind words n)).mapError (LineError.behind n) := by
  induction text generalizing s with
  | nil => rfl
  | cons c text ih =>
    rw [Grammar.scan_cons, Grammar.scan_cons, step_behind]
    cases s.step g c with
    | error e => rfl
    | ok t => exact ih t

theorem finish_behind (words : Array String) (n : Nat) (s : Scan) :
    (s.behind words n).finish =
      (s.finish.map (words.toList ++ ·)).mapError (LineError.behind n) := by
  have hall : (s.behind words n).allWords = words ++ s.allWords := allWords_behind words n s
  unfold finish
  by_cases hs : s.escaping = true
  · have hs' : (s.behind words n).escaping = true := hs
    rw [if_pos hs, if_pos hs']
    rfl
  · have hs' : ¬ (s.behind words n).escaping = true := hs
    rw [if_neg hs, if_neg hs', hall, Array.toList_append]
    unfold behind
    cases s.region <;> rfl

end Scan

/-- The words of two lines with a separator between them: those of the first line, and then what the
second line comes to behind it. -/
theorem Grammar.words_append_of_words {c : Char} (hc : (Lexeme.separator c).IsLegal g)
    {first : String} {words : List String} (h : g.words first = .ok words) (second : String) :
    g.words (first ++ c.toString ++ second) =
      ((g.words second).map (words ++ ·)).mapError
        (LineError.behind (first.utf8ByteSize + c.utf8Size)) := by
  obtain ⟨s, hs, hrest, rfl⟩ := exists_scan_of_words h
  have hoff : s.offset = first.utf8ByteSize := (offset_of_scan hs).trans (byteCount_toList first)
  have hseam : s.step g c =
      .ok (({} : Scan).behind s.allWords (first.utf8ByteSize + c.utf8Size)) := by
    rw [Scan.step_separator hrest hc, ← hoff]
    simp [Scan.take, Scan.behind, Region.behind, hrest.1, Lexeme.spelling]
  have hline : (first ++ c.toString ++ second).toList = first.toList ++ c :: second.toList := by
    simp [Char.toString]
  unfold Grammar.words
  rw [hline, scan_append, hs, Except.bind, scan_cons, hseam, Except.bind, Scan.scan_behind]
  cases g.scan {} second.toList with
  | error e => rfl
  | ok t => exact Scan.finish_behind _ _ t

/-- Lines can be cut at separators: if the line before one has words, the whole line has these and
then the words behind it, and if there is a fault behind it, the whole line has that fault, as many
bytes further on as stand before. -/
theorem words_append_separator {c : Char} (hb : Text.isBlank c = true) (he : c ≠ g.escape)
    (hq : c ≠ g.quote) {first : String} {words : List String} (h : g.words first = .ok words)
    (second : String) :
    (∀ more, g.words second = .ok more →
      g.words (first ++ c.toString ++ second) = .ok (words ++ more)) ∧
    ∀ offset reason, g.words second = .error (.malformed offset reason) →
      g.words (first ++ c.toString ++ second) =
        .error (.malformed (offset + first.utf8ByteSize + c.utf8Size) reason) := by
  have hline := Grammar.words_append_of_words ⟨hb, he, hq⟩ h second
  constructor
  · intro more hs
    rw [hline, hs]
    rfl
  · intro offset reason hs
    rw [hline, hs, Nat.add_assoc]
    rfl

/-- A separator of three bytes between two regions, which a quote would join into a fault. -/
theorem words_append_separator_wide :
    let g : Grammar := {}
    let c := '\u2003'
    Text.isBlank c = true ∧ c ≠ g.escape ∧ c ≠ g.quote ∧ g.words "\"é b\"" = .ok ["é b"] ∧
      g.words "\"x\" y" = .ok ["x", "y"] ∧
      g.words ("\"é b\"" ++ c.toString ++ "\"x\" y") = .ok ["é b", "x", "y"] ∧
      g.words "z \"x" = .error (.malformed 2 .unterminatedQuote) ∧
      g.words ("\"é b\"" ++ c.toString ++ "z \"x") =
        .error (.malformed 11 .unterminatedQuote) := by
  intro g c
  have hb : Text.isBlank c = true := by decide
  have he : c ≠ g.escape := by decide
  have hq : c ≠ g.quote := by decide
  have hfirst : g.words "\"é b\"" = .ok ["é b"] := by decide
  have hsecond : g.words "\"x\" y" = .ok ["x", "y"] := by decide
  have hfault : g.words "z \"x" = .error (.malformed 2 .unterminatedQuote) := by decide
  exact ⟨hb, he, hq, hfirst, hsecond, (words_append_separator hb he hq hfirst _).1 _ hsecond,
    hfault, (words_append_separator hb he hq hfirst _).2 _ _ hfault⟩

end TerminalShell.Command
