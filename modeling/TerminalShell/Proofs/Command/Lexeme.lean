import TerminalShell.Command.Grammar
import TerminalShell.Text.Blank
import Mathlib.Data.List.Chain

/-!
Lexemes, the grammar of a line: blank characters between words, single characters, pairs of the
escape character and another one, and quoted regions. Main statement: a line has at most one
spelling in lexemes.
-/
namespace TerminalShell.Command

/-- A character of a word, as it is or behind the escape character. -/
inductive Letter where
  | plain (c : Char)
  | escaped (c : Char)
  deriving DecidableEq, Repr

namespace Letter

def spelling (g : Grammar) : Letter → List Char
  | plain c => [c]
  | escaped c => [g.escape, c]

def value : Letter → Char
  | plain c => c
  | escaped c => if c = 'r' then '\r' else if c = 't' then '\t' else if c = 'n' then '\n' else c

/-- What may stand in a quoted region. -/
def IsLegal (g : Grammar) : Letter → Prop
  | plain c => c ≠ g.escape ∧ c ≠ g.quote
  | escaped _ => True

def IsBlank : Letter → Prop
  | plain c => Text.isBlank c = true
  | escaped _ => False

end Letter

inductive Lexeme where
  | separator (c : Char)
  | letter (l : Letter)
  | quoted (body : List Letter)
  deriving DecidableEq, Repr

namespace Lexeme

def isSeparator : Lexeme → Bool
  | separator _ => true
  | _ => false

def isQuoted : Lexeme → Bool
  | quoted _ => true
  | _ => false

def spelling (g : Grammar) : Lexeme → List Char
  | separator c => [c]
  | letter l => l.spelling g
  | quoted body => g.quote :: body.flatMap (Letter.spelling g) ++ [g.quote]

def value : Lexeme → List Char
  | separator _ => []
  | letter l => [l.value]
  | quoted body => body.map Letter.value

def IsLegal (g : Grammar) : Lexeme → Prop
  | separator c => Text.isBlank c = true ∧ c ≠ g.escape ∧ c ≠ g.quote
  | letter l => l.IsLegal g ∧ ¬ l.IsBlank
  | quoted body => ∀ l ∈ body, l.IsLegal g

/-- What the lexemes between any two separators add up to. -/
def runs (items : List Lexeme) : List String :=
  (items.splitOnP isSeparator).map fun run => String.ofList (run.flatMap value)

/-- The words of a line: its runs without the empty ones. -/
def words (items : List Lexeme) : List String := (runs items).filter fun word => !word.isEmpty

end Lexeme

def Grammar.spell (g : Grammar) (items : List Lexeme) : List Char :=
  items.flatMap (Lexeme.spelling g)

@[simp] theorem Grammar.spell_cons (g : Grammar) (x : Lexeme) (items : List Lexeme) :
    g.spell (x :: items) = x.spelling g ++ g.spell items := rfl

@[simp] theorem Grammar.spell_append (g : Grammar) (first second : List Lexeme) :
    g.spell (first ++ second) = g.spell first ++ g.spell second := List.flatMap_append

/-- The line is made of these lexemes, and no quoted region follows another one directly. -/
structure Grammar.Spells (g : Grammar) (items : List Lexeme) (text : List Char) : Prop where
  legal : ∀ x ∈ items, x.IsLegal g
  apart : items.IsChain fun x y => ¬ (x.isQuoted = true ∧ y.isQuoted = true)
  spell_eq : g.spell items = text

variable {g : Grammar}

theorem Letter.spelling_ne_quote (h : g.escape ≠ g.quote) {l : Letter} (hl : l.IsLegal g)
    (a b : List Char) : l.spelling g ++ a ≠ g.quote :: b := by
  cases l with
  | plain c => exact fun he => hl.2 (List.cons.inj he).1
  | escaped c => exact fun he => h (List.cons.inj he).1

theorem Letter.spelling_inj {l l' : Letter} (hl : l.IsLegal g) (hl' : l'.IsLegal g)
    {a b : List Char} (he : l.spelling g ++ a = l'.spelling g ++ b) : l = l' ∧ a = b := by
  cases l with
  | plain c =>
    cases l' with
    | plain c' =>
      obtain ⟨rfl, rfl⟩ := List.cons.inj he
      exact ⟨rfl, rfl⟩
    | escaped c' => exact absurd (List.cons.inj he).1 hl.1
  | escaped c =>
    cases l' with
    | plain c' => exact absurd (List.cons.inj he).1.symm hl'.1
    | escaped c' =>
      obtain ⟨rfl, rfl⟩ := List.cons.inj (List.cons.inj he).2
      exact ⟨rfl, rfl⟩

/-- A quoted region ends at the first quote that is not escaped. -/
theorem quotedBody_inj (h : g.escape ≠ g.quote) {first second : List Letter} {a b : List Char}
    (hf : ∀ l ∈ first, l.IsLegal g) (hs : ∀ l ∈ second, l.IsLegal g)
    (he : first.flatMap (Letter.spelling g) ++ g.quote :: a =
      second.flatMap (Letter.spelling g) ++ g.quote :: b) : first = second ∧ a = b := by
  induction first generalizing second with
  | nil =>
    cases second with
    | nil => exact ⟨rfl, (List.cons.inj he).2⟩
    | cons l second =>
      rw [List.flatMap_cons, List.append_assoc] at he
      exact absurd he.symm (Letter.spelling_ne_quote h (hs l List.mem_cons_self) _ _)
  | cons l first ih =>
    rw [List.flatMap_cons, List.append_assoc] at he
    obtain ⟨hl, hfirst⟩ := List.forall_mem_cons.mp hf
    cases second with
    | nil => exact absurd he (Letter.spelling_ne_quote h hl _ _)
    | cons l' second =>
      rw [List.flatMap_cons, List.append_assoc] at he
      obtain ⟨hl', hsecond⟩ := List.forall_mem_cons.mp hs
      obtain ⟨rfl, ht⟩ := Letter.spelling_inj hl hl' he
      obtain ⟨rfl, rfl⟩ := ih hfirst hsecond ht
      exact ⟨rfl, rfl⟩

theorem Lexeme.letter_ne_separator {l : Letter} {c : Char} (hl : (letter l).IsLegal g)
    (hc : (separator c).IsLegal g) (a b : List Char) : l.spelling g ++ a ≠ c :: b := by
  intro he
  cases l with
  | plain c' =>
    obtain ⟨rfl, -⟩ := List.cons.inj he
    exact hl.2 hc.1
  | escaped c' => exact hc.2.1 (List.cons.inj he).1.symm

/-- The first lexeme of a text is fixed. -/
theorem Lexeme.spelling_inj (h : g.escape ≠ g.quote) {x y : Lexeme} (hx : x.IsLegal g)
    (hy : y.IsLegal g) {a b : List Char} (he : x.spelling g ++ a = y.spelling g ++ b) :
    x = y ∧ a = b := by
  cases x with
  | separator c =>
    cases y with
    | separator c' =>
      obtain ⟨rfl, rfl⟩ := List.cons.inj he
      exact ⟨rfl, rfl⟩
    | letter l => exact absurd he.symm (letter_ne_separator hy hx _ _)
    | quoted body => exact absurd (List.cons.inj he).1 hx.2.2
  | letter l =>
    cases y with
    | separator c => exact absurd he (letter_ne_separator hx hy _ _)
    | letter l' =>
      obtain ⟨rfl, rfl⟩ := Letter.spelling_inj hx.1 hy.1 he
      exact ⟨rfl, rfl⟩
    | quoted body => exact absurd he (Letter.spelling_ne_quote h hx.1 _ _)
  | quoted body =>
    cases y with
    | separator c => exact absurd (List.cons.inj he).1.symm hy.2.2
    | letter l => exact absurd he.symm (Letter.spelling_ne_quote h hy.1 _ _)
    | quoted body' =>
      simp only [spelling, List.cons_append, List.append_assoc, List.cons.injEq, true_and,
        List.nil_append] at he
      obtain ⟨rfl, rfl⟩ := quotedBody_inj h hx hy he
      exact ⟨rfl, rfl⟩

theorem Lexeme.spelling_ne_nil (x : Lexeme) : x.spelling g ≠ [] := by
  cases x with
  | letter l => cases l <;> simp [spelling, Letter.spelling]
  | separator | quoted => simp [spelling]

theorem Grammar.spell_inj (h : g.escape ≠ g.quote) {first second : List Lexeme}
    (hf : ∀ x ∈ first, x.IsLegal g) (hs : ∀ x ∈ second, x.IsLegal g)
    (he : g.spell first = g.spell second) : first = second := by
  induction first generalizing second with
  | nil =>
    cases second with
    | nil => rfl
    | cons y second => simp [spell, Lexeme.spelling_ne_nil] at he
  | cons x first ih =>
    cases second with
    | nil => simp [spell, Lexeme.spelling_ne_nil] at he
    | cons y second =>
      rw [spell_cons, spell_cons] at he
      obtain ⟨hx, hfirst⟩ := List.forall_mem_cons.mp hf
      obtain ⟨hy, hsecond⟩ := List.forall_mem_cons.mp hs
      obtain ⟨rfl, ht⟩ := Lexeme.spelling_inj h hx hy he
      rw [ih hfirst hsecond ht]

/-- A line has one spelling in lexemes at most. -/
theorem Grammar.Spells.unique (h : g.escape ≠ g.quote) {first second : List Lexeme}
    {text : List Char} (hf : g.Spells first text) (hs : g.Spells second text) :
    first = second := by
  have he : g.spell first = g.spell second := hf.spell_eq.trans hs.spell_eq.symm
  exact spell_inj h hf.legal hs.legal he

end TerminalShell.Command
