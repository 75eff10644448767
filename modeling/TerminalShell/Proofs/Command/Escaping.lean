import TerminalShell.Proofs.Command.LexemeScan
import TerminalShell.Proofs.Settings.Validity
import TerminalShell.Proofs.Text.Splitting

/-!
Words typed letter by letter, with the escape character before everything that has a meaning of
its own. Main statement: a line of words that are typed so has just these words.
-/
namespace TerminalShell.Command

namespace Grammar

/-- A character that does not stand for itself outside quoted regions. -/
def isSpecial (g : Grammar) (c : Char) : Bool := c == g.escape || c == g.quote || Text.isBlank c

/-- A text with the escape character before every special character. -/
def escapeText (g : Grammar) (text : String) : String :=
  String.ofList (text.toList.flatMap fun c => if g.isSpecial c then [g.escape, c] else [c])

/-- The line that spells out some words, with single spaces between them. -/
def typed (g : Grammar) (words : List String) : String :=
  " ".intercalate (words.map g.escapeText)

/-- The characters that an escape character would turn into others. -/
def renamed : List Char := ['r', 't', 'n']

/-- Escaping works: the characters that are special are told apart, and none of them is renamed. -/
structure Escapes (g : Grammar) : Prop where
  escape_ne_quote : g.escape ≠ g.quote
  escape_not_blank : Text.isBlank g.escape = false
  quote_not_blank : Text.isBlank g.quote = false
  escape_not_renamed : g.escape ∉ renamed
  quote_not_renamed : g.quote ∉ renamed

theorem IsSound.escapes {g : Grammar} (h : g.IsSound) (he : g.escape ∉ renamed)
    (hq : g.quote ∉ renamed) : g.Escapes :=
  ⟨h.escape_ne_quote, h.escape_not_blank, h.quote_not_blank, he, hq⟩

def letter (g : Grammar) (c : Char) : Letter := if g.isSpecial c then .escaped c else .plain c

def lexemes (g : Grammar) (text : String) : List Lexeme :=
  text.toList.map fun c => .letter (g.letter c)

end Grammar

variable {g : Grammar}

/-- A special character that escaping does not give back, since another one stands for it then. -/
def Grammar.IsLost (g : Grammar) (c : Char) : Prop := (c = g.escape ∨ c = g.quote) ∧ c ∈ renamed

theorem Grammar.letter_value {c : Char} (h : ¬ g.IsLost c) : (g.letter c).value = c := by
  unfold letter
  split
  next hs =>
    have hc : c ∉ renamed := by
      intro hr
      simp only [isSpecial, Bool.or_eq_true, beq_iff_eq] at hs
      rcases hs with hs | hb
      · exact h ⟨hs, hr⟩
      · simp only [renamed, List.mem_cons, List.not_mem_nil, or_false] at hr
        rcases hr with rfl | rfl | rfl <;> contradiction
    simp only [renamed, List.mem_cons, List.not_mem_nil, or_false, not_or] at hc
    simp [Letter.value, hc]
  next => rfl

theorem Grammar.Escapes.not_isLost (h : g.Escapes) (c : Char) : ¬ g.IsLost c := by
  rintro ⟨rfl | rfl, hr⟩
  · exact h.escape_not_renamed hr
  · exact h.quote_not_renamed hr

theorem Grammar.letter_isLegal (g : Grammar) (c : Char) :
    (Lexeme.letter (g.letter c)).IsLegal g := by
  unfold letter
  split
  next => exact ⟨trivial, id⟩
  next hs =>
    simp only [isSpecial, Bool.or_eq_true, beq_iff_eq, not_or] at hs
    exact ⟨hs.1, hs.2⟩

theorem Grammar.letter_spelling (g : Grammar) (c : Char) :
    (g.letter c).spelling g = if g.isSpecial c then [g.escape, c] else [c] := by
  unfold letter
  split <;> rfl

theorem Grammar.spell_lexemes (g : Grammar) (text : String) :
    g.spell (g.lexemes text) = (g.escapeText text).toList := by
  simp [spell, lexemes, escapeText, List.flatMap_map, Lexeme.spelling, letter_spelling]

theorem Grammar.of_mem_lexemes {text : String} {x : Lexeme} (hx : x ∈ g.lexemes text) :
    x.IsLegal g ∧ x.isQuoted = false ∧ x.isSeparator = false := by
  obtain ⟨c, -, rfl⟩ := List.mem_map.mp hx
  exact ⟨g.letter_isLegal c, rfl, rfl⟩

def Grammar.typedLexemes (g : Grammar) (words : List String) : List Lexeme :=
  [.separator ' '].intercalate (words.map g.lexemes)

theorem Grammar.spell_typedLexemes (g : Grammar) (words : List String) :
    g.spell (g.typedLexemes words) = (g.typed words).toList := by
  unfold typed typedLexemes
  rw [String.toList_intercalate, List.map_map]
  induction words with
  | nil => rfl
  | cons word rest ih =>
    cases rest with
    | nil => simpa using spell_lexemes g word
    | cons next rest =>
      simp only [List.map_cons, List.intercalate_cons_cons, spell_append, Function.comp_apply,
        spell_lexemes] at ih ⊢
      rw [ih]
      rfl

theorem Grammar.space_isLegal (he : Text.isBlank g.escape = false)
    (hq : Text.isBlank g.quote = false) : (Lexeme.separator ' ').IsLegal g := by
  refine ⟨by decide, ?_, ?_⟩
  · intro hc
    exact absurd he (by rw [← hc]; decide)
  · intro hc
    exact absurd hq (by rw [← hc]; decide)

theorem Grammar.spells_typedLexemes (hs : (Lexeme.separator ' ').IsLegal g)
    (words : List String) : g.Spells (g.typedLexemes words) (g.typed words).toList := by
  have hall : ∀ x ∈ g.typedLexemes words, x.IsLegal g ∧ x.isQuoted = false := by
    apply Text.forall_mem_intercalate
    · exact List.forall_mem_singleton.mpr ⟨hs, rfl⟩
    · intro l hl x hx
      obtain ⟨word, -, rfl⟩ := List.mem_map.mp hl
      exact ⟨(of_mem_lexemes hx).1, (of_mem_lexemes hx).2.1⟩
  refine ⟨fun x hx => (hall x hx).1, List.Pairwise.isChain ?_, spell_typedLexemes g words⟩
  apply List.pairwise_of_forall_mem_list
  intro x hx y _ hq
  simp [(hall x hx).2] at hq

theorem Grammar.value_lexemes {word : String} (h : ∀ c ∈ word.toList, ¬ g.IsLost c) :
    (g.lexemes word).flatMap Lexeme.value = word.toList := by
  have hvalue : ∀ c ∈ word.toList, (Lexeme.letter (g.letter c)).value = [c] := fun c hc => by
    rw [Lexeme.value, letter_value (h c hc)]
  rw [lexemes, List.flatMap_map, List.flatMap_congr hvalue]
  simp

theorem Grammar.runs_typedLexemes {words : List String} (hne : words ≠ [])
    (h : ∀ word ∈ words, ∀ c ∈ word.toList, ¬ g.IsLost c) :
    Lexeme.runs (g.typedLexemes words) = words := by
  have hsplit : (g.typedLexemes words).splitOnP Lexeme.isSeparator = words.map g.lexemes := by
    apply Text.splitOnP_intercalate rfl
    · intro l hl x hx
      obtain ⟨word, -, rfl⟩ := List.mem_map.mp hl
      exact (of_mem_lexemes hx).2.2
    · simpa using hne
  have hword : ∀ word ∈ words,
      String.ofList ((g.lexemes word).flatMap Lexeme.value) = word := fun word hw => by
    rw [value_lexemes (h word hw), String.ofList_toList]
  rw [Lexeme.runs, hsplit, List.map_map]
  exact (List.map_congr_left hword).trans (List.map_id words)

/-- Typed words are read as they are, if escaping gives back all of their characters. -/
theorem Grammar.words_typed (he : g.escape ≠ g.quote) (hs : (Lexeme.separator ' ').IsLegal g)
    {words : List String} (hw : ∀ word ∈ words, word ≠ "")
    (hl : ∀ word ∈ words, ∀ c ∈ word.toList, ¬ g.IsLost c) :
    g.words (g.typed words) = .ok words := by
  rw [words_of_spells he (spells_typedLexemes hs words), Lexeme.words]
  congr 1
  by_cases hne : words = []
  · subst hne
    rfl
  · rw [runs_typedLexemes hne hl, List.filter_eq_self]
    intro word hm
    simpa using hw word hm

theorem Grammar.Escapes.words_typed (h : g.Escapes) {words : List String}
    (hw : ∀ word ∈ words, word ≠ "") : g.words (g.typed words) = .ok words :=
  Grammar.words_typed h.escape_ne_quote (space_isLegal h.escape_not_blank h.quote_not_blank) hw
    fun _ _ c _ => h.not_isLost c

end TerminalShell.Command
