import TerminalShell.Proofs.Command.SeparatedLines
import TerminalShell.Proofs.Command.TypedWords

/-!
The words that can be typed. A scan puts a letter into a word as it is or behind the escape
character, and a special character that is renamed there comes out of neither. Main statement: what
can be typed under valid settings are the words without such a character.
-/
namespace TerminalShell.Command

variable {g : Grammar}

namespace Scan

variable {s t : Scan} {c : Char}

/-- The letters of the words so far, the one that is not complete included. -/
def letters (s : Scan) : List Char := s.words.toList.flatMap String.toList ++ s.word.toList

theorem flatMap_allWords (s : Scan) : s.allWords.toList.flatMap String.toList = s.letters := by
  rw [allWords_toList, List.flatMap_append, letters]
  by_cases h : s.word = "" <;> simp [h]

/-- What one more character adds to the letters, by what it means where it stands. -/
inductive Adds (g : Grammar) (s : Scan) (c : Char) : List Char → Prop where
  | escaped (hs : s.escaping = true) : Adds g s c [unescape c]
  | special (hs : s.escaping = false) (hc : c = g.escape ∨ c = g.quote) : Adds g s c []
  | separator (hs : s.escaping = false) (hc : c ≠ g.escape ∧ c ≠ g.quote)
      (hb : Text.isBlank c = true) (hr : ∀ start, s.region ≠ .quoted start) : Adds g s c []
  | plain (hs : s.escaping = false) (hc : c ≠ g.escape ∧ c ≠ g.quote)
      (hb : Text.isBlank c = true → ∃ start, s.region = .quoted start) : Adds g s c [c]

theorem adds_of_step (h : s.step g c = .ok t) :
    ∃ added, s.Adds g c added ∧ t.letters = s.letters ++ added := by
  cases steps_of_step h with
  | escaped hs => exact ⟨_, .escaped hs, by simp [letters]⟩
  | escape hs hc => exact ⟨_, .special hs (.inl hc), by simp [letters]⟩
  | opening hs hc | closing hs hc => exact ⟨_, .special hs (.inr hc), by simp [letters]⟩
  | separator hs hc hb hr => exact ⟨_, .separator hs hc hb hr, by simp [letters, flatMap_allWords]⟩
  | plain hs hc hb => exact ⟨_, .plain hs hc hb, by simp [letters]⟩

end Scan

theorem Grammar.letters_of_words {line : String} {words : List String}
    (h : g.words line = .ok words) :
    ∃ s, g.scan {} line.toList = .ok s ∧ words.flatMap String.toList = s.letters := by
  obtain ⟨s, hs, -, rfl⟩ := exists_scan_of_words h
  exact ⟨s, hs, s.flatMap_allWords⟩

theorem unescape_notMem_renamed (c : Char) : unescape c ∉ Grammar.renamed := by
  unfold unescape
  split <;> simp_all [Grammar.renamed]

theorem unescape_eq_self_iff {c : Char} : unescape c = c ↔ c ∉ Grammar.renamed := by
  refine ⟨fun h => h ▸ unescape_notMem_renamed c, fun h => ?_⟩
  simp only [Grammar.renamed, List.mem_cons, List.not_mem_nil, or_false, not_or] at h
  exact unescape.eq_4 c h.1 h.2.1 h.2.2

theorem Scan.Adds.not_isLost {s : Scan} {c : Char} {added : List Char} (h : s.Adds g c added) :
    ∀ d ∈ added, ¬ g.IsLost d := by
  cases h with
  | escaped => exact List.forall_mem_singleton.mpr fun hl => unescape_notMem_renamed c hl.2
  | special | separator => simp
  | plain _ hc _ => exact List.forall_mem_singleton.mpr fun hl => hl.1.elim hc.1 hc.2

/-- No line puts a lost character into a word. -/
theorem Grammar.not_isLost_of_words {line : String} {words : List String}
    (h : g.words line = .ok words) : ∀ word ∈ words, ∀ c ∈ word.toList, ¬ g.IsLost c := by
  obtain ⟨s, hs, hletters⟩ := letters_of_words h
  have hall : ∀ c ∈ s.letters, ¬ g.IsLost c := by
    apply scan_induction (P := fun _ s => ∀ c ∈ s.letters, ¬ g.IsLost c) _ _ hs
    · simp [Scan.letters]
    · intro _ s c t ih ht
      obtain ⟨added, hadds, hl⟩ := Scan.adds_of_step ht
      rw [hl]
      exact List.forall_mem_append.mpr ⟨ih, hadds.not_isLost⟩
  intro word hw c hc
  exact hall c (hletters ▸ List.mem_flatMap.mpr ⟨word, hw, hc⟩)

/-- The lists of words that there are lines for under a sound grammar. -/
theorem Grammar.IsSound.exists_words_iff (h : g.IsSound) {words : List String} :
    (∃ line, g.words line = .ok words) ↔
      ∀ word ∈ words, word ≠ "" ∧ ∀ c ∈ word.toList, ¬ g.IsLost c := by
  constructor
  · rintro ⟨line, hline⟩ word hw
    exact ⟨ne_empty_of_mem_words hline word hw, not_isLost_of_words hline word hw⟩
  · intro hw
    exact ⟨_, words_typed h.escape_ne_quote (space_isLegal h.escape_not_blank h.quote_not_blank)
      (fun word hm => (hw word hm).1) fun word hm => (hw word hm).2⟩

theorem Grammar.words_escaped (h : g.escape ≠ g.quote) (c : Char) :
    g.words (String.ofList [g.escape, c]) = .ok [(unescape c).toString] := by
  have hspells : g.Spells [.letter (.escaped c)] (String.ofList [g.escape, c]).toList := by
    refine ⟨List.forall_mem_singleton.mpr ⟨trivial, id⟩, .singleton _, ?_⟩
    rw [String.toList_ofList]
    rfl
  rw [words_of_spells h hspells, ← Letter.value_escaped, Lexeme.words, Lexeme.runs_cons rfl,
    Lexeme.runs_nil]
  simp [Lexeme.value, Char.toString]

/-- Under valid settings just those words can be typed that hold no lost character, an escape or
quote character that is renamed; hence all words can when neither of the two is. A character behind
the escape character stands for itself exactly when it is not renamed, be it the escape or the quote
character. -/
theorem typable_iff_not_isLost {s : Settings} (h : s.validate = .ok ()) :
    (∀ word, word ≠ "" → ((∃ line, s.grammar.words line = .ok [word]) ↔
      ∀ c ∈ word.toList, ¬ s.grammar.IsLost c)) ∧
    ((∀ word, word ≠ "" → ∃ line, s.grammar.words line = .ok [word]) ↔
      s.grammar.escape ∉ Grammar.renamed ∧ s.grammar.quote ∉ Grammar.renamed) ∧
    ∀ c, s.grammar.words (String.ofList [s.grammar.escape, c]) = .ok [c.toString] ↔
      c ∉ Grammar.renamed := by
  have hs := Settings.grammar_isSound h
  have hone : ∀ word, word ≠ "" → ((∃ line, s.grammar.words line = .ok [word]) ↔
      ∀ c ∈ word.toList, ¬ s.grammar.IsLost c) := by
    intro word hw
    rw [hs.exists_words_iff, List.forall_mem_singleton, and_iff_right hw]
  refine ⟨hone, ⟨fun hall => ?_, ?_⟩, fun c => ?_⟩
  · have hkept (c : Char) : ¬ s.grammar.IsLost c :=
      (hone c.toString (by simp [Char.toString])).mp (hall _ (by simp [Char.toString])) c
        (by simp [Char.toString])
    exact ⟨fun hr => hkept _ ⟨.inl rfl, hr⟩, fun hr => hkept _ ⟨.inr rfl, hr⟩⟩
  · rintro ⟨he, hq⟩ word hw
    exact (hone word hw).mpr fun c _ => (hs.escapes he hq).not_isLost c
  · rw [Grammar.words_escaped hs.escape_ne_quote, Except.ok.injEq, List.cons.injEq,
      and_iff_left rfl, ← unescape_eq_self_iff]
    simp [Char.toString]

/-- A letter for the escape character: words without it can be typed, line ends and quotes
included, and the quote stands for itself behind it. -/
theorem typable_iff_not_isLost_letter :
    let s : Settings := { grammar := { escape := 'n', quote := '\'' } }
    s.validate = .ok () ∧ "it's\na t" ≠ "" ∧ (∃ line, s.grammar.words line = .ok ["it's\na t"]) ∧
      s.grammar.words "n'" = .ok ["'"] := by
  intro s
  have h : s.validate = .ok () := by decide
  have hw : "it's\na t" ≠ "" := by decide
  obtain ⟨hone, -, hpair⟩ := typable_iff_not_isLost h
  refine ⟨h, hw, (hone _ hw).mpr ?_, (hpair '\'').mpr (by decide)⟩
  simp [Grammar.IsLost, Grammar.renamed, s]

/-- A letter can be set for the escape character or the quote. Twice the escape character then makes
a line end, and no line has the letter for a word. -/
theorem not_typable_renamed :
    let s : Settings := { grammar := { escape := 'n' } }
    let s' : Settings := { grammar := { quote := 't' } }
    (s.validate = .ok () ∧ s.grammar.words "nn" = .ok ["\n"] ∧
      ¬ ∃ line, s.grammar.words line = .ok ["n"]) ∧
    s'.validate = .ok () ∧ s'.grammar.words "\\t" = .ok ["\t"] ∧
      ¬ ∃ line, s'.grammar.words line = .ok ["t"] := by
  intro s s'
  have hs : s.grammar.IsLost 'n' := ⟨.inl rfl, by decide⟩
  have hs' : s'.grammar.IsLost 't' := ⟨.inr rfl, by decide⟩
  refine ⟨⟨by decide, by decide, ?_⟩, by decide, by decide, ?_⟩
  · rintro ⟨line, hline⟩
    exact Grammar.not_isLost_of_words hline "n" List.mem_cons_self 'n' (by decide) hs
  · rintro ⟨line, hline⟩
    exact Grammar.not_isLost_of_words hline "t" List.mem_cons_self 't' (by decide) hs'

end TerminalShell.Command
