import TerminalShell.Proofs.Command.LineGrammar

/-!
What becomes of words with redirection operators among them, under any operators, even ones that
are written alike. The first redirection operator divides the words: what is in front of it stays,
and what is behind it is the target or says what is wrong.
-/
namespace TerminalShell.Command.Grammar

variable {g : Grammar}

def redirectionOperators (g : Grammar) : List String := [g.input, g.output, g.append]

/-- The mode that a word stands for: of operators that are written alike the first one counts. -/
def StandsFor (g : Grammar) (word : String) : Redirection.Mode → Prop
  | .input => word = g.input
  | .output => word ≠ g.input ∧ word = g.output
  | .append => word ≠ g.input ∧ word ≠ g.output ∧ word = g.append

/-- What is made of a list of words, by the first redirection operator among them and the first
operator of any kind behind that one. -/
inductive Extracts (g : Grammar) :
    List String → Except LineError (List String × Option Redirection) → Prop where
  | unredirected {words : List String} (hw : ∀ word ∈ words, word ∉ g.redirectionOperators) :
    Extracts g words (.ok (words, none))
  | missing {front : List String} {operator : String}
      (hf : ∀ word ∈ front, word ∉ g.redirectionOperators)
      (ho : operator ∈ g.redirectionOperators) :
    Extracts g (front ++ [operator]) (.error (.missingTarget operator))
  | ambiguous {front between more : List String} {operator extra : String}
      (hf : ∀ word ∈ front, word ∉ g.redirectionOperators)
      (ho : operator ∈ g.redirectionOperators)
      (hb : ∀ word ∈ between, word ∉ g.operators) (he : extra ∈ g.operators) :
    Extracts g (front ++ operator :: (between ++ extra :: more)) (.error (.ambiguousTarget extra))
  | redirected {front target : List String} {operator : String} {mode : Redirection.Mode}
      (hf : ∀ word ∈ front, word ∉ g.redirectionOperators) (hm : g.StandsFor operator mode)
      (hne : target ≠ []) (ht : ∀ word ∈ target, word ∉ g.operators) :
    Extracts g (front ++ operator :: target) (.ok (front, some ⟨mode, " ".intercalate target⟩))

theorem mode?_eq_some_iff {word : String} {mode : Redirection.Mode} :
    g.mode? word = some mode ↔ g.StandsFor word mode := by
  by_cases hi : word = g.input
  · cases mode <;> simp [mode?, StandsFor, hi]
  · by_cases ho : word = g.output
    · cases mode <;> simp_all [mode?, StandsFor]
    · by_cases ha : word = g.append <;> cases mode <;> simp_all [mode?, StandsFor]

theorem exists_standsFor {operator : String} (ho : operator ∈ g.redirectionOperators) :
    ∃ mode, g.StandsFor operator mode := by
  obtain ⟨mode, hm⟩ := Option.ne_none_iff_exists'.mp (mt mode?_eq_none_iff.mp (not_not_intro ho))
  exact ⟨mode, mode?_eq_some_iff.mp hm⟩

/-- Words without any of some operators, or the first such word with what stands around it. -/
theorem exists_first_operator (operators words : List String) :
    (∀ word ∈ words, word ∉ operators) ∨ ∃ front operator rest,
      words = front ++ operator :: rest ∧ operator ∈ operators ∧
        ∀ word ∈ front, word ∉ operators := by
  cases h : words.find? (· ∈ operators) with
  | none => exact .inl (by simpa using h)
  | some operator =>
    obtain ⟨ho, front, rest, hwords, hf⟩ := List.find?_eq_some_iff_append.mp h
    exact .inr ⟨front, operator, rest, hwords, by simpa using ho, by simpa using hf⟩

/-- Words in front of the first redirection operator stay as they are. -/
theorem extractRedirection_at {front clause : List String} {operator : String}
    {mode : Redirection.Mode} (hf : ∀ word ∈ front, word ∉ g.redirectionOperators)
    (hm : g.StandsFor operator mode) :
    g.extractRedirection (front ++ operator :: clause) =
      (g.target operator clause).map fun target => (front, some ⟨mode, target⟩) := by
  rw [extractRedirection_append fun word hw => mode?_eq_none (hf word hw),
    extractRedirection_cons_of_mode?_eq_some (mode?_eq_some_iff.mpr hm)]
  cases g.target operator clause <;> simp [Except.map]

theorem target_ambiguous {between more : List String} {extra : String}
    (hb : ∀ word ∈ between, word ∉ g.operators) (he : extra ∈ g.operators) (operator : String) :
    g.target operator (between ++ extra :: more) = .error (.ambiguousTarget extra) := by
  have hfind : (between ++ extra :: more).find? g.isOperator = some extra := by
    rw [List.find?_eq_some_iff_append]
    exact ⟨isOperator_iff.mpr he, between, more, rfl, by simpa [isOperator_eq_false_iff] using hb⟩
  simp [target, hfind]

theorem Extracts.extractRedirection_eq {words : List String}
    {outcome : Except LineError (List String × Option Redirection)} (h : g.Extracts words outcome) :
    g.extractRedirection words = outcome := by
  cases h with
  | unredirected hw =>
    have happ := extractRedirection_append (fun word hm => mode?_eq_none (hw word hm)) []
    simpa [extractRedirection, Except.map] using happ
  | missing hf ho =>
    obtain ⟨mode, hm⟩ := exists_standsFor ho
    rw [extractRedirection_at hf hm]
    rfl
  | ambiguous hf ho hb he =>
    obtain ⟨mode, hm⟩ := exists_standsFor ho
    rw [extractRedirection_at hf hm, target_ambiguous hb he]
    rfl
  | redirected hf hm hne ht =>
    rw [extractRedirection_at hf hm, target_eq_ok_iff.mpr ⟨⟨hne, ht⟩, rfl⟩]
    rfl

/-- Any words are extracted from in one of these ways. -/
theorem exists_extracts (g : Grammar) (words : List String) :
    ∃ outcome, g.Extracts words outcome := by
  rcases exists_first_operator g.redirectionOperators words with
    hw | ⟨front, operator, clause, rfl, ho, hf⟩
  · exact ⟨_, .unredirected hw⟩
  · rcases exists_first_operator g.operators clause with
      ht | ⟨between, extra, more, rfl, he, hb⟩
    · by_cases hne : clause = []
      · subst hne
        exact ⟨_, .missing hf ho⟩
      · obtain ⟨mode, hm⟩ := exists_standsFor ho
        exact ⟨_, .redirected hf hm hne ht⟩
    · exact ⟨_, .ambiguous hf ho hb he⟩

theorem extractRedirection_eq_iff {words : List String}
    {outcome : Except LineError (List String × Option Redirection)} :
    g.extractRedirection words = outcome ↔ g.Extracts words outcome := by
  refine ⟨?_, Extracts.extractRedirection_eq⟩
  rintro rfl
  obtain ⟨outcome, h⟩ := g.exists_extracts words
  rw [h.extractRedirection_eq]
  exact h

theorem Extracts.front_unredirected {words front : List String} {redirection : Option Redirection}
    (h : g.Extracts words (.ok (front, redirection))) :
    ∀ word ∈ front, word ∉ g.redirectionOperators := by
  cases h with
  | unredirected hw => exact hw
  | redirected hf _ _ _ => exact hf

/-- Whatever the operators are, and whether or not they differ: words come back as they are, without
a redirection, exactly when no redirection operator is among them. Otherwise the first one decides:
nothing behind it is a missing target, the first operator of any kind behind it is reported, and
without one the words behind it make the target and those in front of it stay. What stays holds no
redirection operator, so nothing more can be extracted from it. -/
theorem redirection_extracted_exactly (g : Grammar) (words : List String) :
    (∀ outcome, g.extractRedirection words = outcome ↔ g.Extracts words outcome) ∧
    (g.extractRedirection words = .ok (words, none) ↔
      ∀ word ∈ words, word ∉ g.redirectionOperators) ∧
    ∀ front redirection, g.extractRedirection words = .ok (front, redirection) →
      (∀ word ∈ front, word ∉ g.redirectionOperators) ∧
        g.extractRedirection front = .ok (front, none) := by
  refine ⟨fun _ => extractRedirection_eq_iff, ⟨fun h => ?_, fun hw => ?_⟩,
    fun front redirection h => ?_⟩
  · exact (extractRedirection_eq_iff.mp h).front_unredirected
  · exact (Extracts.unredirected hw).extractRedirection_eq
  · have hf := (extractRedirection_eq_iff.mp h).front_unredirected
    exact ⟨hf, (Extracts.unredirected hf).extractRedirection_eq⟩

/-- An output operator that is also the pipe ends the words in front of it, but a target too. -/
example :
    let g : Grammar := { output := "|" }
    g.extractRedirection ["a", "|", "b", "c"] = .ok (["a"], some ⟨.output, "b c"⟩) ∧
      g.extractRedirection ["a", "|", "b", "|"] = .error (.ambiguousTarget "|") := by
  decide

end TerminalShell.Command.Grammar
