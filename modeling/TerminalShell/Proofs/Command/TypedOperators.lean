import TerminalShell.Proofs.Command.RedirectionClause
import TerminalShell.Proofs.Command.Typability

/-!
Operators typed as words of their own. Each special character costs a scan a letter, so a word with
such a character in it is never read as it is written. Main statement: just the operators without
the escape and the quote character are operators when they are typed, whatever stands around them.
-/
namespace TerminalShell.Command

variable {g : Grammar} {op second : String} {more : List String}

namespace Scan

variable {s t : Scan} {text : List Char}

theorem AtRest.of_step {c : Char} (hs : s.AtRest) (hc : c ≠ g.escape ∧ c ≠ g.quote)
    (h : s.step g c = .ok t) : t.AtRest := by
  cases steps_of_step h with
  | escaped he => simp [hs.1] at he
  | escape _ he => exact absurd he hc.1
  | opening _ hq | closing _ hq => exact absurd hq hc.2
  | separator he | plain he => exact ⟨he, by simp [next_of_atRest hs]⟩

/-- A scan has at most as many letters as it has read characters, and has as many only while it has
met no special character. -/
theorem length_letters_le (h : g.scan {} text = .ok s) :
    s.letters.length ≤ text.length ∧
      (s.letters.length = text.length → g.escape ∉ text ∧ g.quote ∉ text ∧ s.AtRest) := by
  refine Grammar.scan_induction (P := fun text s => s.letters.length ≤ text.length ∧
    (s.letters.length = text.length → g.escape ∉ text ∧ g.quote ∉ text ∧ s.AtRest)) ?_ ?_ h
  · exact ⟨by simp [letters], fun _ => ⟨by simp, by simp, atRest_empty⟩⟩
  · rintro text s c t ⟨hle, hplain⟩ ht
    obtain ⟨added, hadds, hl⟩ := adds_of_step ht
    rw [hl, List.length_append, List.length_append, List.length_singleton]
    cases hadds with
    | special | separator => exact ⟨by simp; omega, fun he => by simp at he; omega⟩
    | escaped hs =>
      have hlt : s.letters.length ≠ text.length := fun he => by simp [(hplain he).2.2.1] at hs
      exact ⟨by simpa using hle, fun he => absurd (Nat.add_right_cancel he) hlt⟩
    | plain hs hc _ =>
      refine ⟨by simpa using hle, fun he => ?_⟩
      obtain ⟨hesc, hquote, hrest⟩ := hplain (Nat.add_right_cancel he)
      exact ⟨by simpa [hesc] using hc.1.symm, by simpa [hquote] using hc.2.symm,
        hrest.of_step hc ht⟩

/-- What a scan has of the words stays in front of what it comes to. -/
theorem letters_prefix (h : g.scan s text = .ok t) : s.letters <+: t.letters := by
  induction text generalizing s with
  | nil => exact Except.ok.inj h ▸ List.prefix_rfl
  | cons c text ih =>
    obtain ⟨s', hc, ht⟩ := Grammar.exists_of_scan_cons h
    obtain ⟨added, -, hl⟩ := adds_of_step hc
    exact (hl ▸ List.prefix_append s.letters added).trans (ih ht)

/-- A space that does not separate words is a letter. -/
theorem letters_of_step_space (hspace : (Lexeme.separator ' ').IsLegal g) (hs : ¬ s.AtRest)
    (h : s.step g ' ' = .ok t) : t.letters = s.letters ++ [' '] := by
  obtain ⟨added, hadds, hl⟩ := adds_of_step h
  rw [hl]
  cases hadds with
  | escaped => rfl
  | special _ hc => exact absurd hc (not_or.mpr hspace.2)
  | separator hs' _ _ hr => exact absurd ⟨hs', hr⟩ hs
  | plain => rfl

end Scan

/-- An unbroken word without special characters is read as it is. -/
theorem Grammar.IsSound.words_plain (h : g.IsSound) (hu : Text.IsUnbroken op)
    (he : g.escape ∉ op.toList) (hq : g.quote ∉ op.toList) : g.words op = .ok [op] := by
  have hplain : ∀ c ∈ op.toList, c ≠ g.escape ∧ c ≠ g.quote := fun c hc =>
    ⟨fun hce => he (hce ▸ hc), fun hcq => hq (hcq ▸ hc)⟩
  have htyped : g.typed [op] = op := by
    have hspecial : ∀ c ∈ op.toList, (if g.isSpecial c then [g.escape, c] else [c]) = [c] := by
      intro c hc
      rw [if_neg]
      simp [isSpecial, hplain c hc, hu.2 c hc]
    simp [typed, escapeText, List.flatMap_congr hspecial]
  have hwords : g.words (g.typed [op]) = .ok [op] := by
    refine words_typed h.escape_ne_quote (space_isLegal h.escape_not_blank h.quote_not_blank)
      (List.forall_mem_singleton.mpr hu.1) (List.forall_mem_singleton.mpr fun c hc hl => ?_)
    exact hl.1.elim (hplain c hc).1 (hplain c hc).2
  rwa [htyped] at hwords

/-- A word that is read as it is, in front of others, holds no special character. -/
theorem Grammar.IsSound.plain_of_words (h : g.IsSound) (hu : Text.IsUnbroken op)
    (hsecond : g.words second = .ok more) (hw : g.words (op ++ " " ++ second) = .ok (op :: more)) :
    g.escape ∉ op.toList ∧ g.quote ∉ op.toList := by
  have hspace := space_isLegal h.escape_not_blank h.quote_not_blank
  obtain ⟨t, ht, hletters⟩ := letters_of_words hw
  have hline : (op ++ " " ++ second).toList = op.toList ++ ' ' :: second.toList := by simp
  rw [hline] at ht
  obtain ⟨s, hs, hbehind⟩ := exists_of_scan_append ht
  obtain ⟨hle, hplain⟩ := Scan.length_letters_le hs
  by_cases hrest : s.AtRest
  · -- the space ends the word, which has all its letters
    have hop : g.words op = .ok s.allWords.toList := by
      rw [words, hs, Except.bind, Scan.finish_of_atRest hrest]
    have hboth := words_append_of_words hspace hop second
    rw [hsecond] at hboth
    have hwords : s.allWords.toList ++ more = [op] ++ more :=
      Except.ok.inj (hboth.symm.trans hw)
    have hall : s.letters = op.toList := by
      rw [← Scan.flatMap_allWords, List.append_cancel_right hwords, List.flatMap_singleton]
    exact (hplain (congrArg List.length hall)).imp_right And.left
  · -- the space is one more letter, which the word does not have
    have hlt : s.letters.length < op.toList.length :=
      lt_of_le_of_ne hle fun he => hrest (hplain he).2.2
    obtain ⟨s', hstep, hlast⟩ := exists_of_scan_cons hbehind
    have hgrows : s.letters ++ [' '] <+: op.toList ++ more.flatMap String.toList := by
      rw [← Scan.letters_of_step_space hspace hrest hstep, ← List.flatMap_cons, hletters]
      exact Scan.letters_prefix hlast
    have hfirst : s.letters ++ [' '] <+: op.toList := by
      refine List.prefix_of_prefix_length_le hgrows (List.prefix_append _ _) ?_
      rw [List.length_append]
      exact hlt
    have hmem : ' ' ∈ op.toList :=
      hfirst.subset (List.mem_append_right _ (List.mem_singleton_self _))
    exact absurd (hu.2 ' ' hmem) (by decide)

/-- What a word does that is recognised as an operator: the pipe ends a segment, and another
operator begins the redirection. -/
inductive Grammar.Divides (g : Grammar) : String → Prop where
  | pipe (h : ∀ front back, g.pipe ∉ front → segments g.pipe (front ++ g.pipe :: back) =
      if front = [] then .error (.emptyStage 0)
      else (checkPieces 1 (back.splitOn g.pipe)).map (front :: ·)) : g.Divides g.pipe
  | redirection {op : String} {mode : Redirection.Mode} (hm : g.StandsFor op mode)
      (h : ∀ front back, (∀ word ∈ front, word ∉ g.redirectionOperators) →
        g.extractRedirection (front ++ op :: back) =
          (g.target op back).map fun target => (front, some ⟨mode, target⟩)) : g.Divides op

theorem segments_at {pipe : String} {front : List String} (h : pipe ∉ front)
    (back : List String) :
    segments pipe (front ++ pipe :: back) =
      if front = [] then .error (.emptyStage 0)
      else (checkPieces 1 (back.splitOn pipe)).map (front :: ·) := by
  have hcut : (front ++ pipe :: back).splitOn pipe = front :: back.splitOn pipe := by
    have hfront : ∀ word ∈ front, (word == pipe) = false := fun word hw =>
      beq_eq_false_iff_ne.mpr fun he => h (he ▸ hw)
    rw [List.splitOn_eq_splitOnP, List.splitOn_eq_splitOnP,
      List.splitOnP_append_cons_of_forall_mem hfront pipe (beq_self_eq_true pipe)]
  rw [segments_eq_checkPieces (by simp), hcut, checkPieces]

theorem Grammar.divides_of_mem_operators (h : op ∈ g.operators) : g.Divides op := by
  rw [operators, List.mem_cons] at h
  rcases h with rfl | hr
  · exact .pipe fun front back hf => segments_at hf back
  · obtain ⟨mode, hm⟩ := exists_standsFor hr
    exact .redirection hm fun front back hf => extractRedirection_at hf hm

/-- Under valid settings an operator between two lines that have words is a word of its own there,
with the words of the lines around it, exactly when neither the escape nor the quote character is in
it. Any operator that is a word divides the words around it. -/
theorem operator_is_word_iff {s : Settings} (h : s.validate = .ok ()) {op : String}
    (ho : op ∈ s.grammar.operators) :
    (∀ first second before after, s.grammar.words first = .ok before →
      s.grammar.words second = .ok after →
      (s.grammar.words (first ++ " " ++ op ++ " " ++ second) = .ok (before ++ [op] ++ after) ↔
        s.grammar.escape ∉ op.toList ∧ s.grammar.quote ∉ op.toList)) ∧
    s.grammar.Divides op := by
  have hs := Settings.grammar_isSound h
  have hu := hs.operators_unbroken op ho
  have hspace := Grammar.space_isLegal hs.escape_not_blank hs.quote_not_blank
  refine ⟨fun first second before after hfirst hsecond => ?_, Grammar.divides_of_mem_operators ho⟩
  have hline :
      s.grammar.words (first ++ " " ++ op ++ " " ++ second) = .ok (before ++ [op] ++ after) ↔
        s.grammar.words (op ++ " " ++ second) = .ok (op :: after) := by
    have happ := Grammar.words_append_of_words hspace hfirst (op ++ " " ++ second)
    rw [show first ++ " " ++ op ++ " " ++ second = first ++ ' '.toString ++ (op ++ " " ++ second) by
      simp [String.append_assoc, Char.toString], happ]
    cases s.grammar.words (op ++ " " ++ second) with
    | error e => simp [Except.map, Except.mapError]
    | ok words => simp [Except.map, Except.mapError]
  rw [hline]
  refine ⟨hs.plain_of_words hu hsecond, fun hplain => ?_⟩
  have happ :=
    Grammar.words_append_of_words hspace (hs.words_plain hu hplain.1 hplain.2) second
  rw [hsecond] at happ
  exact happ

/-- An operator of two characters between a quoted region and an escaped letter. -/
theorem operator_is_word_iff_arrow :
    let s : Settings := { grammar := { pipe := "->", output := "=>" } }
    s.validate = .ok () ∧ "->" ∈ s.grammar.operators ∧
      s.grammar.words "echo \"a b\"" = .ok ["echo", "a b"] ∧
      s.grammar.words "\\t | c" = .ok ["\t", "|", "c"] ∧
      s.grammar.words ("echo \"a b\"" ++ " " ++ "->" ++ " " ++ "\\t | c") =
        .ok ["echo", "a b", "->", "\t", "|", "c"] ∧ s.grammar.Divides "->" := by
  intro s
  have h : s.validate = .ok () := by decide
  have ho : "->" ∈ s.grammar.operators := by decide
  have hfirst : s.grammar.words "echo \"a b\"" = .ok ["echo", "a b"] := by decide
  have hsecond : s.grammar.words "\\t | c" = .ok ["\t", "|", "c"] := by decide
  obtain ⟨hword, hdivides⟩ := operator_is_word_iff h ho
  have hline := (hword _ _ _ _ hfirst hsecond).mpr ⟨by decide, by decide⟩
  exact ⟨h, ho, hfirst, hsecond, hline, hdivides⟩

/-- The escape character and the quote can be set in an operator. Typed as a word of its own the one
operator is another word, which is none, and the other leaves a quote open. -/
theorem operator_not_word_special :
    let s : Settings := { grammar := { pipe := "\\|" } }
    let s' : Settings := { grammar := { output := "\"" } }
    (s.validate = .ok () ∧ "\\|" ∈ s.grammar.operators ∧ s.grammar.words "a" = .ok ["a"] ∧
      s.grammar.words "b" = .ok ["b"] ∧
      s.grammar.words ("a" ++ " " ++ "\\|" ++ " " ++ "b") ≠ .ok (["a"] ++ ["\\|"] ++ ["b"]) ∧
      s.grammar.words ("a" ++ " " ++ "\\|" ++ " " ++ "b") = .ok ["a", "|", "b"] ∧
      s.grammar.isOperator "|" = false) ∧
    s'.validate = .ok () ∧ "\"" ∈ s'.grammar.operators ∧
      s'.grammar.words ("a" ++ " " ++ "\"" ++ " " ++ "b") =
        .error (.malformed 2 .unterminatedQuote) := by
  decide

end TerminalShell.Command
