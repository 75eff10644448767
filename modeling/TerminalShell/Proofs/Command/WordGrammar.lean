import TerminalShell.Proofs.Command.LexemeScan

/-!
A scan that goes on has read some lexemes and the beginning of another one. Main statement: a
line has words exactly when lexemes spell it.
-/
namespace TerminalShell.Command

variable {g : Grammar}

namespace Scan

variable {s t : Scan} {c : Char}

/-- What one more character does to a scan that goes on. -/
inductive Steps (g : Grammar) (s : Scan) (c : Char) : Scan → Prop where
  | escaped (hs : s.escaping = true) : Steps g s c { s with
      word := s.word.push (unescape c), escaping := false, offset := s.offset + c.utf8Size }
  | escape (hs : s.escaping = false) (hc : c = g.escape) : Steps g s c { s with
      escaping := true, region := s.region.next, offset := s.offset + c.utf8Size }
  | opening (hs : s.escaping = false) (hc : c = g.quote) (hr : s.region = .outside) :
      Steps g s c { s with region := .quoted s.offset, offset := s.offset + c.utf8Size }
  | closing (hs : s.escaping = false) (hc : c = g.quote) {start : Nat}
      (hr : s.region = .quoted start) :
      Steps g s c { s with region := .closed, offset := s.offset + c.utf8Size }
  | separator (hs : s.escaping = false) (hc : c ≠ g.escape ∧ c ≠ g.quote)
      (hb : Text.isBlank c = true) (hr : ∀ start, s.region ≠ .quoted start) : Steps g s c { s with
      words := s.allWords, word := "", region := s.region.next, offset := s.offset + c.utf8Size }
  | plain (hs : s.escaping = false) (hc : c ≠ g.escape ∧ c ≠ g.quote)
      (hb : Text.isBlank c = true → ∃ start, s.region = .quoted start) : Steps g s c { s with
      word := s.word.push c, region := s.region.next, offset := s.offset + c.utf8Size }

theorem steps_of_step (h : s.step g c = .ok t) : s.Steps g c t := by
  unfold step at h
  by_cases hs : s.escaping = true
  · rw [if_pos hs, Except.ok.injEq] at h
    exact h ▸ .escaped hs
  rw [if_neg hs] at h
  rw [Bool.not_eq_true] at hs
  by_cases he : c = g.escape
  · rw [if_pos he, Except.ok.injEq] at h
    exact h ▸ .escape hs he
  rw [if_neg he] at h
  by_cases hq : c = g.quote
  · rw [if_pos hq] at h
    cases hr : s.region with
    | outside =>
      simp only [hr, Except.ok.injEq] at h
      exact h ▸ .opening hs hq hr
    | closed => simp [hr] at h
    | quoted start =>
      simp only [hr, Except.ok.injEq] at h
      exact h ▸ .closing hs hq hr
  rw [if_neg hq] at h
  cases hr : s.region with
  | quoted start =>
    have hplain : s.Steps g c _ := .plain hs ⟨he, hq⟩ fun _ => ⟨start, hr⟩
    simp only [hr, Except.ok.injEq] at h
    simpa only [← h, hr, Region.next] using hplain
  | outside | closed =>
    simp only [hr] at h
    split at h
    next hb =>
      have hseparator : s.Steps g c _ := .separator hs ⟨he, hq⟩ hb (by simp [hr])
      rw [Except.ok.injEq] at h
      simpa only [← h, hr, Region.next] using hseparator
    next hb =>
      have hplain : s.Steps g c _ := .plain hs ⟨he, hq⟩ fun hb' => absurd hb' hb
      rw [Except.ok.injEq] at h
      simpa only [← h, hr, Region.next] using hplain

/-- How one more character changes where a scan stands. -/
theorem step_cases (h : s.step g c = .ok t) :
    t.offset = s.offset + c.utf8Size ∧
    ((s.escaping = true ∧ t.escaping = false ∧ t.region = s.region) ∨
      (s.escaping = false ∧ c = g.escape ∧ t.escaping = true ∧ t.region = s.region.next) ∨
      (s.escaping = false ∧ c = g.quote ∧ t.escaping = false ∧ s.region = .outside ∧
        t.region = .quoted s.offset) ∨
      (s.escaping = false ∧ c = g.quote ∧ t.escaping = false ∧
        (∃ start, s.region = .quoted start) ∧ t.region = .closed) ∨
      (s.escaping = false ∧ c ≠ g.escape ∧ c ≠ g.quote ∧ t.escaping = false ∧
        t.region = s.region.next)) := by
  cases steps_of_step h with
  | escaped hs => exact ⟨rfl, .inl ⟨hs, rfl, rfl⟩⟩
  | escape hs hc => exact ⟨rfl, .inr (.inl ⟨hs, hc, rfl, rfl⟩)⟩
  | opening hs hc hr => exact ⟨rfl, .inr (.inr (.inl ⟨hs, hc, hs, hr, rfl⟩))⟩
  | closing hs hc hr => exact ⟨rfl, .inr (.inr (.inr (.inl ⟨hs, hc, hs, ⟨_, hr⟩, rfl⟩)))⟩
  | separator hs hc | plain hs hc =>
    exact ⟨rfl, .inr (.inr (.inr (.inr ⟨hs, hc.1, hc.2, hs, rfl⟩)))⟩

end Scan

/-- The last lexeme, if there is one, is no quoted region. -/
def EndsUnquoted (items : List Lexeme) : Prop := ∀ x ∈ items.getLast?, x.isQuoted = false

/-- How a scan stands behind `items` and the beginning of one more lexeme. -/
inductive Open (g : Grammar) (items : List Lexeme) : List Char → Region → Bool → Prop where
  | between (h : EndsUnquoted items) : Open g items [] .outside false
  | behindQuote : Open g items [] .closed false
  | escape : Open g items [g.escape] .outside true
  | region {body : List Letter} (h : EndsUnquoted items) (hb : ∀ l ∈ body, l.IsLegal g) :
      Open g items (g.quote :: body.flatMap (Letter.spelling g))
        (.quoted (byteCount (g.spell items))) false
  | regionEscape {body : List Letter} (h : EndsUnquoted items) (hb : ∀ l ∈ body, l.IsLegal g) :
      Open g items (g.quote :: body.flatMap (Letter.spelling g) ++ [g.escape])
        (.quoted (byteCount (g.spell items))) true

theorem endsUnquoted_append {items : List Lexeme} {x : Lexeme} (h : x.isQuoted = false) :
    EndsUnquoted (items ++ [x]) := by
  intro y hy
  rw [List.getLast?_concat, Option.mem_some] at hy
  rw [← hy, h]

theorem Open.single (items : List Lexeme) {c : Char} (he : c ≠ g.escape) (hq : c ≠ g.quote) :
    ∃ x : Lexeme, x.IsLegal g ∧ x.isQuoted = false ∧ x.spelling g = [c] ∧
      Open g (items ++ [x]) [] .outside false := by
  by_cases hb : Text.isBlank c = true
  · exact ⟨.separator c, ⟨hb, he, hq⟩, rfl, rfl, .between (endsUnquoted_append rfl)⟩
  · exact ⟨.letter (.plain c), ⟨⟨he, hq⟩, hb⟩, rfl, rfl, .between (endsUnquoted_append rfl)⟩

/-- One more character goes on with the lexeme that has begun, or completes it. -/
theorem Open.step {s t : Scan} {c : Char} {items : List Lexeme} {rest : List Char}
    (h : Open g items rest s.region s.escaping)
    (hoff : s.offset = byteCount (g.spell items ++ rest)) (hstep : s.step g c = .ok t) :
    Open g items (rest ++ [c]) t.region t.escaping ∨
      ∃ x : Lexeme, x.IsLegal g ∧ (x.isQuoted = true → EndsUnquoted items) ∧
        x.spelling g = rest ++ [c] ∧ Open g (items ++ [x]) [] t.region t.escaping := by
  obtain ⟨-, hc⟩ := Scan.step_cases hstep
  generalize s.region = region, s.escaping = escaping at h hc
  cases h with
  | between h =>
    rcases hc with ⟨hs, -⟩ | ⟨-, rfl, hes, hreg⟩ | ⟨-, rfl, hes, -, hreg⟩ |
      ⟨-, -, -, ⟨_, hs⟩, -⟩ | ⟨-, he, hq, hes, hreg⟩
    · contradiction
    · rw [hes, hreg]
      exact .inl .escape
    · rw [hes, hreg, hoff, List.append_nil]
      exact .inl (.region h (List.forall_mem_nil _))
    · contradiction
    · rw [hes, hreg]
      obtain ⟨x, hx, hxq, hxs, hxo⟩ := Open.single items he hq
      exact .inr ⟨x, hx, by simp [hxq], hxs, hxo⟩
  | behindQuote =>
    rcases hc with ⟨hs, -⟩ | ⟨-, rfl, hes, hreg⟩ | ⟨-, -, -, hs, -⟩ | ⟨-, -, -, ⟨_, hs⟩, -⟩ |
      ⟨-, he, hq, hes, hreg⟩
    · contradiction
    · rw [hes, hreg]
      exact .inl .escape
    · contradiction
    · contradiction
    · rw [hes, hreg]
      obtain ⟨x, hx, hxq, hxs, hxo⟩ := Open.single items he hq
      exact .inr ⟨x, hx, by simp [hxq], hxs, hxo⟩
  | escape =>
    rcases hc with ⟨-, hes, hreg⟩ | ⟨hs, -⟩ | ⟨hs, -⟩ | ⟨hs, -⟩ | ⟨hs, -⟩
    · rw [hes, hreg]
      exact .inr ⟨.letter (.escaped c), ⟨trivial, id⟩, by simp [Lexeme.isQuoted], rfl,
        .between (endsUnquoted_append rfl)⟩
    all_goals contradiction
  | @region body h hb =>
    rcases hc with ⟨hs, -⟩ | ⟨-, rfl, hes, hreg⟩ | ⟨-, -, -, hs, -⟩ | ⟨-, rfl, hes, -, hreg⟩ |
      ⟨-, he, hq, hes, hreg⟩
    · contradiction
    · rw [hes, hreg]
      exact .inl (.regionEscape h hb)
    · contradiction
    · rw [hes, hreg]
      exact .inr ⟨.quoted body, hb, fun _ => h, rfl, .behindQuote⟩
    · rw [hes, hreg]
      have hbody : ∀ l ∈ body ++ [.plain c], l.IsLegal g :=
        List.forall_mem_append.mpr ⟨hb, List.forall_mem_singleton.mpr ⟨he, hq⟩⟩
      exact .inl (by simpa [Letter.spelling, Region.next] using Open.region h hbody)
  | @regionEscape body h hb =>
    rcases hc with ⟨-, hes, hreg⟩ | ⟨hs, -⟩ | ⟨hs, -⟩ | ⟨hs, -⟩ | ⟨hs, -⟩
    · rw [hes, hreg]
      have hbody : ∀ l ∈ body ++ [.escaped c], l.IsLegal g :=
        List.forall_mem_append.mpr ⟨hb, List.forall_mem_singleton.mpr trivial⟩
      exact .inl (by simpa [Letter.spelling] using Open.region h hbody)
    all_goals contradiction

/-- The lexemes that a scan has gone through, with the beginning of the next one. -/
structure Scan.Reads (g : Grammar) (text : List Char) (s : Scan) (items : List Lexeme)
    (rest : List Char) : Prop where
  spells : g.Spells items (g.spell items)
  text_eq : text = g.spell items ++ rest
  stands : Open g items rest s.region s.escaping
  offset_eq : s.offset = byteCount text

theorem Grammar.Spells.push {items : List Lexeme} {x : Lexeme}
    (h : g.Spells items (g.spell items)) (hx : x.IsLegal g)
    (ha : x.isQuoted = true → EndsUnquoted items) :
    g.Spells (items ++ [x]) (g.spell (items ++ [x])) where
  legal := List.forall_mem_append.mpr ⟨h.legal, List.forall_mem_singleton.mpr hx⟩
  apart := by
    refine List.isChain_append.mpr ⟨h.apart, List.isChain_singleton x, ?_⟩
    intro y hy z hz hq
    rw [List.head?_cons, Option.mem_some] at hz
    subst hz
    simp [ha hq.2 y hy] at hq
  spell_eq := rfl

theorem Scan.Reads.step {text : List Char} {s t : Scan} {c : Char} {items : List Lexeme}
    {rest : List Char} (hr : s.Reads g text items rest) (h : s.step g c = .ok t) :
    ∃ items rest, t.Reads g (text ++ [c]) items rest := by
  obtain ⟨hs, rfl, hst, hoff⟩ := hr
  have hoff' : t.offset = byteCount (g.spell items ++ rest ++ [c]) := by
    rw [(step_cases h).1, hoff, byteCount_append _ [c], byteCount_cons, byteCount_nil,
      Nat.add_zero]
  rcases hst.step hoff h with hopen | ⟨x, hx, hxq, hspell, hopen⟩
  · exact ⟨items, rest ++ [c], hs, List.append_assoc _ _ _, hopen, hoff'⟩
  · exact ⟨items ++ [x], [], hs.push hx hxq, by simp [Grammar.spell, hspell], hopen, hoff'⟩

/-- However far a scan goes, it has read lexemes and the beginning of one. -/
theorem Grammar.exists_reads_of_scan {text : List Char} {s : Scan} (h : g.scan {} text = .ok s) :
    ∃ items rest, s.Reads g text items rest := by
  refine scan_induction (P := fun text s => ∃ items rest, s.Reads g text items rest) ?_ ?_ h
  · exact ⟨[], [], ⟨by simp, .nil, rfl⟩, rfl, .between (by simp [EndsUnquoted]), rfl⟩
  · rintro text s c t ⟨items, rest, hr⟩ ht
    exact hr.step ht

theorem Grammar.offset_of_scan {text : List Char} {s : Scan} (h : g.scan {} text = .ok s) :
    s.offset = byteCount text := by
  obtain ⟨items, rest, hr⟩ := exists_reads_of_scan h
  exact hr.offset_eq

theorem Grammar.exists_spells_of_words {line : String} {words : List String}
    (h : g.words line = .ok words) : ∃ items, g.Spells items line.toList := by
  obtain ⟨s, hs, hrest, -⟩ := exists_scan_of_words h
  obtain ⟨items, rest, hr⟩ := exists_reads_of_scan hs
  refine ⟨items, hr.spells.legal, hr.spells.apart, ?_⟩
  have hst := hr.stands
  have hte := hr.text_eq
  rw [hrest.1] at hst
  generalize hregion : s.region = region at hst
  cases hst with
  | between | behindQuote => rw [hte, List.append_nil]
  | region => exact absurd hregion (hrest.2 _)

/-- A line has words exactly when lexemes spell it; they are the only ones that do, and its words
are theirs. -/
theorem words_ok_iff_spells {g : Grammar} (h : g.escape ≠ g.quote) (line : String) :
    ((∃ words, g.words line = .ok words) ↔ ∃ items, g.Spells items line.toList) ∧
    (∀ first second, g.Spells first line.toList → g.Spells second line.toList →
      first = second) ∧
    ∀ items, g.Spells items line.toList → g.words line = .ok (Lexeme.words items) := by
  refine ⟨⟨?_, ?_⟩, fun _ _ hf hs => hf.unique h hs, fun _ hs => Grammar.words_of_spells h hs⟩
  · rintro ⟨words, hw⟩
    exact Grammar.exists_spells_of_words hw
  · rintro ⟨items, hs⟩
    exact ⟨_, Grammar.words_of_spells h hs⟩

/-- A region inside a word, with an escaped quote, and a region that makes no word. -/
theorem words_ok_iff_spells_mixed :
    ({} : Grammar).escape ≠ ({} : Grammar).quote ∧
    ({} : Grammar).words "x\\n\"a \\\"\" \"\"\ty" = .ok ["x\na \"", "y"] := by
  have h : ({} : Grammar).escape ≠ ({} : Grammar).quote := by decide
  refine ⟨h, (words_ok_iff_spells h _).2.2 [.letter (.plain 'x'), .letter (.escaped 'n'),
    .quoted [.plain 'a', .plain ' ', .escaped '"'], .separator ' ', .quoted [], .separator '\t',
    .letter (.plain 'y')] ⟨?_, ?_, ?_⟩⟩
  · simp [Lexeme.IsLegal, Letter.IsLegal, Letter.IsBlank, Text.isBlank]
  · simp [Lexeme.isQuoted]
  · decide

end TerminalShell.Command
