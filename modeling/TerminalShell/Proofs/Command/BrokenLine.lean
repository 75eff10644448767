import TerminalShell.Proofs.Command.WordGrammar

/-!
Lines that have no words. A line breaks down at a quote directly behind a quoted region, or it
breaks off: behind an escape character or in a quoted region. Main statements: these are all the
faults of a line, and only a line that breaks down cannot be mended by typing on.
-/
namespace TerminalShell.Command

variable {g : Grammar}

theorem Region.next_ne_closed (r : Region) : r.next ≠ .closed := by
  cases r <;> exact Region.noConfusion

/-- The only character that a scan refuses is a quote behind a closing quote. -/
theorem Scan.step_error {s : Scan} {c : Char} {e : LineError} (h : s.step g c = .error e) :
    c = g.quote ∧ s.region = .closed ∧ e = .malformed s.offset .adjacentQuote := by
  unfold step at h
  split at h
  · contradiction
  split at h
  · contradiction
  split at h
  next hq =>
    cases hr : s.region with
    | closed =>
      simp only [hr, Except.error.injEq] at h
      exact ⟨hq, rfl, h.symm⟩
    | outside | quoted => simp [hr] at h
  · split at h
    · contradiction
    · split at h <;> contradiction

/-- A scan that fails has gone as far as the character that it refuses. -/
theorem Grammar.exists_of_scan_error {text : List Char} {s : Scan} {e : LineError}
    (h : g.scan s text = .error e) :
    ∃ before rest t, text = before ++ g.quote :: rest ∧ g.scan s before = .ok t ∧
      t.region = .closed ∧ e = .malformed t.offset .adjacentQuote := by
  induction text generalizing s with
  | nil => contradiction
  | cons c text ih =>
    rw [scan_cons] at h
    cases hc : s.step g c with
    | error e' =>
      obtain ⟨rfl, hr, he⟩ := Scan.step_error hc
      obtain rfl : e' = e := by simpa [hc, Except.bind] using h
      exact ⟨[], text, s, rfl, rfl, hr, he⟩
    | ok s' =>
      obtain ⟨before, rest, t, rfl, hs, hr, he⟩ := ih (by simpa [hc, Except.bind] using h)
      exact ⟨c :: before, rest, t, rfl, by simpa [hc, Except.bind] using hs, hr, he⟩

theorem Grammar.Spells.concat {items : List Lexeme} {text : List Char} {x : Lexeme}
    (h : g.Spells items text) (hx : x.IsLegal g) (ha : x.isQuoted = true → EndsUnquoted items) :
    g.Spells (items ++ [x]) (text ++ x.spelling g) := by
  obtain rfl := h.spell_eq
  simpa [Grammar.spell] using h.push hx ha

/-- Behind a closing quote, a scan has read a quoted region last. -/
theorem Grammar.exists_spells_of_closed {text : List Char} {s : Scan} (h : g.scan {} text = .ok s)
    (hr : s.region = .closed) : ∃ items body, g.Spells (items ++ [.quoted body]) text := by
  rcases List.eq_nil_or_concat text with rfl | ⟨front, c, rfl⟩
  · obtain rfl := Except.ok.inj h
    contradiction
  rw [List.concat_eq_append] at h ⊢
  obtain ⟨t, hs, hstep⟩ := exists_of_scan_concat h
  obtain ⟨items, rest, hreads⟩ := exists_reads_of_scan hs
  have hst := hreads.stands
  rcases (Scan.step_cases hstep).2 with ⟨he, -, hreg⟩ | ⟨-, -, -, hreg⟩ | ⟨-, -, -, -, hreg⟩ |
    ⟨he, rfl, -, ⟨start, hopen⟩, -⟩ | ⟨-, -, -, -, hreg⟩
  · rw [he, ← hreg, hr] at hst
    contradiction
  · exact absurd (hreg.symm.trans hr) (Region.next_ne_closed _)
  · exact Region.noConfusion (hreg.symm.trans hr)
  · rw [he, hopen] at hst
    have ht := hreads.text_eq
    cases hst with
    | @region body hu hb =>
      refine ⟨items, body, ?_⟩
      rw [ht, List.append_assoc]
      exact hreads.spells.concat (x := .quoted body) hb fun _ => hu
  · exact absurd (hreg.symm.trans hr) (Region.next_ne_closed _)

/-- The faults of a line. -/
inductive Grammar.Breaks (g : Grammar) (text : List Char) : LineError → Prop where
  /-- A quote directly follows a quoted region. -/
  | adjacent {items : List Lexeme} {body : List Letter} {before rest : List Char}
      (h : g.Spells (items ++ [.quoted body]) before) (ht : text = before ++ g.quote :: rest) :
      Breaks g text (.malformed (byteCount before) .adjacentQuote)
  /-- The line ends with an escape character between its lexemes. -/
  | escape {items : List Lexeme} {before : List Char} (h : g.Spells items before)
      (ht : text = before ++ [g.escape]) :
      Breaks g text (.malformed (byteCount text) .danglingEscape)
  /-- The line ends in a quoted region. -/
  | region {items : List Lexeme} {body : List Letter} {before : List Char}
      (h : g.Spells items before) (hu : EndsUnquoted items) (hb : ∀ l ∈ body, l.IsLegal g)
      (ht : text = before ++ g.quote :: body.flatMap (Letter.spelling g)) :
      Breaks g text (.malformed (byteCount before) .unterminatedQuote)
  /-- The line ends with an escape character in a quoted region. -/
  | regionEscape {items : List Lexeme} {body : List Letter} {before : List Char}
      (h : g.Spells items before) (hu : EndsUnquoted items) (hb : ∀ l ∈ body, l.IsLegal g)
      (ht : text = before ++ g.quote :: body.flatMap (Letter.spelling g) ++ [g.escape]) :
      Breaks g text (.malformed (byteCount text) .danglingEscape)

theorem Grammar.breaks_of_words {line : String} {e : LineError} (h : g.words line = .error e) :
    g.Breaks line.toList e := by
  unfold Grammar.words at h
  cases hs : g.scan {} line.toList with
  | error e' =>
    obtain rfl : e' = e := by simpa [hs, Except.bind] using h
    obtain ⟨before, rest, t, ht, hscan, hr, rfl⟩ := exists_of_scan_error hs
    obtain ⟨items, body, hspells⟩ := exists_spells_of_closed hscan hr
    rw [offset_of_scan hscan]
    exact .adjacent hspells ht
  | ok s =>
    simp only [hs, Except.bind, Scan.finish, offset_of_scan hs] at h
    obtain ⟨items, rest, hreads⟩ := exists_reads_of_scan hs
    have hst := hreads.stands
    have ht := hreads.text_eq
    generalize s.region = region, s.escaping = escaping at h hst
    cases hst with
    | between | behindQuote => simp at h
    | escape =>
      obtain rfl : _ = e := by simpa using h
      exact .escape hreads.spells ht
    | region hu hb =>
      obtain rfl : _ = e := by simpa using h
      exact .region hreads.spells hu hb ht
    | regionEscape hu hb =>
      obtain rfl : _ = e := by simpa using h
      exact .regionEscape hreads.spells hu hb (by rw [ht, List.append_assoc])

theorem Scan.region_foldl_take {items : List Lexeme} (h : EndsUnquoted items) :
    (items.foldl (take g) {}).region = .outside := by
  rcases List.eq_nil_or_concat items with rfl | ⟨front, x, rfl⟩
  · rfl
  · rw [List.concat_eq_append] at h ⊢
    rw [List.foldl_append]
    have hx : x.isQuoted = false := h x (by simp)
    cases x with
    | quoted body => contradiction
    | separator | letter => rfl

/-- A line that ends with a quote and what a region may hold leaves the region open. -/
theorem Grammar.Spells.exists_scan_opened (h : g.escape ≠ g.quote) {items : List Lexeme}
    {body : List Letter} {before : List Char} (hs : g.Spells items before) (hu : EndsUnquoted items)
    (hb : ∀ l ∈ body, l.IsLegal g) :
    ∃ s, g.scan {} (before ++ g.quote :: body.flatMap (Letter.spelling g)) = .ok s ∧
      s.escaping = false ∧ s.region = .quoted (byteCount before) := by
  have hscan := hs.scan_eq h
  have hoff := Grammar.offset_of_scan hscan
  have hrest : (items.foldl (Scan.take g) {}).AtRest := Scan.atRest_foldl_take Scan.atRest_empty _
  have hreg : (items.foldl (Scan.take g) {}).region = .outside := Scan.region_foldl_take hu
  generalize items.foldl (Scan.take g) {} = s at hscan hoff hrest hreg
  let opened : Scan := { s with
    region := .quoted s.offset, offset := s.offset + g.quote.utf8Size }
  have hopen : s.step g g.quote = .ok opened := by simp [Scan.step, hrest.1, hreg, h.symm, opened]
  have hbody := Scan.scan_quotedBody (s := opened) hrest.1 rfl hb
  have hall : g.scan {} (before ++ g.quote :: body.flatMap (Letter.spelling g)) =
      g.scan opened (body.flatMap (Letter.spelling g)) := by
    rw [scan_append, hscan, Except.bind, scan_cons, hopen, Except.bind]
  exact ⟨_, hall.trans hbody, hrest.1, congrArg Region.quoted hoff⟩

theorem Grammar.words_of_scan_escape {line : String} {text : List Char} {s : Scan}
    (ht : line.toList = text ++ [g.escape]) (hs : g.scan {} text = .ok s)
    (he : s.escaping = false) :
    g.words line = .error (.malformed (byteCount line.toList) .danglingEscape) := by
  simp [words, ht, scan_append, hs, Except.bind, Scan.step, he, Scan.finish, offset_of_scan hs]

/-- Each of the faults keeps a line from having words. -/
theorem Grammar.Breaks.words_eq (h : g.escape ≠ g.quote) {line : String} {e : LineError}
    (hb : g.Breaks line.toList e) : g.words line = .error e := by
  cases hb with
  | @adjacent items body before rest hs ht =>
    have hscan := hs.scan_eq h
    have hoff := offset_of_scan hscan
    rw [List.foldl_append] at hscan hoff
    have hrest : (items.foldl (Scan.take g) {}).AtRest := Scan.atRest_foldl_take Scan.atRest_empty _
    rw [words, ht, scan_append, hscan, ← hoff]
    simp [Except.bind, Scan.step, Scan.take, hrest.1, h.symm]
  | escape hs ht =>
    exact words_of_scan_escape ht (hs.scan_eq h) (Scan.atRest_foldl_take Scan.atRest_empty _).1
  | region hs hu hl ht =>
    obtain ⟨s, hscan, he, hr⟩ := hs.exists_scan_opened h hu hl
    simp [words, ht, hscan, Except.bind, Scan.finish, he, hr]
  | regionEscape hs hu hl ht =>
    obtain ⟨s, hscan, he, -⟩ := hs.exists_scan_opened h hu hl
    exact words_of_scan_escape ht hscan he

/-- The faults are all that keeps a line from having words. -/
theorem Grammar.words_eq_error_iff (h : g.escape ≠ g.quote) {line : String} {e : LineError} :
    g.words line = .error e ↔ g.Breaks line.toList e :=
  ⟨breaks_of_words, Breaks.words_eq h⟩

/-- A line that breaks off can be typed to its end. -/
theorem Grammar.Breaks.exists_spells_append {text : List Char} {offset : Nat}
    {reason : Malformation} (hb : g.Breaks text (.malformed offset reason))
    (hr : reason ≠ .adjacentQuote) : ∃ more items, g.Spells items (text ++ more) := by
  cases hb with
  | adjacent => contradiction
  | @escape items before hs ht =>
    refine ⟨['a'], items ++ [.letter (.escaped 'a')], ?_⟩
    rw [ht, List.append_assoc]
    exact hs.concat ⟨trivial, id⟩ (by simp [Lexeme.isQuoted])
  | @region items body before hs hu hl ht =>
    refine ⟨[g.quote], items ++ [.quoted body], ?_⟩
    rw [ht, List.append_assoc]
    exact hs.concat hl fun _ => hu
  | @regionEscape items body before hs hu hl ht =>
    have hbody : ∀ l ∈ body ++ [Letter.escaped 'a'], l.IsLegal g :=
      List.forall_mem_append.mpr ⟨hl, List.forall_mem_singleton.mpr trivial⟩
    refine ⟨['a', g.quote], items ++ [.quoted (body ++ [.escaped 'a'])], ?_⟩
    simpa [ht, Lexeme.spelling, Letter.spelling] using
      hs.concat (x := .quoted (body ++ [Letter.escaped 'a'])) hbody fun _ => hu

/-- A quote stands at byte `offset` of the line, and `before` is the line up to there. -/
structure Grammar.QuoteAt (g : Grammar) (line : String) (offset : Nat) (before : String) :
    Prop where
  exists_rest : ∃ rest, line = before.push g.quote ++ rest
  utf8ByteSize_before : before.utf8ByteSize = offset

/-- The fault is a quote behind a closing quote. The line is hopeless: whatever else is typed behind
that quote, the fault is the same and at the same place. -/
structure Grammar.BreaksDown (g : Grammar) (line : String) (offset : Nat) (reason : Malformation) :
    Prop where
  reason_eq : reason = .adjacentQuote
  exists_before : ∃ before, g.QuoteAt line offset before ∧ (∃ words, g.words before = .ok words) ∧
    (∃ items body, g.Spells (items ++ [.quoted body]) before.toList) ∧
    ∀ rest, g.words (before.push g.quote ++ rest) = .error (.malformed offset reason)

/-- The fault is at the end of the line, where a character is missing behind an escape character. -/
structure EndsEscaped (line : String) (offset : Nat) (reason : Malformation) : Prop where
  reason_eq : reason = .danglingEscape
  offset_eq : offset = line.utf8ByteSize

/-- The fault is a quote that opens a region and that no other one closes. -/
structure Grammar.EndsQuoted (g : Grammar) (line : String) (offset : Nat) (reason : Malformation) :
    Prop where
  reason_eq : reason = .unterminatedQuote
  exists_before : ∃ before, g.QuoteAt line offset before ∧ ∃ words, g.words before = .ok words

theorem Grammar.quoteAt_of_toList {line : String} {before rest : List Char}
    (h : line.toList = before ++ g.quote :: rest) :
    g.QuoteAt line (byteCount before) (String.ofList before) where
  exists_rest := ⟨String.ofList rest, by simp [String.ext_iff, h]⟩
  utf8ByteSize_before := by rw [← byteCount_toList, String.toList_ofList]

theorem Grammar.QuoteAt.isValid {line before : String} {offset : Nat}
    (h : g.QuoteAt line offset before) : String.Pos.Raw.IsValid line ⟨offset⟩ := by
  obtain ⟨rest, hr⟩ := h.exists_rest
  rw [String.Pos.Raw.isValid_iff_exists_append]
  refine ⟨before, (String.singleton g.quote) ++ rest, ?_, ?_⟩
  · simp [hr, String.ext_iff]
  · rw [← h.utf8ByteSize_before]
    rfl

theorem Grammar.exists_words_of_spells (h : g.escape ≠ g.quote) {items : List Lexeme}
    {text : List Char} (hs : g.Spells items text) :
    ∃ words, g.words (String.ofList text) = .ok words :=
  ⟨_, words_of_spells h (by rwa [String.toList_ofList])⟩

section

variable {line : String} {offset : Nat} {reason : Malformation}

/-- Where each fault of a line is, and what stands before it. -/
theorem Grammar.Breaks.located (h : g.escape ≠ g.quote)
    (hb : g.Breaks line.toList (.malformed offset reason)) :
    String.Pos.Raw.IsValid line ⟨offset⟩ ∧ (g.BreaksDown line offset reason ∨
      EndsEscaped line offset reason ∨ g.EndsQuoted line offset reason) := by
  cases hb with
  | @adjacent items body before rest hs ht =>
    have hat := quoteAt_of_toList ht
    have hspells : g.Spells (items ++ [.quoted body]) (String.ofList before).toList := by
      rwa [String.toList_ofList]
    refine ⟨hat.isValid, .inl ⟨rfl, _, hat, exists_words_of_spells h hs, ?_, ?_⟩⟩
    · exact ⟨items, body, hspells⟩
    intro more
    have htext : ((String.ofList before).push g.quote ++ more).toList =
        before ++ g.quote :: more.toList := by simp
    exact (words_eq_error_iff h).mpr (.adjacent hs htext)
  | escape | regionEscape =>
    rw [byteCount_toList]
    exact ⟨String.Pos.Raw.isValid_rawEndPos, .inr (.inl ⟨rfl, rfl⟩)⟩
  | region hs hu hl ht =>
    have hat := quoteAt_of_toList ht
    exact ⟨hat.isValid, .inr (.inr ⟨rfl, _, hat, exists_words_of_spells h hs⟩)⟩

theorem Grammar.Breaks.exists_words_append (h : g.escape ≠ g.quote)
    (hb : g.Breaks line.toList (.malformed offset reason)) (hr : reason ≠ .adjacentQuote) :
    ∃ more words, g.words (line ++ more) = .ok words := by
  obtain ⟨more, items, hs⟩ := hb.exists_spells_append hr
  obtain ⟨words, hw⟩ := exists_words_of_spells h hs
  refine ⟨String.ofList more, words, ?_⟩
  rwa [String.ofList_append, String.ofList_toList] at hw

end

/-- A line fails at a byte of its own or at its end, never within a character, and either it breaks
down there, or it breaks off: behind an escape character or in a quoted region. A line that breaks
off can be typed to its end. A line that ends with an escape character in a quoted region breaks off
behind the escape character. -/
theorem malformation_located (h : g.escape ≠ g.quote) :
    (∀ line offset reason, g.words line = .error (.malformed offset reason) →
      (offset ≤ line.utf8ByteSize ∧ String.Pos.Raw.IsValid line ⟨offset⟩) ∧
      (g.BreaksDown line offset reason ∨ EndsEscaped line offset reason ∨
        g.EndsQuoted line offset reason) ∧
      ¬ (g.BreaksDown line offset reason ∧ EndsEscaped line offset reason) ∧
      ¬ (g.BreaksDown line offset reason ∧ g.EndsQuoted line offset reason) ∧
      ¬ (EndsEscaped line offset reason ∧ g.EndsQuoted line offset reason) ∧
      (EndsEscaped line offset reason ∨ g.EndsQuoted line offset reason →
        ∃ more words, g.words (line ++ more) = .ok words)) ∧
    ∀ line start, g.words line = .error (.malformed start .unterminatedQuote) →
      g.words (line.push g.escape) =
        .error (.malformed (line.push g.escape).utf8ByteSize .danglingEscape) := by
  refine ⟨fun line offset reason he => ?_, fun line start he => ?_⟩
  · have hb : g.Breaks line.toList (.malformed offset reason) :=
      (Grammar.words_eq_error_iff h).mp he
    obtain ⟨hvalid, hcases⟩ := hb.located h
    refine ⟨⟨hvalid.le_utf8ByteSize, hvalid⟩, hcases, ?_, ?_, ?_, ?_⟩
    · exact fun ⟨hd, hx⟩ => Malformation.noConfusion (hd.reason_eq.symm.trans hx.reason_eq)
    · exact fun ⟨hd, hq⟩ => Malformation.noConfusion (hd.reason_eq.symm.trans hq.reason_eq)
    · exact fun ⟨hx, hq⟩ => Malformation.noConfusion (hx.reason_eq.symm.trans hq.reason_eq)
    · rintro (hx | hq)
      · exact hb.exists_words_append h (by rw [hx.reason_eq]; decide)
      · exact hb.exists_words_append h (by rw [hq.reason_eq]; decide)
  · cases (Grammar.words_eq_error_iff h).mp he with
    | region hs hu hl ht =>
      rw [← byteCount_toList, Grammar.words_eq_error_iff h]
      exact .regionEscape hs hu hl (by simp [ht])

/-- A quote that no continuation mends, a region that is open behind a character of two bytes, and
the same region with an escape character at its end. -/
theorem malformation_located_caret :
    let g : Grammar := { escape := '^', quote := '\'' }
    g.escape ≠ g.quote ∧
      g.words "é'a''b" = .error (.malformed 5 .adjacentQuote) ∧
      g.BreaksDown "é'a''b" 5 .adjacentQuote ∧
      g.words "é 'x" = .error (.malformed 3 .unterminatedQuote) ∧
      (∃ more words, g.words ("é 'x" ++ more) = .ok words) ∧
      g.words "é 'x^" = .error (.malformed 6 .danglingEscape) := by
  intro g
  have h : g.escape ≠ g.quote := by decide
  have hdown : g.words "é'a''b" = .error (.malformed 5 .adjacentQuote) := by decide
  have hopen : g.words "é 'x" = .error (.malformed 3 .unterminatedQuote) := by decide
  have hbreaks : g.BreaksDown "é'a''b" 5 .adjacentQuote := by
    rcases ((malformation_located h).1 _ _ _ hdown).2.1 with hd | hx | hq
    · exact hd
    · exact Malformation.noConfusion hx.reason_eq
    · exact Malformation.noConfusion hq.reason_eq
  have hmore : ∃ more words, g.words ("é 'x" ++ more) = .ok words := by
    have hall := (malformation_located h).1 _ _ _ hopen
    apply hall.2.2.2.2.2
    rcases hall.2.1 with hd | hx | hq
    · exact Malformation.noConfusion hd.reason_eq
    · exact .inl hx
    · exact .inr hq
  exact ⟨h, hdown, hbreaks, hopen, hmore, (malformation_located h).2 "é 'x" 3 hopen⟩

end TerminalShell.Command
