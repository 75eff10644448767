import TerminalShell.Command.Words
import TerminalShell.Proofs.Command.Lexeme

/-! What a scan does lexeme by lexeme. Main statement: the words of a line are those of the
lexemes that spell it. -/
namespace TerminalShell.Command

variable {g : Grammar}

def byteCount : List Char → Nat
  | [] => 0
  | c :: text => c.utf8Size + byteCount text

@[simp] theorem byteCount_nil : byteCount [] = 0 := rfl

@[simp] theorem byteCount_cons (c : Char) (text : List Char) :
    byteCount (c :: text) = c.utf8Size + byteCount text := rfl

@[simp] theorem byteCount_append (a b : List Char) :
    byteCount (a ++ b) = byteCount a + byteCount b := by
  induction a with
  | nil => simp
  | cons c a ih => simp [ih, Nat.add_assoc]

theorem byteCount_toList (text : String) : byteCount text.toList = text.utf8ByteSize := by
  have h (l : List Char) : byteCount l = (String.ofList l).utf8ByteSize := by
    induction l with
    | nil => rfl
    | cons c l ih => simp [String.ofList_cons, ih]
  rw [h, String.ofList_toList]

@[simp] theorem Grammar.scan_nil (s : Scan) : g.scan s [] = .ok s := rfl

@[simp] theorem Grammar.scan_cons (s : Scan) (c : Char) (text : List Char) :
    g.scan s (c :: text) = (s.step g c).bind fun t => g.scan t text := rfl

theorem Grammar.exists_of_scan_append {a b : List Char} {s t : Scan}
    (h : g.scan s (a ++ b) = .ok t) : ∃ u, g.scan s a = .ok u ∧ g.scan u b = .ok t := by
  rw [scan_append] at h
  cases hs : g.scan s a with
  | error e => simp [hs, Except.bind] at h
  | ok u => exact ⟨u, rfl, by simpa [hs, Except.bind] using h⟩

theorem Grammar.exists_of_scan_cons {c : Char} {text : List Char} {s t : Scan}
    (h : g.scan s (c :: text) = .ok t) : ∃ u, s.step g c = .ok u ∧ g.scan u text = .ok t := by
  rw [scan_cons] at h
  cases hs : s.step g c with
  | error e => simp [hs, Except.bind] at h
  | ok u => exact ⟨u, rfl, by simpa [hs, Except.bind] using h⟩

theorem Grammar.exists_of_scan_concat {text : List Char} {c : Char} {s t : Scan}
    (h : g.scan s (text ++ [c]) = .ok t) : ∃ u, g.scan s text = .ok u ∧ u.step g c = .ok t := by
  obtain ⟨u, hs, hlast⟩ := exists_of_scan_append h
  obtain ⟨v, hstep, hv⟩ := exists_of_scan_cons hlast
  exact ⟨u, hs, hstep.trans hv⟩

/-- What holds at the beginning and is kept by every step holds of every scan and of what it has
read. -/
theorem Grammar.scan_induction {P : List Char → Scan → Prop} (h0 : P [] {})
    (hstep : ∀ text s c t, P text s → s.step g c = .ok t → P (text ++ [c]) t)
    {text : List Char} {s : Scan} (h : g.scan {} text = .ok s) : P text s := by
  induction text using List.reverseRecOn generalizing s with
  | nil => exact Except.ok.inj h ▸ h0
  | append_singleton text c ih =>
    obtain ⟨s', hs, ht⟩ := exists_of_scan_concat h
    exact hstep text s' c s (ih hs) ht

theorem Letter.value_escaped (c : Char) : (Letter.escaped c).value = unescape c := by
  by_cases hr : c = 'r'
  · subst c; rfl
  by_cases ht : c = 't'
  · subst c; rfl
  by_cases hn : c = 'n'
  · subst c; rfl
  rw [unescape.eq_4 c hr ht hn]
  simp [Letter.value, hr, ht, hn]

namespace Scan

/-- Between two lexemes: behind no escape character and in no quoted region. -/
def AtRest (s : Scan) : Prop := s.escaping = false ∧ ∀ start, s.region ≠ .quoted start

theorem atRest_empty : AtRest {} := ⟨rfl, fun _ => Region.noConfusion⟩

/-- A letter joins the word; a blank one only does so in a quoted region. -/
theorem scan_letter {s : Scan} {l : Letter} (hs : s.escaping = false) (hl : l.IsLegal g)
    (hb : l.IsBlank → ∃ start, s.region = .quoted start) :
    g.scan s (l.spelling g) = .ok { s with
      word := s.word.push l.value
      region := s.region.next
      offset := s.offset + byteCount (l.spelling g) } := by
  cases l with
  | plain c =>
    have hstep : s.step g c = .ok { s with
        word := s.word.push c
        region := s.region.next
        offset := s.offset + c.utf8Size } := by
      unfold step
      simp only [hs, Bool.false_eq_true, if_false, hl.1, hl.2]
      cases hr : s.region with
      | quoted start => simp only [Region.next]
      | outside | closed =>
        have hc : ¬ Text.isBlank c = true := fun hc => by simpa [hr] using hb hc
        simp only [hc, if_false, Region.next, Bool.false_eq_true]
    simp [Letter.spelling, Letter.value, hstep, Except.bind]
  | escaped c =>
    simp [Letter.spelling, Letter.value_escaped, step, hs, Except.bind, Nat.add_assoc]

theorem scan_quotedBody {s : Scan} {start : Nat} {body : List Letter} (hs : s.escaping = false)
    (hr : s.region = .quoted start) (hb : ∀ l ∈ body, l.IsLegal g) :
    g.scan s (body.flatMap (Letter.spelling g)) = .ok { s with
      word := s.word ++ String.ofList (body.map Letter.value)
      offset := s.offset + byteCount (body.flatMap (Letter.spelling g)) } := by
  induction body generalizing s with
  | nil => simp
  | cons l body ih =>
    obtain ⟨hl, hbody⟩ := List.forall_mem_cons.mp hb
    have hfirst := scan_letter hs hl fun _ => ⟨start, hr⟩
    rw [hr, Region.next] at hfirst
    have hrest := ih (s := { s with
      word := s.word.push l.value, region := .quoted start
      offset := s.offset + byteCount (l.spelling g) }) hs rfl hbody
    rw [List.flatMap_cons, Grammar.scan_append, hfirst, Except.bind, hrest]
    simp [hr, Nat.add_assoc, String.ext_iff]

/-- What one lexeme does to a scan at rest. -/
def take (g : Grammar) (s : Scan) (x : Lexeme) : Scan :=
  match x with
  | .separator _ => { s with
      words := s.allWords, word := "", region := .outside
      offset := s.offset + byteCount (x.spelling g) }
  | .letter l => { s with
      word := s.word.push l.value, region := .outside
      offset := s.offset + byteCount (x.spelling g) }
  | .quoted body => { s with
      word := s.word ++ String.ofList (body.map Letter.value), region := .closed
      offset := s.offset + byteCount (x.spelling g) }

theorem atRest_take {s : Scan} (hs : s.AtRest) (x : Lexeme) : (s.take g x).AtRest := by
  cases x <;> exact ⟨hs.1, fun _ => Region.noConfusion⟩

theorem atRest_foldl_take {s : Scan} (hs : s.AtRest) (items : List Lexeme) :
    (items.foldl (take g) s).AtRest := by
  induction items generalizing s with
  | nil => exact hs
  | cons x items ih => exact ih (atRest_take hs x)

theorem next_of_atRest {s : Scan} (hs : s.AtRest) : s.region.next = .outside := by
  cases hr : s.region with
  | quoted start => exact absurd hr (hs.2 start)
  | outside | closed => rfl

theorem step_separator {s : Scan} {c : Char} (hs : s.AtRest)
    (hc : (Lexeme.separator c).IsLegal g) : s.step g c = .ok (s.take g (.separator c)) := by
  unfold step
  simp only [hs.1, Bool.false_eq_true, if_false, hc.2.1, hc.2.2]
  cases hr : s.region with
  | quoted start => exact absurd hr (hs.2 start)
  | outside | closed => simp [hc.1, take, Lexeme.spelling, hs.1]

theorem scan_lexeme (h : g.escape ≠ g.quote) {s : Scan} {x : Lexeme} (hs : s.AtRest)
    (hx : x.IsLegal g) (hq : x.isQuoted = true → s.region ≠ .closed) :
    g.scan s (x.spelling g) = .ok (s.take g x) := by
  cases x with
  | separator c => simp [Lexeme.spelling, step_separator hs hx, Except.bind]
  | letter l =>
    rw [Lexeme.spelling, scan_letter hs.1 hx.1 fun hb => absurd hb hx.2, next_of_atRest hs]
    rfl
  | quoted body =>
    have hr : s.region = .outside := by
      cases hr : s.region with
      | outside => rfl
      | closed => exact absurd hr (hq rfl)
      | quoted start => exact absurd hr (hs.2 start)
    have hopen : s.step g g.quote =
        .ok { s with region := .quoted s.offset, offset := s.offset + g.quote.utf8Size } := by
      simp [step, hs.1, hr, h.symm]
    have hbody := scan_quotedBody (s := { s with
      region := .quoted s.offset, offset := s.offset + g.quote.utf8Size }) hs.1 rfl hx
    rw [Lexeme.spelling, List.cons_append, Grammar.scan_cons, hopen, Except.bind,
      Grammar.scan_append, hbody]
    simp [Except.bind, step, hs.1, h.symm, take, Lexeme.spelling, Nat.add_assoc]

theorem scan_spell (h : g.escape ≠ g.quote) {s : Scan} {items : List Lexeme} (hs : s.AtRest)
    (hl : ∀ x ∈ items, x.IsLegal g)
    (ha : items.IsChain fun x y => ¬ (x.isQuoted = true ∧ y.isQuoted = true))
    (hh : ∀ x ∈ items.head?, x.isQuoted = true → s.region ≠ .closed) :
    g.scan s (g.spell items) = .ok (items.foldl (take g) s) := by
  induction items generalizing s with
  | nil => rfl
  | cons x items ih =>
    obtain ⟨hx, hrest⟩ := List.forall_mem_cons.mp hl
    rw [List.isChain_cons] at ha
    have hhead : ∀ y ∈ items.head?, y.isQuoted = true → (s.take g x).region ≠ .closed := by
      intro y hy hq hr
      have hxq : x.isQuoted = true := by
        cases x with
        | quoted body => rfl
        | separator | letter => simp [take] at hr
      exact ha.1 y hy ⟨hxq, hq⟩
    have hfirst := scan_lexeme h hs hx (hh x rfl)
    have hsecond := ih (atRest_take hs x) hrest ha.2 hhead
    rw [Grammar.spell_cons, Grammar.scan_append, hfirst, Except.bind, hsecond]
    rfl

theorem finish_of_atRest {s : Scan} (hs : s.AtRest) : s.finish = .ok s.allWords.toList := by
  unfold finish
  rw [if_neg (by simp [hs.1])]
  cases hr : s.region with
  | quoted start => exact absurd hr (hs.2 start)
  | outside | closed => rfl

theorem atRest_of_finish {s : Scan} {words : List String} (h : s.finish = .ok words) :
    s.AtRest := by
  unfold finish at h
  split at h
  · contradiction
  next he =>
    refine ⟨by simpa using he, fun start hr => ?_⟩
    simp [hr] at h

theorem allWords_toList (s : Scan) :
    s.allWords.toList = s.words.toList ++ [s.word].filter fun word => !word.isEmpty := by
  unfold allWords
  split <;> simp_all

end Scan

namespace Lexeme

@[simp] theorem runs_nil : runs [] = [""] := rfl

@[simp] theorem runs_separator (c : Char) (items : List Lexeme) :
    runs (separator c :: items) = "" :: runs items := rfl

theorem runs_cons {x : Lexeme} (hx : x.isSeparator = false) (items : List Lexeme) :
    runs (x :: items) = (runs items).modifyHead (String.ofList x.value ++ ·) := by
  unfold runs
  rw [List.splitOnP_cons_eq_if_modifyHead, if_neg (by simp [hx])]
  cases items.splitOnP isSeparator with
  | nil => rfl
  | cons run rest => simp [String.ofList_append]

/-- A lexeme of a word joins what comes before the first run. -/
theorem modifyHead_runs_cons {x : Lexeme} (hx : x.isSeparator = false) (items : List Lexeme)
    (word : String) :
    (runs (x :: items)).modifyHead (word ++ ·) =
      (runs items).modifyHead (word ++ String.ofList x.value ++ ·) := by
  rw [runs_cons hx]
  cases runs items with
  | nil => rfl
  | cons run rest => simp [String.append_assoc]

theorem runs_ne_nil (items : List Lexeme) : runs items ≠ [] := by
  simp [runs]

end Lexeme

/-- The words of a scan behind some lexemes: its word goes on with the first run. -/
theorem Scan.allWords_foldl_take (items : List Lexeme) (s : Scan) :
    (items.foldl (take g) s).allWords.toList = s.words.toList ++
      ((Lexeme.runs items).modifyHead (s.word ++ ·)).filter fun word => !word.isEmpty := by
  induction items generalizing s with
  | nil =>
    rw [List.foldl_nil, allWords_toList]
    simp
  | cons x items ih =>
    rw [List.foldl_cons, ih]
    cases x with
    | separator c =>
      rw [Lexeme.runs_separator, List.modifyHead_cons, List.filter_cons]
      simp only [take, allWords_toList, List.append_assoc]
      congr 1
      cases hr : Lexeme.runs items with
      | nil => exact absurd hr (Lexeme.runs_ne_nil items)
      | cons run rest =>
        simp only [List.modifyHead_cons, String.empty_append, String.append_empty]
        by_cases hw : s.word = "" <;> simp [hw]
    | letter l =>
      have hw : s.word.push l.value = s.word ++ String.ofList [l.value] := by simp
      rw [Lexeme.modifyHead_runs_cons rfl, Lexeme.value, ← hw]
      rfl
    | quoted body =>
      rw [Lexeme.modifyHead_runs_cons rfl]
      rfl

theorem Grammar.Spells.scan_eq (h : g.escape ≠ g.quote) {items : List Lexeme} {text : List Char}
    (hs : g.Spells items text) : g.scan {} text = .ok (items.foldl (Scan.take g) {}) := by
  rw [← hs.spell_eq]
  exact Scan.scan_spell h Scan.atRest_empty hs.legal hs.apart fun _ _ _ => Region.noConfusion

/-- Where a line has words, its scan comes to an end at rest. -/
theorem Grammar.exists_scan_of_words {line : String} {words : List String}
    (h : g.words line = .ok words) :
    ∃ s, g.scan {} line.toList = .ok s ∧ s.AtRest ∧ s.allWords.toList = words := by
  unfold Grammar.words at h
  cases hs : g.scan {} line.toList with
  | error e => simp [hs, Except.bind] at h
  | ok s =>
    have hfinish : s.finish = .ok words := by simpa [hs, Except.bind] using h
    have hrest : s.AtRest := Scan.atRest_of_finish hfinish
    exact ⟨s, rfl, hrest, Except.ok.inj ((Scan.finish_of_atRest hrest).symm.trans hfinish)⟩

theorem Grammar.words_of_spells (h : g.escape ≠ g.quote) {items : List Lexeme} {line : String}
    (hs : g.Spells items line.toList) : g.words line = .ok (Lexeme.words items) := by
  have hrest : (items.foldl (Scan.take g) {}).AtRest := Scan.atRest_foldl_take Scan.atRest_empty _
  rw [words, hs.scan_eq h, Except.bind, Scan.finish_of_atRest hrest, Scan.allWords_foldl_take]
  cases hr : Lexeme.runs items with
  | nil => exact absurd hr (Lexeme.runs_ne_nil items)
  | cons run rest => simp [Lexeme.words, hr]

end TerminalShell.Command
