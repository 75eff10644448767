import TerminalShell.Proofs.Command.TypedSubmission
import TerminalShell.Proofs.Command.TypedWords

/-!
The grammar of a line in words: commands with a pipe operator between any two of them, and at most
one redirection clause behind the last. Main statement: the lines of this form are the ones that can
be submitted, and the form decides what their stages and their redirection are.
-/
namespace TerminalShell.Command

variable {g : Grammar}

/-- Words without an operator among them, and at least one. -/
structure Grammar.IsPhrase (g : Grammar) (words : List String) : Prop where
  ne_nil : words ≠ []
  notMem_operators : ∀ word ∈ words, word ∉ g.operators

/-- A redirection as it is written: by which operator, and towards which words. -/
structure Clause where
  mode : Redirection.Mode
  target : List String
  deriving DecidableEq, Repr

namespace Clause

def words (g : Grammar) (c : Clause) : List String := g.redirectionOperator c.mode :: c.target

def redirection (c : Clause) : Redirection := ⟨c.mode, " ".intercalate c.target⟩

end Clause

structure Layout where
  commands : List (List String)
  clause : Option Clause
  deriving DecidableEq, Repr

namespace Layout

def clauseWords (g : Grammar) (l : Layout) : List String := l.clause.elim [] (Clause.words g)

/-- The words of a line that is laid out so. -/
def words (g : Grammar) (l : Layout) : List String :=
  [g.pipe].intercalate l.commands ++ l.clauseWords g

def redirection (l : Layout) : Option Redirection := l.clause.map Clause.redirection

structure IsLegal (g : Grammar) (l : Layout) : Prop where
  commands_ne_nil : l.commands ≠ []
  commands_phrase : ∀ command ∈ l.commands, g.IsPhrase command
  clause_phrase : ∀ c ∈ l.clause, g.IsPhrase c.target

end Layout

/-! The clause that ends a line. -/

theorem Grammar.mode?_eq_none_iff {word : String} :
    g.mode? word = none ↔ word ∉ [g.input, g.output, g.append] := by
  refine ⟨fun h hm => ?_, mode?_eq_none⟩
  simp only [List.mem_cons, List.not_mem_nil, or_false] at hm
  unfold mode? at h
  split_ifs at h with hi ho ha
  simp [hi, ho, ha] at hm

theorem Grammar.eq_redirectionOperator {word : String} {mode : Redirection.Mode}
    (h : g.mode? word = some mode) : word = g.redirectionOperator mode := by
  unfold mode? at h
  split_ifs at h with hi ho ha
  · rw [hi, ← Option.some.inj h]
    rfl
  · rw [ho, ← Option.some.inj h]
    rfl
  · rw [ha, ← Option.some.inj h]
    rfl

theorem Grammar.target_eq_ok_iff {operator target : String} {words : List String} :
    g.target operator words = .ok target ↔ g.IsPhrase words ∧ target = " ".intercalate words := by
  have hphrase : g.IsPhrase words ↔ words ≠ [] ∧ words.find? g.isOperator = none := by
    simp only [List.find?_eq_none, isOperator_iff]
    exact ⟨fun h => ⟨h.1, h.2⟩, fun h => ⟨h.1, h.2⟩⟩
  rw [hphrase, Grammar.target]
  by_cases hw : words = []
  · simp [hw]
  · rw [if_neg (by simpa using hw)]
    cases words.find? g.isOperator with
    | none => simp [hw, eq_comm]
    | some extra => simp

/-- The clause is what stands behind the first redirection operator. -/
theorem Grammar.IsSound.extractRedirection_eq_ok_iff (h : g.IsSound) {words front : List String}
    {redirection : Option Redirection} :
    g.extractRedirection words = .ok (front, redirection) ↔
      (∀ word ∈ front, g.mode? word = none) ∧
      ∃ clause : Option Clause, (∀ c ∈ clause, g.IsPhrase c.target) ∧
        words = front ++ clause.elim [] (Clause.words g) ∧
        redirection = clause.map Clause.redirection := by
  constructor
  · intro hx
    induction words generalizing front with
    | nil =>
      obtain ⟨rfl, rfl⟩ : [] = front ∧ none = redirection := by simpa [extractRedirection] using hx
      exact ⟨by simp, none, by simp, rfl, rfl⟩
    | cons word rest ih =>
      cases hm : g.mode? word with
      | none =>
        rw [extractRedirection_cons_of_mode?_eq_none hm] at hx
        cases hr : g.extractRedirection rest with
        | error e => simp [hr, Except.map] at hx
        | ok found =>
          obtain ⟨rfl, rfl⟩ : word :: found.1 = front ∧ found.2 = redirection := by
            simpa [hr, Except.map] using hx
          obtain ⟨hfront, clause, hc, rfl, hredirection⟩ := ih hr
          exact ⟨List.forall_mem_cons.mpr ⟨hm, hfront⟩, clause, hc, rfl, hredirection⟩
      | some mode =>
        rw [extractRedirection_cons_of_mode?_eq_some hm] at hx
        cases ht : g.target word rest with
        | error e => simp [ht, Except.map] at hx
        | ok target =>
          obtain ⟨rfl, rfl⟩ : [] = front ∧ some ⟨mode, target⟩ = redirection := by
            simpa [ht, Except.map] using hx
          obtain ⟨hphrase, rfl⟩ := target_eq_ok_iff.mp ht
          obtain rfl := eq_redirectionOperator hm
          exact ⟨by simp, some ⟨mode, rest⟩, by simpa using hphrase, rfl, rfl⟩
  · rintro ⟨hfront, clause, hc, rfl, rfl⟩
    rw [extractRedirection_append hfront]
    cases clause with
    | none => simp [extractRedirection, Except.map]
    | some c =>
      rw [Option.elim_some, Clause.words,
        extractRedirection_cons_of_mode?_eq_some (h.mode?_redirectionOperator c.mode),
        target_eq_ok_iff.mpr ⟨hc c rfl, rfl⟩]
      simp [Except.map, Clause.redirection]

/-! The commands between the pipe operators. -/

theorem Grammar.notMem_operators_iff {word : String} :
    word ∉ g.operators ↔ word ≠ g.pipe ∧ g.mode? word = none := by
  rw [mode?_eq_none_iff, operators, List.mem_cons, not_or]

theorem intercalate_eq_nil_iff {pipe : String} {segs : List (List String)}
    (h : ∀ seg ∈ segs, seg ≠ []) : [pipe].intercalate segs = [] ↔ segs = [] := by
  cases segs with
  | nil => simp
  | cons seg rest =>
    have hseg := h seg List.mem_cons_self
    cases rest <;> simp [hseg]

/-! The line as a whole. -/

namespace Layout.IsLegal

variable {l l' : Layout}

theorem extractRedirection_words (hl : l.IsLegal g) (h : g.IsSound) :
    g.extractRedirection (l.words g) = .ok ([g.pipe].intercalate l.commands, l.redirection) := by
  refine h.extractRedirection_eq_ok_iff.mpr ⟨?_, l.clause, hl.clause_phrase, rfl, rfl⟩
  apply Text.forall_mem_intercalate
  · exact List.forall_mem_singleton.mpr (Grammar.mode?_eq_none h.pipe_not_redirection)
  · intro command hc word hw
    exact (Grammar.notMem_operators_iff.mp ((hl.commands_phrase command hc).2 word hw)).2

theorem segments_commands (hl : l.IsLegal g) :
    segments g.pipe ([g.pipe].intercalate l.commands) = .ok l.commands := by
  refine segments_eq_ok_iff.mpr ⟨rfl, fun command hc => ⟨(hl.commands_phrase command hc).1, ?_⟩⟩
  intro hp
  exact (hl.commands_phrase command hc).2 g.pipe hp List.mem_cons_self

theorem intercalate_ne_nil (hl : l.IsLegal g) : [g.pipe].intercalate l.commands ≠ [] := by
  rw [ne_eq, intercalate_eq_nil_iff fun command hc => (hl.commands_phrase command hc).1]
  exact hl.commands_ne_nil

theorem words_ne_nil (hl : l.IsLegal g) : l.words g ≠ [] :=
  fun he => hl.intercalate_ne_nil (List.append_eq_nil_iff.mp he).1

/-- A line is laid out in one way at most. -/
theorem words_inj (hl : l.IsLegal g) (hl' : l'.IsLegal g) (h : g.IsSound)
    (he : l.words g = l'.words g) : l = l' := by
  have hx := hl.extractRedirection_words h
  rw [he, hl'.extractRedirection_words h, Except.ok.injEq, Prod.mk.injEq] at hx
  have hcommands : l.commands = l'.commands := by
    have hs := hl.segments_commands
    rw [← hx.1, hl'.segments_commands] at hs
    exact (Except.ok.inj hs).symm
  have hclause : l.clauseWords g = l'.clauseWords g := by
    rw [words, words, hcommands] at he
    exact List.append_cancel_left he
  obtain ⟨commands, clause⟩ := l
  obtain ⟨commands', clause'⟩ := l'
  dsimp only at hcommands
  subst hcommands
  cases clause with
  | none =>
    cases clause' with
    | none => rfl
    | some c' => simp [clauseWords, Clause.words] at hclause
  | some c =>
    cases clause' with
    | none => simp [clauseWords, Clause.words] at hclause
    | some c' =>
      obtain ⟨hoperator, htarget⟩ := List.cons.inj hclause
      have hmode := h.mode?_redirectionOperator c.mode
      rw [hoperator, h.mode?_redirectionOperator, Option.some.injEq] at hmode
      obtain ⟨mode, target⟩ := c
      obtain ⟨mode', target'⟩ := c'
      dsimp only at hmode htarget
      rw [hmode, htarget]

theorem plan (hl : l.IsLegal g) (h : g.IsSound) {line : String}
    (hw : g.words line = .ok (l.words g)) : g.plan line = .ok ⟨l.commands, l.redirection⟩ := by
  have hparse : g.parse line = .ok ⟨[g.pipe].intercalate l.commands, l.redirection⟩ := by
    rw [Grammar.parse, hw, Except.bind, hl.extractRedirection_words h]
    rfl
  have hne : ([g.pipe].intercalate l.commands).isEmpty = false := by
    simpa using hl.intercalate_ne_nil
  rw [Grammar.plan, hparse, Except.bind, hne]
  simp [hl.segments_commands, Except.map]

end Layout.IsLegal

theorem Grammar.plan_of_words_eq_nil {line : String} (hw : g.words line = .ok []) :
    g.plan line = .ok ⟨[], none⟩ := by
  rw [plan, parse, hw]
  rfl

/-- A line with words that can be planned is laid out as its plan says. -/
theorem Grammar.IsSound.exists_layout (h : g.IsSound) {line : String} {words : List String}
    {p : Plan} (hw : g.words line = .ok words) (hp : g.plan line = .ok p) :
    words = [] ∨ ∃ l : Layout, l.IsLegal g ∧ words = l.words g := by
  rw [plan, parse, hw, Except.bind] at hp
  cases hx : g.extractRedirection words with
  | error e => simp [hx, Except.map, Except.bind] at hp
  | ok found =>
    obtain ⟨front, redirection⟩ := found
    obtain ⟨hfront, clause, hc, hwords, hredirection⟩ := h.extractRedirection_eq_ok_iff.mp hx
    simp only [hx, Except.map, Except.bind] at hp
    split at hp
    next => contradiction
    next hbare =>
      cases hs : segments g.pipe front with
      | error e => simp [hs] at hp
      | ok segs =>
        obtain ⟨hjoin, hsegs⟩ := segments_eq_ok_iff.mp hs
        by_cases hf : front = []
        · have hnone : clause = none := by simpa [hf, hredirection] using hbare
          exact .inl (by rw [hwords, hf, hnone]; rfl)
        · refine .inr ⟨⟨segs, clause⟩, ⟨?_, ?_, hc⟩, by rw [hwords, hjoin]; rfl⟩
          · rintro rfl
            exact hf hjoin
          · intro seg hseg
            refine ⟨(hsegs seg hseg).1, fun word hword => notMem_operators_iff.mpr ⟨?_, ?_⟩⟩
            · rintro rfl
              exact (hsegs seg hseg).2 hword
            · apply hfront
              rw [hjoin]
              exact Text.mem_intercalate_of_mem hseg hword

theorem Grammar.submit_without_opener {σ : Type} (g : Grammar) (line : String) (ends : Ends)
    (state : σ) (streams : Streams) :
    (g.submit none line ends state streams).1 =
      match g.plan line with
      | .error e => .error (.line e)
      | .ok p =>
        .ok ⟨(wire p.segments ends.input ends.output streams).1, p.redirection, false⟩ := by
  unfold submit
  cases g.plan line <;> rfl

/-- Under valid settings, and without an opener, a line that has words can be submitted exactly when
it has none or they are commands, with pipe operators between them, and perhaps a clause behind the
last one. They are so in one way only, and the stages carry the commands, and the redirection is that
of the clause. -/
theorem submit_ok_iff_layout {σ : Type} {s : Settings} (hv : s.validate = .ok ()) {line : String}
    {words : List String} (hw : s.grammar.words line = .ok words) (ends : Ends) (state : σ)
    (streams : Streams) :
    let g := s.grammar
    let outcome := (g.submit none line ends state streams).1
    ((∃ accepted, outcome = .ok accepted) ↔
      words = [] ∨ ∃ l : Layout, l.IsLegal g ∧ words = l.words g) ∧
    (∀ l l' : Layout, l.IsLegal g → l'.IsLegal g → words = l.words g → words = l'.words g →
      l = l') ∧
    (words = [] → outcome = .ok ⟨[], none, false⟩ ∧ ∀ l : Layout, l.IsLegal g → words ≠ l.words g) ∧
    (∀ l : Layout, l.IsLegal g → words = l.words g → ∃ stages,
      outcome = .ok ⟨stages, l.redirection, false⟩ ∧ stages.map Stage.words = l.commands) ∧
    ∀ accepted, outcome = .ok accepted → ∀ stage ∈ accepted.stages,
      g.IsPhrase stage.words ∧ ∀ word ∈ stage.words, word ≠ "" := by
  intro g outcome
  have h : g.IsSound := Settings.grammar_isSound hv
  have houtcome : outcome = _ := g.submit_without_opener line ends state streams
  have hblank (he : words = []) : outcome = .ok ⟨[], none, false⟩ := by
    rw [houtcome, Grammar.plan_of_words_eq_nil (he ▸ hw)]
    rfl
  have hlaid (l : Layout) (hl : l.IsLegal g) (he : words = l.words g) : ∃ stages,
      outcome = .ok ⟨stages, l.redirection, false⟩ ∧ stages.map Stage.words = l.commands := by
    rw [houtcome, hl.plan h (he ▸ hw)]
    exact ⟨_, rfl, wire_words l.commands ends.input ends.output streams⟩
  have hform {accepted : Submission} (ha : outcome = .ok accepted) :
      words = [] ∨ ∃ l : Layout, l.IsLegal g ∧ words = l.words g := by
    cases hp : g.plan line with
    | error e => simp [houtcome, hp] at ha
    | ok p => exact h.exists_layout hw hp
  refine ⟨⟨fun ⟨accepted, ha⟩ => hform ha, ?_⟩, ?_, ?_, hlaid, ?_⟩
  · rintro (he | ⟨l, hl, he⟩)
    · exact ⟨_, hblank he⟩
    · obtain ⟨stages, hs, -⟩ := hlaid l hl he
      exact ⟨_, hs⟩
  · intro l l' hl hl' he he'
    exact hl.words_inj hl' h (he.symm.trans he')
  · intro he
    exact ⟨hblank he, fun l hl hwords => hl.words_ne_nil (hwords.symm.trans he)⟩
  · intro accepted ha stage hstage
    rcases hform ha with he | ⟨l, hl, he⟩
    · obtain rfl : ⟨[], none, false⟩ = accepted := Except.ok.inj ((hblank he).symm.trans ha)
      contradiction
    · obtain ⟨stages, hs, hcommands⟩ := hlaid l hl he
      obtain rfl : ⟨stages, l.redirection, false⟩ = accepted := Except.ok.inj (hs.symm.trans ha)
      have hmem : stage.words ∈ l.commands := hcommands ▸ List.mem_map_of_mem hstage
      refine ⟨hl.commands_phrase _ hmem, fun word hword => ?_⟩
      apply Grammar.ne_empty_of_mem_words hw
      rw [he]
      exact List.mem_append_left _ (Text.mem_intercalate_of_mem hmem hword)

/-- Two commands and a target of two words, with an operator that is quoted into a word. -/
theorem submit_ok_iff_layout_appended :
    let l : Layout := ⟨[["ls", "a|b"], ["sort"]], some ⟨.append, ["my", "log"]⟩⟩
    ({} : Settings).validate = .ok () ∧ l.IsLegal {} ∧
      ({} : Grammar).words "ls \"a|b\" | sort >> my log" = .ok (l.words {}) ∧
      ∃ stages, (({} : Grammar).submit none "ls \"a|b\" | sort >> my log" ⟨⟨0⟩, ⟨1⟩⟩ () {}).1 =
          .ok ⟨stages, some ⟨.append, "my log"⟩, false⟩ ∧
        stages.map Stage.words = [["ls", "a|b"], ["sort"]] := by
  intro l
  have hv : ({} : Settings).validate = .ok () := by rfl
  have hw : ({} : Grammar).words "ls \"a|b\" | sort >> my log" = .ok (l.words {}) := by rfl
  have hl : l.IsLegal {} := by
    refine ⟨by decide, ?_, ?_⟩
    · simp only [l, List.forall_mem_cons]
      exact ⟨⟨by decide, by decide⟩, ⟨by decide, by decide⟩, by simp⟩
    · simp only [l, Option.mem_some, forall_eq']
      exact ⟨by decide, by decide⟩
  exact ⟨hv, hl, hw, (submit_ok_iff_layout hv hw _ _ _).2.2.2.1 l hl rfl⟩

end TerminalShell.Command
