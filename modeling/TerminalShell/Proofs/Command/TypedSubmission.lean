import TerminalShell.Command.Submission
import TerminalShell.Proofs.Command.Escaping
import TerminalShell.Proofs.Command.Segmentation
import TerminalShell.Proofs.Command.Wiring
import TerminalShell.Proofs.Settings.Validity

/-!
Typing a pipeline and submitting the line. Main statement: what has been typed with escapes is
submitted as it was meant, segment by segment and with its redirection.
-/
namespace TerminalShell.Command

variable {g : Grammar}

namespace Grammar

def redirectionOperator (g : Grammar) : Redirection.Mode → String
  | .input => g.input
  | .output => g.output
  | .append => g.append

def clause (g : Grammar) : Option Redirection → List String
  | none => []
  | some r => [g.redirectionOperator r.mode, r.target]

def pipelineWords (g : Grammar) (segs : List (List String)) (redirection : Option Redirection) :
    List String :=
  [g.pipe].intercalate segs ++ g.clause redirection

end Grammar

theorem Grammar.mode?_eq_none {word : String} (h : word ∉ [g.input, g.output, g.append]) :
    g.mode? word = none := by
  simp only [List.mem_cons, List.not_mem_nil, or_false, not_or] at h
  simp [mode?, h]

theorem Grammar.IsSound.mode?_redirectionOperator (h : g.IsSound) (mode : Redirection.Mode) :
    g.mode? (g.redirectionOperator mode) = some mode := by
  have hn := h.operators_nodup
  simp only [operators, List.nodup_cons, List.mem_cons, List.not_mem_nil, or_false, not_or] at hn
  obtain ⟨-, ⟨hio, hia⟩, hoa, -⟩ := hn
  cases mode with
  | input => simp [mode?, redirectionOperator]
  | output => simp [mode?, redirectionOperator, Ne.symm hio]
  | append => simp [mode?, redirectionOperator, Ne.symm hia, Ne.symm hoa]

theorem Grammar.IsSound.pipe_not_redirection (h : g.IsSound) :
    g.pipe ∉ [g.input, g.output, g.append] :=
  (List.nodup_cons.mp h.operators_nodup).1

/-- Words without a redirection operator stay in front of what follows them. -/
theorem Grammar.extractRedirection_append {words : List String}
    (h : ∀ word ∈ words, g.mode? word = none) (rest : List String) :
    g.extractRedirection (words ++ rest) =
      (g.extractRedirection rest).map fun found => (words ++ found.1, found.2) := by
  induction words with
  | nil =>
    rw [List.nil_append]
    cases g.extractRedirection rest <;> rfl
  | cons word words ih =>
    obtain ⟨hword, hwords⟩ := List.forall_mem_cons.mp h
    rw [List.cons_append, extractRedirection_cons_of_mode?_eq_none hword, ih hwords]
    cases g.extractRedirection rest <;> rfl

theorem Grammar.IsSound.extractRedirection_clause (h : g.IsSound) {redirection : Option Redirection}
    (hr : ∀ r ∈ redirection, r.target ∉ g.operators) :
    g.extractRedirection (g.clause redirection) = .ok ([], redirection) := by
  cases redirection with
  | none => rfl
  | some r =>
    have ht : g.isOperator r.target = false := isOperator_eq_false_iff.mpr (hr r rfl)
    rw [clause, extractRedirection_cons_of_mode?_eq_some (h.mode?_redirectionOperator r.mode)]
    simp [target, ht, Except.map]

theorem Grammar.IsSound.plan_of_words (h : g.IsSound) {line : String} {segs : List (List String)}
    {redirection : Option Redirection} (hne : segs ≠ [])
    (hs : ∀ seg ∈ segs, seg ≠ [] ∧ ∀ word ∈ seg, word ∉ g.operators)
    (hr : ∀ r ∈ redirection, r.target ∉ g.operators)
    (hw : g.words line = .ok (g.pipelineWords segs redirection)) :
    g.plan line = .ok ⟨segs, redirection⟩ := by
  have hmode : ∀ word ∈ [g.pipe].intercalate segs, g.mode? word = none := by
    apply Text.forall_mem_intercalate
    · exact List.forall_mem_singleton.mpr (mode?_eq_none h.pipe_not_redirection)
    · intro seg hseg word hword
      exact mode?_eq_none fun hm => (hs seg hseg).2 word hword (List.mem_cons_of_mem _ hm)
  have hparse : g.parse line = .ok ⟨[g.pipe].intercalate segs, redirection⟩ := by
    rw [parse, hw, Except.bind, pipelineWords, extractRedirection_append hmode,
      h.extractRedirection_clause hr]
    simp [Except.map]
  have hpipe : ∀ seg ∈ segs, seg ≠ [] ∧ g.pipe ∉ seg := fun seg hseg =>
    ⟨(hs seg hseg).1, fun hp => (hs seg hseg).2 g.pipe hp List.mem_cons_self⟩
  have hfull : ([g.pipe].intercalate segs).isEmpty = false := by
    cases segs with
    | nil => exact absurd rfl hne
    | cons seg rest => cases rest <;> simp [(hpipe seg List.mem_cons_self).1]
  rw [plan, hparse, Except.bind, hfull]
  simp [segments_intercalate hpipe, Except.map]

theorem Grammar.IsSound.pipelineWords_ne_empty (h : g.IsSound) (segs : List (List String))
    (redirection : Option Redirection) (hs : ∀ seg ∈ segs, ∀ word ∈ seg, word ≠ "")
    (hr : ∀ r ∈ redirection, r.target ≠ "") :
    ∀ word ∈ g.pipelineWords segs redirection, word ≠ "" := by
  have hop (op : String) (hm : op ∈ g.operators) : op ≠ "" := (h.operators_unbroken op hm).1
  refine List.forall_mem_append.mpr ⟨Text.forall_mem_intercalate ?_ hs, ?_⟩
  · exact List.forall_mem_singleton.mpr (hop _ List.mem_cons_self)
  · cases redirection with
    | none => simp [clause]
    | some r =>
      have hm : g.redirectionOperator r.mode ∈ g.operators := by
        cases r.mode <;> simp [redirectionOperator, operators]
      simpa [clause] using ⟨hop _ hm, hr r rfl⟩

/-- Under valid settings whose escape and quote characters are not renamed, a typed pipeline is
submitted as it was meant: its stages carry the segments, and its redirection is the one typed. -/
theorem submit_typed_pipeline {σ : Type} {s : Settings} (hv : s.validate = .ok ())
    (he : s.grammar.escape ∉ ['r', 't', 'n']) (hq : s.grammar.quote ∉ ['r', 't', 'n'])
    (segs : List (List String)) (hne : segs ≠ [])
    (hs : ∀ seg ∈ segs, seg ≠ [] ∧ ∀ word ∈ seg, word ≠ "" ∧ word ∉ s.grammar.operators)
    (redirection : Option Redirection)
    (hr : ∀ r ∈ redirection, r.target ≠ "" ∧ r.target ∉ s.grammar.operators)
    (ends : Ends) (state : σ) (streams : Streams) :
    ∃ stages streams', s.grammar.submit none
        (s.grammar.typed (s.grammar.pipelineWords segs redirection)) ends state streams =
          (.ok ⟨stages, redirection, false⟩, state, streams') ∧
      stages.map Stage.words = segs := by
  have h := Settings.grammar_isSound hv
  have hw := (h.escapes he hq).words_typed (h.pipelineWords_ne_empty segs redirection
    (fun seg hseg word hword => ((hs seg hseg).2 word hword).1) fun r hm => (hr r hm).1)
  have hplan := h.plan_of_words hne
    (fun seg hseg => ⟨(hs seg hseg).1, fun word hword => ((hs seg hseg).2 word hword).2⟩)
    (fun r hm => (hr r hm).2) hw
  refine ⟨_, (wire segs ends.input ends.output streams).2, ?_,
    wire_words segs ends.input ends.output streams⟩
  rw [Grammar.submit, hplan]
  rfl

def quotedOutput : Settings := { grammar := { output := "\"out" } }

/-- Words with quotes, escapes and blanks, one that looks like another grammar's operator, and a
target of two words. -/
theorem submit_typed_pipeline_quotedOutput :
    quotedOutput.validate = .ok () ∧
    ∃ stages streams, quotedOutput.grammar.submit none
        (quotedOutput.grammar.typed (quotedOutput.grammar.pipelineWords
          [["say", "a \"b\\"], [">", "\t"]] (some ⟨.output, "my file"⟩))) ⟨⟨0⟩, ⟨1⟩⟩ () {} =
        (.ok ⟨stages, some ⟨.output, "my file"⟩, false⟩, (), streams) ∧
      stages.map Stage.words = [["say", "a \"b\\"], [">", "\t"]] := by
  have hv : quotedOutput.validate = .ok () := by rfl
  exact ⟨hv, submit_typed_pipeline hv (by decide) (by decide) _ (by simp) (by decide) _
    (by decide) _ _ _⟩

end TerminalShell.Command
