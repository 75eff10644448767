import TerminalShell.Settings.Basic
import Mathlib.Data.List.Nodup

/-! What the validation of settings admits. -/
namespace TerminalShell

/-- A text that is neither empty nor broken by blank characters. -/
def Text.IsUnbroken (text : String) : Prop := text ≠ "" ∧ ∀ c ∈ text.toList, isBlank c = false

/-- A grammar whose characters and operators can be told apart. -/
structure Command.Grammar.IsSound (g : Command.Grammar) : Prop where
  escape_ne_quote : g.escape ≠ g.quote
  escape_not_blank : Text.isBlank g.escape = false
  quote_not_blank : Text.isBlank g.quote = false
  operators_unbroken : ∀ op ∈ g.operators, Text.IsUnbroken op
  operators_nodup : g.operators.Nodup

namespace Settings

theorem operatorFault_eq_none_iff {earlier operators : List String} :
    operatorFault earlier operators = none ↔
      (∀ op ∈ operators, Text.IsUnbroken op ∧ op ∉ earlier) ∧ operators.Nodup := by
  induction operators generalizing earlier with
  | nil => simp [operatorFault]
  | cons op rest ih =>
    have hb : (op.isEmpty || op.toList.any Text.isBlank) = false ↔ Text.IsUnbroken op := by
      simp [Text.IsUnbroken]
    unfold operatorFault
    by_cases hu : Text.IsUnbroken op
    · rw [if_neg (by simp [hb.mpr hu])]
      by_cases he : op ∈ earlier
      · rw [if_pos (by simpa using he)]
        simp [he]
      · rw [if_neg (by simpa using he), ih, List.forall_mem_cons, List.nodup_cons]
        simp only [List.mem_append, List.mem_singleton, not_or]
        constructor
        · rintro ⟨hr, hn⟩
          exact ⟨⟨⟨hu, he⟩, fun x hx => ⟨(hr x hx).1, (hr x hx).2.1⟩⟩,
            fun hm => (hr op hm).2.2 rfl, hn⟩
        · rintro ⟨⟨-, hr⟩, hm, hn⟩
          exact ⟨fun x hx => ⟨(hr x hx).1, (hr x hx).2, fun hxo => hm (hxo ▸ hx)⟩, hn⟩
    · rw [if_pos ((Bool.not_eq_false _).mp (hb.not.mpr hu))]
      simp [hu]

/-- Validation admits exactly a positive chunk size, an interrupt byte that ends no line, a sound
grammar and a path separator that is not blank. -/
theorem validate_eq_ok_iff {s : Settings} :
    s.validate = .ok () ↔ s.terminal.chunkSize ≠ 0 ∧
      (s.terminal.interruptByte ≠ 10 ∧ s.terminal.interruptByte ≠ 13) ∧ s.grammar.IsSound ∧
      Text.isBlank s.path.separator = false := by
  have hv : s.validate = .ok () ↔ s.fault = none := by
    unfold validate
    cases s.fault <;> simp
  have hs : s.grammar.IsSound ↔ s.grammar.escape ≠ s.grammar.quote ∧
      (Text.isBlank s.grammar.escape = false ∧ Text.isBlank s.grammar.quote = false) ∧
      operatorFault [] s.grammar.operators = none := by
    simp only [operatorFault_eq_none_iff, List.not_mem_nil, not_false_eq_true, and_true]
    exact ⟨fun h => ⟨h.1, ⟨h.2, h.3⟩, h.4, h.5⟩,
      fun ⟨he, ⟨hb, hq⟩, ho, hn⟩ => ⟨he, hb, hq, ho, hn⟩⟩
  have hif {p : Prop} [Decidable p] {invalid : Invalid} {rest : Option Invalid} :
      (if p then some invalid else rest) = none ↔ ¬ p ∧ rest = none := by
    split <;> simp [*]
  rw [hv, hs, fault, hif, hif, hif, hif]
  simp only [not_or, Bool.or_eq_true, Bool.not_eq_true]
  cases operatorFault [] s.grammar.operators with
  | some invalid => simp
  | none =>
    simp only [ite_eq_right_iff, reduceCtorEq, imp_false, Bool.not_eq_true]
    tauto

theorem grammar_isSound {s : Settings} (h : s.validate = .ok ()) : s.grammar.IsSound :=
  (validate_eq_ok_iff.mp h).2.2.1

end Settings

end TerminalShell
