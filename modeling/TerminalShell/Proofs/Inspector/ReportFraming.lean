import TerminalShell.Inspector.Report
import TerminalShell.Proofs.Settings.Validity
import TerminalShell.Proofs.Text.EncodedText
import TerminalShell.Proofs.Text.Splitting

/-!
The frame of a report. Whatever a line says, none of the lines about it is broken by a line end or
can be taken for the end mark: words and targets are shown in quotes, and what an error message
names without quotes is an operator.
-/
namespace TerminalShell

namespace Text

/-- A text without line ends. -/
def IsOneLine (text : String) : Prop := ∀ c ∈ text.toList, c ≠ '\n' ∧ c ≠ '\r'

instance (text : String) : Decidable (IsOneLine text) :=
  List.decidableBAll (fun c => c ≠ '\n' ∧ c ≠ '\r') text.toList

theorem IsOneLine.append {a b : String} (ha : IsOneLine a) (hb : IsOneLine b) :
    IsOneLine (a ++ b) := by
  rw [IsOneLine, String.toList_append, List.forall_mem_append]
  exact ⟨ha, hb⟩

theorem isOneLine_intercalate {sep : String} {texts : List String} (hs : IsOneLine sep)
    (h : ∀ text ∈ texts, IsOneLine text) : IsOneLine (sep.intercalate texts) := by
  unfold IsOneLine
  rw [String.toList_intercalate]
  exact forall_mem_intercalate hs (by simpa [IsOneLine] using h)

theorem IsUnbroken.isOneLine {text : String} (h : IsUnbroken text) : IsOneLine text := by
  intro c hc
  have hb := h.2 c hc
  constructor <;> rintro rfl <;> exact absurd hb (by decide)

theorem ne_lineEnd_of_mem_toDigits {base n : Nat} {c : Char} (h₁ : 1 < base) (h₂ : base ≤ 16)
    (hc : c ∈ Nat.toDigits base n) : c ≠ '\n' ∧ c ≠ '\r' := by
  have hdigit : ∀ d < 16, d.digitChar ≠ '\n' ∧ d.digitChar ≠ '\r' := by decide
  induction n using Nat.strongRecOn with
  | _ n ih =>
    rw [Nat.toDigits_eq_if h₁] at hc
    split at hc
    next hn =>
      rw [List.mem_singleton] at hc
      exact hc ▸ hdigit n (by omega)
    next hn =>
      rw [List.mem_append, List.mem_singleton] at hc
      rcases hc with hc | rfl
      · exact ih _ (Nat.div_lt_self (by omega) h₁) hc
      · exact hdigit _ (Nat.lt_of_lt_of_le (Nat.mod_lt n (Nat.lt_of_succ_lt h₁)) h₂)

theorem isOneLine_toString (n : Nat) : IsOneLine (toString n) := by
  intro c hc
  rw [Nat.toString_eq_repr, Nat.toList_repr] at hc
  exact ne_lineEnd_of_mem_toDigits (by decide) (by decide) hc

theorem isOneLine_quote (text : String) : IsOneLine (quote text) := by
  have hchar (c : Char) : ∀ d ∈ quoteChar c, d ≠ '\n' ∧ d ≠ '\r' := by
    unfold quoteChar
    split_ifs with _ _ _ _ hfeed hreturn
    case pos => simp
    case pos => simp
    case pos => simp
    case pos => simp
    case pos => simp
    case pos => simp
    case pos =>
      simp only [List.forall_mem_append]
      exact ⟨⟨by simp, fun d hd => ne_lineEnd_of_mem_toDigits (by decide) (by decide) hd⟩,
        by simp⟩
    case neg => simpa using ⟨hfeed, hreturn⟩
  intro d hd
  simp only [quote, String.toList_ofList, List.mem_cons, List.mem_append, List.mem_flatMap,
    List.not_mem_nil, or_false] at hd
  rcases hd with rfl | ⟨c, -, hd⟩ | rfl
  · decide
  · exact hchar c d hd
  · decide

theorem isOneLine_quoteAll (texts : List String) : IsOneLine (quoteAll texts) := by
  have h : ∀ word ∈ texts.map quote, IsOneLine word := by
    simpa using fun text _ => isOneLine_quote text
  exact .append (.append (by decide) (isOneLine_intercalate (by decide) h)) (by decide)

/-- A line of text is one line of its bytes. -/
theorem IsOneLine.notMem_encode {text : String} (h : IsOneLine text) :
    (10 : UInt8) ∉ Utf8.encode text :=
  fun hm => (h '\n' ((Utf8.mem_encode_iff (a := '\n') (by decide) text).mp hm)).1 rfl

theorem IsOneLine.dropReturn_encode {text : String} (h : IsOneLine text) :
    dropReturn (Utf8.encode text) = Utf8.encode text :=
  Text.dropReturn_encode fun hl => (h '\r' (List.mem_of_getLast? hl)).2 rfl

end Text

namespace Command

theorem error_of_map {ε α β : Type} {f : α → β} {x : Except ε α} {e : ε}
    (h : x.map f = .error e) : x = .error e := by
  cases x with
  | error e' =>
    cases h
    rfl
  | ok a => cases h

theorem error_of_bind {ε α β : Type} {f : α → Except ε β} {x : Except ε α} {e : ε}
    (h : x.bind f = .error e) : x = .error e ∨ ∃ a, x = .ok a ∧ f a = .error e := by
  cases x with
  | error e' =>
    cases h
    exact .inl rfl
  | ok a => exact .inr ⟨a, rfl, h⟩

namespace LineError

/-- The operator that a message names as it is. -/
def operator? : LineError → Option String
  | .missingTarget operator | .ambiguousTarget operator => some operator
  | .malformed _ _ | .emptyStage _ => none

theorem isOneLine_message {e : LineError} (h : ∀ op ∈ e.operator?, Text.IsOneLine op) :
    Text.IsOneLine e.message := by
  cases e with
  | malformed offset reason =>
    have hreason : Text.IsOneLine reason.message := by cases reason <;> decide +kernel
    exact .append (.append (.append (by decide +kernel) (Text.isOneLine_toString offset))
      (by decide)) hreason
  | missingTarget operator =>
    exact .append (.append (by decide +kernel) (h operator rfl)) (by decide)
  | ambiguousTarget operator =>
    exact .append (.append (by decide) (h operator rfl)) (by decide +kernel)
  | emptyStage index => exact .append (by decide +kernel) (Text.isOneLine_toString index)

end LineError

variable {g : Grammar} {line op : String} {words : List String} {e : LineError}

theorem Scan.operator?_of_step {s : Scan} {c : Char} (h : s.step g c = .error e) :
    e.operator? = none := by
  unfold Scan.step at h
  dsimp only at h
  split_ifs at h
  · split at h <;> cases h
    rfl
  · split at h <;> cases h
  · split at h <;> cases h

theorem Scan.operator?_of_finish {s : Scan} (h : s.finish = .error e) : e.operator? = none := by
  unfold Scan.finish at h
  split_ifs at h
  · cases h
    rfl
  · split at h <;> cases h
    rfl

namespace Grammar

theorem operator?_of_scan {s : Scan} {text : List Char} (h : g.scan s text = .error e) :
    e.operator? = none := by
  induction text generalizing s with
  | nil => cases h
  | cons c text ih =>
    rcases error_of_bind (x := s.step g c) h with h | ⟨t, -, h⟩
    · exact Scan.operator?_of_step h
    · exact ih h

theorem operator?_of_words (h : g.words line = .error e) : e.operator? = none := by
  rcases error_of_bind h with h | ⟨s, -, h⟩
  · exact operator?_of_scan h
  · exact Scan.operator?_of_finish h

theorem mem_operators_of_mode? {word : String} {mode : Redirection.Mode}
    (h : g.mode? word = some mode) : word ∈ g.operators := by
  unfold mode? at h
  split_ifs at h <;> simp [operators, *]

theorem mem_operators_of_target {operator : String} (ho : operator ∈ g.operators)
    (h : g.target operator words = .error e) (hop : op ∈ e.operator?) : op ∈ g.operators := by
  unfold target at h
  split_ifs at h
  · cases h
    cases hop
    exact ho
  · split at h <;> cases h
    next extra hf =>
      cases hop
      exact isOperator_iff.mp (List.find?_some hf)

theorem mem_operators_of_extractRedirection (h : g.extractRedirection words = .error e)
    (hop : op ∈ e.operator?) : op ∈ g.operators := by
  induction words with
  | nil => cases h
  | cons word rest ih =>
    cases hm : g.mode? word with
    | some mode =>
      rw [extractRedirection_cons_of_mode?_eq_some hm] at h
      exact mem_operators_of_target (mem_operators_of_mode? hm) (error_of_map h) hop
    | none =>
      rw [extractRedirection_cons_of_mode?_eq_none hm] at h
      exact ih (error_of_map h)

end Grammar

theorem operator?_of_segmentsFrom {pipe : String} {index : Nat} {current : List String}
    (h : segmentsFrom pipe index current words = .error e) : e.operator? = none := by
  induction words generalizing index current with
  | nil =>
    unfold segmentsFrom at h
    split_ifs at h
    cases h
    rfl
  | cons word rest ih =>
    unfold segmentsFrom at h
    split_ifs at h
    · cases h
      rfl
    · exact ih (error_of_map h)
    · exact ih h

/-- An error names no operator that the grammar does not have. -/
theorem Grammar.mem_operators_of_plan (h : g.plan line = .error e) (hop : op ∈ e.operator?) :
    op ∈ g.operators := by
  have hnone (hn : e.operator? = none) : op ∈ g.operators := by simp [hn] at hop
  rcases error_of_bind h with h | ⟨parsed, -, h⟩
  · rcases error_of_bind h with h | ⟨words, -, h⟩
    · exact hnone (Grammar.operator?_of_words h)
    · exact Grammar.mem_operators_of_extractRedirection (error_of_map h) hop
  · split_ifs at h
    · cases h
      cases hop
    · have h := error_of_map h
      unfold segments at h
      split_ifs at h
      exact hnone (operator?_of_segmentsFrom h)

end Command

namespace Inspector.Report
open Command

/-- A line that stands by itself in a report, and is not the end of it. -/
structure IsContent (text : String) : Prop where
  oneLine : Text.IsOneLine text
  ne_empty : text ≠ ""
  ne_endMark : text ≠ endMark

/-- A line is told from the end mark by the first of its words. -/
theorem IsContent.of_append {lead rest : String} (hl : lead ∈ ["stage ", "redirect ", "error: "])
    (hr : Text.IsOneLine rest) : IsContent (lead ++ rest) := by
  simp only [List.mem_cons, List.not_mem_nil, or_false] at hl
  constructor
  case oneLine => exact .append (by rcases hl with rfl | rfl | rfl <;> decide) hr
  case ne_empty =>
    intro h
    have := congrArg String.toList h
    rcases hl with rfl | rfl | rfl <;> simp at this
  case ne_endMark =>
    intro h
    have := congrArg String.toList h
    rcases hl with rfl | rfl | rfl <;> simp [endMark] at this

theorem isContent_stageLine (index : Nat) (words : List String) :
    IsContent (stageLine index words) := by
  rw [stageLine, String.append_assoc, String.append_assoc]
  exact .of_append (by decide)
    (.append (Text.isOneLine_toString index) (.append (by decide) (Text.isOneLine_quoteAll words)))

theorem isContent_redirectionLine (r : Redirection) : IsContent (redirectionLine r) := by
  have hmode : Text.IsOneLine r.mode.name := by cases r.mode <;> decide
  rw [redirectionLine, String.append_assoc, String.append_assoc]
  exact .of_append (by decide) (.append hmode (.append (by decide) (Text.isOneLine_quote r.target)))

theorem isContent_of_mem_planLines {plan : Plan} {text : String} (h : text ∈ planLines plan) :
    IsContent text := by
  unfold planLines at h
  split_ifs at h
  · rw [List.mem_singleton] at h
    subst h
    exact ⟨by decide, by decide, by decide⟩
  · rw [List.mem_append, List.mem_mapIdx, Option.mem_toList, Option.map_eq_some_iff] at h
    rcases h with ⟨index, -, rfl⟩ | ⟨r, -, rfl⟩
    · exact isContent_stageLine index _
    · exact isContent_redirectionLine r

/-- No line of a report can be taken for two or for its end. -/
theorem isContent_of_mem_lines {g : Grammar} (hg : g.IsSound) {line text : String}
    (h : text ∈ lines g line) : IsContent text := by
  unfold lines at h
  split at h
  · exact isContent_of_mem_planLines h
  next e he =>
    rw [List.mem_singleton] at h
    subst h
    refine .of_append (by decide) (LineError.isOneLine_message fun op hop => ?_)
    exact (hg.operators_unbroken op (Grammar.mem_operators_of_plan he hop)).isOneLine

theorem encode_text (g : Grammar) (line : String) :
    Text.Utf8.encode (text g line) = Text.Utf8.encodeLines (lines g line ++ [endMark]) :=
  Text.Utf8.encode_join_lines _

end Inspector.Report

end TerminalShell
