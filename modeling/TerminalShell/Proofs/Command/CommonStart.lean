import Mathlib.Data.List.Sort
import Mathlib.Data.String.Basic
import TerminalShell.Command.Completion
import TerminalShell.Proofs.Text.ByteOrder

/-!
What a completion finds. Main statements: the candidates that begin with the stem, in the order of
their bytes and each once, and the longest text with which all of them begin; and it finds the same
when it goes on from that text, or when the candidates come in another order or more than once.
-/
namespace TerminalShell.Command.Completion

/-! The order of what is found. -/

theorem mem_eraseRepeats {text : String} {l : List String} : text ∈ eraseRepeats l ↔ text ∈ l := by
  induction l with
  | nil => rfl
  | cons a rest ih =>
    rw [eraseRepeats]
    split
    next hhead =>
      have ha : a ∈ rest := List.mem_of_head? hhead
      rw [ih, List.mem_cons]
      exact ⟨.inr, fun h => h.elim (fun he => he ▸ ha) id⟩
    next => rw [List.mem_cons, List.mem_cons, ih]

/-- Of a list in order, what stays is in strict order. -/
theorem pairwise_eraseRepeats {l : List String} (h : l.Pairwise (· ≤ ·)) :
    (eraseRepeats l).Pairwise (· < ·) := by
  induction l with
  | nil => exact .nil
  | cons a rest ih =>
    obtain ⟨ha, hrest⟩ := List.pairwise_cons.mp h
    rw [eraseRepeats]
    split
    next => exact ih hrest
    next hhead =>
      refine List.pairwise_cons.mpr ⟨fun text htext => ?_, ih hrest⟩
      cases rest with
      | nil => simp [eraseRepeats] at htext
      | cons b rest =>
        have hab : a < b := lt_of_le_of_ne (ha b List.mem_cons_self) fun he => hhead (he ▸ rfl)
        rcases List.mem_cons.mp (mem_eraseRepeats.mp htext) with rfl | htext
        · exact hab
        · exact lt_of_lt_of_le hab ((List.pairwise_cons.mp hrest).1 text htext)

/-- The candidates that begin with the stem, in order and each once. -/
def matching (candidates : List String) (stem : String) : List String :=
  eraseRepeats ((candidates.filter fun c => stem.toList.isPrefixOf c.toList).mergeSort
    fun a b => decide (a ≤ b))

theorem mem_matching {candidates : List String} {stem text : String} :
    text ∈ matching candidates stem ↔ text ∈ candidates ∧ stem.toList <+: text.toList := by
  rw [matching, mem_eraseRepeats, List.mem_mergeSort, List.mem_filter, List.isPrefixOf_iff_prefix]

theorem pairwise_matching (candidates : List String) (stem : String) :
    (matching candidates stem).Pairwise (· < ·) := by
  refine pairwise_eraseRepeats ((List.pairwise_mergeSort ?_ ?_ _).imp of_decide_eq_true)
  · intro a b c hab hbc
    simp only [decide_eq_true_eq] at *
    exact le_trans hab hbc
  · intro a b
    simpa using le_total a b

/-! What is common to it. -/

theorem prefix_sharedStart_iff {start as bs : List Char} :
    start <+: sharedStart as bs ↔ start <+: as ∧ start <+: bs := by
  induction start generalizing as bs with
  | nil => simp
  | cons c start ih =>
    cases as with
    | nil => simp [sharedStart]
    | cons a as =>
      cases bs with
      | nil => simp [sharedStart]
      | cons b bs =>
        by_cases hab : a = b
        · subst hab
          rw [sharedStart, if_pos rfl]
          simp only [List.cons_prefix_cons, ih]
          exact and_and_left
        · rw [sharedStart, if_neg hab]
          simp only [List.cons_prefix_cons, List.prefix_nil, List.cons_ne_nil, false_iff]
          rintro ⟨⟨rfl, -⟩, rfl, -⟩
          exact hab rfl

theorem prefix_commonStart_iff {start : List Char} {first : String} {rest : List String} :
    start <+: (commonStart first rest).toList ↔ ∀ text ∈ first :: rest, start <+: text.toList := by
  induction rest generalizing first with
  | nil => simp [commonStart]
  | cons next rest ih =>
    have hstep : commonStart first (next :: rest) =
        commonStart (String.ofList (sharedStart first.toList next.toList)) rest := rfl
    rw [hstep, ih]
    simp only [List.forall_mem_cons, String.toList_ofList, prefix_sharedStart_iff, and_assoc]

/-! The completion. -/

variable {candidates : List String} {stem : String}

theorem found_ofCandidates : (ofCandidates candidates stem).found = matching candidates stem := by
  unfold ofCandidates matching
  dsimp only
  split
  next h => exact h.symm
  next => rfl

theorem common_of_matching_eq_nil (h : matching candidates stem = []) :
    (ofCandidates candidates stem).common = stem := by
  unfold matching at h
  unfold ofCandidates
  dsimp only
  rw [h]

theorem prefix_common_iff (h : matching candidates stem ≠ []) {start : List Char} :
    start <+: (ofCandidates candidates stem).common.toList ↔
      ∀ text ∈ matching candidates stem, start <+: text.toList := by
  unfold matching at h ⊢
  unfold ofCandidates
  dsimp only
  split
  next hnil => exact absurd hnil h
  next first rest hcons =>
    rw [hcons]
    exact prefix_commonStart_iff

/-- For any candidates and any stem: what is found is in strictly increasing order of its bytes, and
it is the candidates that begin with the stem. When something is found, the common text begins with
the stem, everything found begins with the common text, and the common text begins with every other
text with which everything found begins. When nothing is found, the common text is the stem. -/
theorem completion_exact (candidates : List String) (stem : String) :
    (ofCandidates candidates stem).found.Pairwise
      (fun a b => Text.Utf8.encode a < Text.Utf8.encode b) ∧
    (∀ text, text ∈ (ofCandidates candidates stem).found ↔
      text ∈ candidates ∧ stem.toList <+: text.toList) ∧
    ((ofCandidates candidates stem).found ≠ [] →
      let common := (ofCandidates candidates stem).common
      stem.toList <+: common.toList ∧
      (∀ text ∈ (ofCandidates candidates stem).found, common.toList <+: text.toList) ∧
      ∀ start : String,
        (∀ text ∈ (ofCandidates candidates stem).found, start.toList <+: text.toList) →
        start.toList <+: common.toList) ∧
    ((ofCandidates candidates stem).found = [] → (ofCandidates candidates stem).common = stem) := by
  rw [found_ofCandidates]
  refine ⟨(pairwise_matching candidates stem).imp Text.Utf8.encode_lt_encode,
    fun _ => mem_matching, fun hne => ⟨?_, ?_, fun start h => (prefix_common_iff hne).mpr h⟩,
    common_of_matching_eq_nil⟩
  · exact (prefix_common_iff hne).mpr fun text htext => (mem_matching.mp htext).2
  · exact (prefix_common_iff hne).mp List.prefix_rfl

/-- Two candidates that share the first byte of a character but not the character. -/
example : ofCandidates ["\u00e9t\u00e9", "\u00e8re", "\u00e9t\u00e9"] "" =
    ⟨["\u00e8re", "\u00e9t\u00e9"], ""⟩ := by
  cbv

/-! Completing once more. -/

variable {others : List String} {longer : String}

theorem matching_congr
    (h : ∀ text, text ∈ candidates ∧ stem.toList <+: text.toList ↔
      text ∈ others ∧ longer.toList <+: text.toList) :
    matching candidates stem = matching others longer := by
  apply (pairwise_matching candidates stem).eq_of_mem_iff (pairwise_matching others longer)
  intro text
  rw [mem_matching, mem_matching, h]

theorem ofCandidates_eq (candidates : List String) (stem : String) :
    ofCandidates candidates stem =
      match matching candidates stem with
      | [] => ⟨[], stem⟩
      | first :: rest => ⟨first :: rest, commonStart first rest⟩ := by
  unfold ofCandidates matching
  dsimp only
  generalize eraseRepeats _ = found
  cases found with
  | nil => rfl
  | cons first rest => rfl

/-- A completion depends on what it finds, and on the stem only when this is nothing. -/
theorem ofCandidates_congr (h : matching candidates stem = matching others longer)
    (hnil : matching candidates stem = [] → stem = longer) :
    ofCandidates candidates stem = ofCandidates others longer := by
  rw [ofCandidates_eq, ofCandidates_eq, ← h]
  cases hm : matching candidates stem with
  | nil => rw [hnil hm]
  | cons first rest => rfl

theorem ofCandidates_longer (hne : matching candidates stem ≠ [])
    (hs : stem.toList <+: longer.toList)
    (hl : ∀ text ∈ matching candidates stem, longer.toList <+: text.toList) :
    ofCandidates candidates longer = ofCandidates candidates stem := by
  have h : matching candidates stem = matching candidates longer := by
    apply matching_congr
    intro text
    constructor
    · exact fun hm => ⟨hm.1, hl text (mem_matching.mpr hm)⟩
    · exact fun hm => ⟨hm.1, hs.trans hm.2⟩
  exact (ofCandidates_congr h fun hnil => absurd hnil hne).symm

/-- Completing the common text gives what completing the stem gives, and so do candidates that come
in another order or with copies. When something is found, every text that begins with the stem, and
with which all that is found begins, is completed like the stem. -/
theorem completion_stable (candidates : List String) (stem : String) :
    ofCandidates candidates (ofCandidates candidates stem).common = ofCandidates candidates stem ∧
    (∀ others : List String, (∀ text, text ∈ others ↔ text ∈ candidates) →
      ofCandidates others stem = ofCandidates candidates stem) ∧
    ((ofCandidates candidates stem).found ≠ [] → ∀ longer : String, stem.toList <+: longer.toList →
      (∀ text ∈ (ofCandidates candidates stem).found, longer.toList <+: text.toList) →
      ofCandidates candidates longer = ofCandidates candidates stem) := by
  rw [found_ofCandidates]
  refine ⟨?_, fun others h => ?_, fun hne longer hs hl => ?_⟩
  · by_cases hne : matching candidates stem = []
    · rw [common_of_matching_eq_nil hne]
    · refine ofCandidates_longer hne ?_ ((prefix_common_iff hne).mp List.prefix_rfl)
      exact (prefix_common_iff hne).mpr fun text htext => (mem_matching.mp htext).2
  · have hm : matching others stem = matching candidates stem :=
      matching_congr fun text => by rw [h text]
    exact ofCandidates_congr hm fun _ => rfl
  · exact ofCandidates_longer hne hs hl

end TerminalShell.Command.Completion
