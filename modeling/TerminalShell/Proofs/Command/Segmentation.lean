import Mathlib.Logic.ExistsUnique
import TerminalShell.Command.Segments
import TerminalShell.Proofs.Text.Splitting

/-!
The segments of a pipeline are the pieces between its pipe operators. Main statement: words have
segments unless one of their pieces is empty, and then the first such piece is the one to blame.
-/
namespace TerminalShell.Command

/-- The pieces, unless one of them is empty; the first such one is named by its place when the
count begins at `index`. -/
def checkPieces (index : Nat) :
    List (List String) → Except LineError (List (List String))
  | [] => .ok []
  | piece :: rest =>
    if piece = [] then .error (.emptyStage index)
    else (checkPieces (index + 1) rest).map (piece :: ·)

theorem segmentsFrom_eq (pipe : String) (index : Nat) (current words : List String) :
    segmentsFrom pipe index current words =
      checkPieces index ((words.splitOn pipe).modifyHead (current ++ ·)) := by
  induction words generalizing index current with
  | nil =>
    by_cases h : current = []
    · simp [segmentsFrom, checkPieces, h]
    · simp [segmentsFrom, checkPieces, h, Except.map]
  | cons word rest ih =>
    rw [List.splitOn_cons_eq_if_modifyHead]
    by_cases hw : word = pipe
    · have hid : (rest.splitOn pipe).modifyHead ([] ++ ·) = rest.splitOn pipe := by
        cases rest.splitOn pipe <;> rfl
      rw [segmentsFrom, if_pos hw, ih, hid]
      simp [checkPieces, hw]
    · rw [segmentsFrom, if_neg hw, if_neg (by simpa using hw), ih]
      cases rest.splitOn pipe with
      | nil => rfl
      | cons piece pieces => simp

theorem segments_eq_checkPieces {pipe : String} {words : List String} (h : words ≠ []) :
    segments pipe words = checkPieces 0 (words.splitOn pipe) := by
  rw [segments, if_neg (by simpa using h), segmentsFrom_eq]
  cases words.splitOn pipe <;> rfl

theorem checkPieces_of_forall_ne_nil {pieces : List (List String)}
    (h : ∀ piece ∈ pieces, piece ≠ []) (index : Nat) : checkPieces index pieces = .ok pieces := by
  induction pieces generalizing index with
  | nil => rfl
  | cons piece rest ih =>
    obtain ⟨hpiece, hrest⟩ := List.forall_mem_cons.mp h
    rw [checkPieces, if_neg hpiece, ih hrest]
    rfl

theorem eq_of_checkPieces {index : Nat} {pieces segs : List (List String)}
    (h : checkPieces index pieces = .ok segs) : segs = pieces ∧ ∀ piece ∈ pieces, piece ≠ [] := by
  induction pieces generalizing index segs with
  | nil =>
    rw [checkPieces, Except.ok.injEq] at h
    exact ⟨h.symm, by simp⟩
  | cons piece rest ih =>
    rw [checkPieces] at h
    split at h
    next => contradiction
    next hne =>
      cases hr : checkPieces (index + 1) rest with
      | error e => simp [hr, Except.map] at h
      | ok more =>
        obtain ⟨rfl, hall⟩ := ih hr
        obtain rfl : piece :: more = segs := by simpa [hr, Except.map] using h
        exact ⟨rfl, List.forall_mem_cons.mpr ⟨hne, hall⟩⟩

/-- The place of the first empty piece. -/
def IsFirstEmpty (pieces : List (List String)) (i : Nat) : Prop :=
  pieces[i]? = some [] ∧ ∀ j < i, pieces[j]? ≠ some []

theorem isFirstEmpty_nil_cons {rest : List (List String)} {i : Nat} :
    IsFirstEmpty ([] :: rest) i ↔ i = 0 := by
  constructor
  · rintro ⟨-, hbefore⟩
    cases i with
    | zero => rfl
    | succ i => exact absurd rfl (hbefore 0 i.succ_pos)
  · rintro rfl
    exact ⟨rfl, fun j hj => absurd hj (Nat.not_lt_zero j)⟩

theorem isFirstEmpty_cons {piece : List String} (h : piece ≠ []) {rest : List (List String)}
    {i : Nat} : IsFirstEmpty (piece :: rest) i ↔ ∃ k, IsFirstEmpty rest k ∧ i = k + 1 := by
  cases i with
  | zero => simp [IsFirstEmpty, h]
  | succ k =>
    simp only [IsFirstEmpty, List.getElem?_cons_succ, Nat.add_right_cancel_iff, exists_eq_right']
    refine and_congr_right fun _ => ⟨fun hbefore j hj => hbefore (j + 1) (by omega), ?_⟩
    intro hbefore j hj
    cases j with
    | zero => simpa using h
    | succ j => exact hbefore j (by omega)

theorem checkPieces_eq_error_iff {index : Nat} {pieces : List (List String)} {e : LineError} :
    checkPieces index pieces = .error e ↔
      ∃ i, IsFirstEmpty pieces i ∧ e = .emptyStage (index + i) := by
  induction pieces generalizing index with
  | nil => simp [checkPieces, IsFirstEmpty]
  | cons piece rest ih =>
    by_cases hpiece : piece = []
    · subst hpiece
      simp [checkPieces, isFirstEmpty_nil_cons, eq_comm]
    · have hmap : (checkPieces (index + 1) rest).map (piece :: ·) = .error e ↔
          checkPieces (index + 1) rest = .error e := by
        cases checkPieces (index + 1) rest <;> simp [Except.map]
      rw [checkPieces, if_neg hpiece, hmap, ih]
      simp only [isFirstEmpty_cons hpiece]
      constructor
      · rintro ⟨i, hi, rfl⟩
        exact ⟨i + 1, ⟨i, hi, rfl⟩, by rw [Nat.add_right_comm, Nat.add_assoc]⟩
      · rintro ⟨_, ⟨i, hi, rfl⟩, rfl⟩
        exact ⟨i, hi, by rw [Nat.add_right_comm, Nat.add_assoc]⟩

/-- Splitting at the pipe operators undoes joining with them. -/
theorem segments_intercalate {pipe : String} {segs : List (List String)}
    (h : ∀ seg ∈ segs, seg ≠ [] ∧ pipe ∉ seg) :
    segments pipe ([pipe].intercalate segs) = .ok segs := by
  cases segs with
  | nil => rfl
  | cons seg rest =>
    have hne : [pipe].intercalate (seg :: rest) ≠ [] := by
      cases rest <;> simp [(h seg List.mem_cons_self).1]
    rw [segments_eq_checkPieces hne,
      List.splitOn_intercalate pipe (fun l hl => (h l hl).2) (List.cons_ne_nil _ _),
      checkPieces_of_forall_ne_nil fun p hp => (h p hp).1]

/-! The pieces of a list of words. -/

/-- Pieces without a pipe operator in them that are the words again when one operator is put between
any two. -/
structure IsCut (pipe : String) (words : List String) (pieces : List (List String)) : Prop where
  ne_nil : pieces ≠ []
  notMem : ∀ piece ∈ pieces, pipe ∉ piece
  join_eq : [pipe].intercalate pieces = words

theorem isCut_splitOn (pipe : String) (words : List String) :
    IsCut pipe words (words.splitOn pipe) where
  ne_nil := List.splitOn_ne_nil pipe words
  notMem _ := Text.notMem_of_mem_splitOn
  join_eq := List.intercalate_splitOn pipe

namespace IsCut

variable {pipe : String} {words : List String} {pieces : List (List String)}

theorem eq_splitOn (h : IsCut pipe words pieces) : pieces = words.splitOn pipe := by
  rw [← h.join_eq, List.splitOn_intercalate pipe h.notMem h.ne_nil]

/-- There is one piece more than there are operators. -/
theorem length_eq (h : IsCut pipe words pieces) : pieces.length = words.count pipe + 1 := by
  obtain ⟨hne, hmem, rfl⟩ := h
  induction pieces with
  | nil => exact absurd rfl hne
  | cons piece rest ih =>
    obtain ⟨hpiece, hrest⟩ := List.forall_mem_cons.mp hmem
    cases rest with
    | nil => simp [List.count_eq_zero_of_not_mem hpiece]
    | cons next rest =>
      rw [List.length_cons, ih (List.cons_ne_nil _ _) hrest, List.intercalate_cons_cons,
        List.count_append, List.count_append, List.count_eq_zero_of_not_mem hpiece,
        List.count_singleton_self]
      omega

theorem segments_eq (h : IsCut pipe words pieces) (hw : words ≠ []) :
    segments pipe words = checkPieces 0 pieces := by
  rw [segments_eq_checkPieces hw, h.eq_splitOn]

end IsCut

/-- Words are cut into segments in the one way in which joining gives them back. -/
theorem segments_eq_ok_iff {pipe : String} {words : List String} {segs : List (List String)} :
    segments pipe words = .ok segs ↔
      words = [pipe].intercalate segs ∧ ∀ seg ∈ segs, seg ≠ [] ∧ pipe ∉ seg := by
  constructor
  · intro h
    by_cases hw : words = []
    · obtain rfl : [] = segs := by simpa [segments, hw] using h
      exact ⟨hw, by simp⟩
    · have hcut := isCut_splitOn pipe words
      rw [hcut.segments_eq hw] at h
      obtain ⟨rfl, hne⟩ := eq_of_checkPieces h
      exact ⟨hcut.join_eq.symm, fun seg hseg => ⟨hne seg hseg, hcut.notMem seg hseg⟩⟩
  · rintro ⟨rfl, hs⟩
    exact segments_intercalate hs

/-- Words have one cut at their pipe operators, with one piece more than there are operators. No
words have no segments. Other words have the pieces as segments when none of these is empty, and
otherwise fail by the number of the first empty piece. So segments can be joined and cut again, and
words can be cut and joined again. -/
theorem segments_cut (pipe : String) (words : List String) :
    (∃! pieces, IsCut pipe words pieces) ∧
    (words = [] → segments pipe words = .ok []) ∧
    (∀ pieces, IsCut pipe words pieces → pieces.length = words.count pipe + 1 ∧
      (words ≠ [] →
        (∀ segs, segments pipe words = .ok segs ↔
          segs = pieces ∧ ∀ piece ∈ pieces, piece ≠ []) ∧
        ∀ e, segments pipe words = .error e ↔
          ∃ i, IsFirstEmpty pieces i ∧ e = .emptyStage i)) ∧
    (∀ segs, (∀ seg ∈ segs, seg ≠ [] ∧ pipe ∉ seg) →
      segments pipe ([pipe].intercalate segs) = .ok segs) ∧
    ∀ segs, segments pipe words = .ok segs → [pipe].intercalate segs = words := by
  refine ⟨⟨_, isCut_splitOn pipe words, fun _ h => h.eq_splitOn⟩, ?_, ?_,
    fun _ => segments_intercalate, fun _ h => (segments_eq_ok_iff.mp h).1.symm⟩
  · rintro rfl
    rfl
  · intro pieces hcut
    refine ⟨hcut.length_eq, fun hw => ⟨fun segs => ?_, fun e => ?_⟩⟩
    · rw [hcut.segments_eq hw]
      refine ⟨eq_of_checkPieces, ?_⟩
      rintro ⟨rfl, hne⟩
      exact checkPieces_of_forall_ne_nil hne 0
    · rw [hcut.segments_eq hw, checkPieces_eq_error_iff]
      simp only [Nat.zero_add]

end TerminalShell.Command
