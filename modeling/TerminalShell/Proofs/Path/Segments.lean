import Mathlib.Data.List.Basic
import Mathlib.Data.List.DropRight
import TerminalShell.Path
import TerminalShell.Proofs.Text.Splitting

/-!
The segments of a path and the paths through some segments. Separators at the ends of a part make no
difference, so the segments of a joined path are those of its parts.
-/
namespace TerminalShell.PathStyle

variable (style : PathStyle)

/-- A text that is one segment. -/
structure IsSegment (text : String) : Prop where
  ne_empty : text ≠ ""
  separator_notMem : style.separator ∉ text.toList

variable {style} {text path : String} {names : List String}

theorem IsSegment.toList_ne_nil (h : style.IsSegment text) : text.toList ≠ [] :=
  mt String.toList_eq_nil_iff.mp h.ne_empty

theorem isSegment_of_mem_segments (h : text ∈ style.segments path) :
    style.IsSegment text := by
  obtain ⟨piece, hp, rfl⟩ := List.mem_map.mp h
  obtain ⟨hm, hne⟩ := List.mem_filter.mp hp
  refine ⟨by simpa using hne, fun hs => ?_⟩
  rw [String.toList_ofList] at hs
  simpa using Text.not_isSeparator_of_mem_pieces hm _ hs

theorem isAbsolute_iff :
    style.isAbsolute path = true ↔ path.toList.head? = some style.separator := by
  simp [isAbsolute]

/-- Whatever the separator, if it is not blank, just the absolute paths can be split. -/
theorem split_eq (h : Text.isBlank style.separator = false) (path : String) :
    style.split path =
      if style.isAbsolute path then .ok (style.segments path) else .error (.malformed path) := by
  by_cases ha : style.isAbsolute path = true
  · have hb : Text.isBlankText path = false := by
      rw [Text.isBlankText, List.all_eq_false]
      refine ⟨style.separator, List.mem_of_mem_head? (isAbsolute_iff.mp ha), ?_⟩
      simp [h]
    simp [split, ha, hb]
  · simp [split, ha]

variable (style)

/-- The segments of a path that is given by its characters. -/
def segmentsOf (path : List Char) : List String := style.segments (String.ofList path)

@[simp] theorem segmentsOf_toList (path : String) :
    style.segmentsOf path.toList = style.segments path :=
  congrArg style.segments String.ofList_toList

@[simp] theorem segmentsOf_nil : style.segmentsOf [] = [] := by
  simp [segmentsOf, segments, Text.pieces]

theorem segmentsOf_eq_splitOn (path : List Char) :
    style.segmentsOf path =
      ((path.splitOn style.separator).filter (· ≠ [])).map String.ofList := by
  have hempty : (fun piece : List Char => !piece.isEmpty) = fun piece => decide (piece ≠ []) := by
    funext piece
    cases piece <;> rfl
  rw [segmentsOf, segments, String.toList_ofList, Text.pieces_eq_splitOnP,
    List.splitOn_eq_splitOnP, hempty]

/-- A separator divides the segments of a path. -/
theorem segmentsOf_append_separator (first second : List Char) :
    style.segmentsOf (first ++ style.separator :: second) =
      style.segmentsOf first ++ style.segmentsOf second := by
  simp only [segmentsOf, segments, String.toList_ofList, Text.pieces_eq_splitOnP]
  rw [List.splitOnP_append_cons first second (by simp), List.filter_append, List.map_append]

@[simp] theorem segmentsOf_separator_cons (path : List Char) :
    style.segmentsOf (style.separator :: path) = style.segmentsOf path := by
  simpa using style.segmentsOf_append_separator [] path

theorem segments_append_separator (first second : String) :
    style.segments (first ++ style.separator.toString ++ second) =
      style.segments first ++ style.segments second := by
  rw [← segmentsOf_toList, ← segmentsOf_toList, ← segmentsOf_toList,
    ← segmentsOf_append_separator]
  simp [Char.toString]

variable {style}

theorem IsSegment.segments_eq (h : style.IsSegment text) : style.segments text = [text] := by
  have hp : Text.pieces (· == style.separator) text.toList = [text.toList] := by
    rw [Text.pieces_eq_splitOnP]
    apply List.splitOnP_eq_singleton
    intro c hc
    have hne : c ≠ style.separator := fun he => h.separator_notMem (he ▸ hc)
    simpa using hne
  simp [segments, hp, h.ne_empty]

variable (style)

theorem segmentsOf_dropWhile (path : List Char) :
    style.segmentsOf (path.dropWhile (· == style.separator)) = style.segmentsOf path := by
  induction path with
  | nil => rfl
  | cons c path ih =>
    by_cases hc : c = style.separator
    · subst hc
      rw [List.dropWhile_cons_of_pos (by simp), ih, segmentsOf_separator_cons]
    · rw [List.dropWhile_cons_of_neg (by simpa using hc)]

theorem trimEnd_eq_rdropWhile (path : List Char) :
    style.trimEnd path = path.rdropWhile (· == style.separator) := rfl

theorem segmentsOf_trimEnd (path : List Char) :
    style.segmentsOf (style.trimEnd path) = style.segmentsOf path := by
  rw [trimEnd_eq_rdropWhile]
  induction path using List.reverseRecOn with
  | nil => rfl
  | append_singleton path c ih =>
    by_cases hc : c = style.separator
    · subst hc
      rw [List.rdropWhile_concat_pos _ _ _ (by simp), ih, segmentsOf_append_separator,
        segmentsOf_nil, List.append_nil]
    · rw [List.rdropWhile_concat_neg _ _ _ (by simpa using hc)]

theorem segmentsOf_trim (path : List Char) :
    style.segmentsOf (style.trim path) = style.segmentsOf path := by
  rw [trim, segmentsOf_trimEnd, segmentsOf_dropWhile]

/-- What a part adds to a joined path. -/
def joint (part : String) : List Char :=
  match style.trim part.toList with
  | [] => []
  | text => style.separator :: text

theorem toList_join (parts : List String) :
    (style.join parts).toList =
      if parts.flatMap style.joint = [] then [style.separator] else parts.flatMap style.joint := by
  have h : style.join parts = if (parts.flatMap style.joint).isEmpty then style.separator.toString
    else String.ofList (parts.flatMap style.joint) := rfl
  rw [h]
  cases parts.flatMap style.joint <;> simp [Char.toString]

theorem segmentsOf_append_joints (path : List Char) (parts : List String) :
    style.segmentsOf (path ++ parts.flatMap style.joint) =
      style.segmentsOf path ++ parts.flatMap style.segments := by
  induction parts generalizing path with
  | nil => simp
  | cons part parts ih =>
    have hpart : style.segmentsOf (style.trim part.toList) = style.segments part := by
      rw [segmentsOf_trim, segmentsOf_toList]
    rw [List.flatMap_cons, List.flatMap_cons, ← hpart]
    cases ht : style.trim part.toList with
    | nil => simpa [joint, ht] using ih path
    | cons c text =>
      rw [joint, ht, List.cons_append, segmentsOf_append_separator, ih]

/-- Joining keeps the segments of the parts, in their order. -/
theorem segments_join (parts : List String) :
    style.segments (style.join parts) = parts.flatMap style.segments := by
  rw [← segmentsOf_toList, toList_join]
  have h := style.segmentsOf_append_joints [] parts
  rw [List.nil_append, segmentsOf_nil, List.nil_append] at h
  split
  next hn =>
    rw [← h, hn]
    exact style.segmentsOf_separator_cons []
  next => exact h

variable {style}

theorem segments_join_of_isSegment (h : ∀ name ∈ names, style.IsSegment name) :
    style.segments (style.join names) = names := by
  rw [segments_join, List.flatMap_congr fun name hm => (h name hm).segments_eq]
  simp

theorem IsSegment.joint_eq (h : style.IsSegment text) :
    style.joint text = style.separator :: text.toList := by
  have hc {c : Char} (hm : c ∈ text.toList) : ¬ (c == style.separator) = true := by
    rw [beq_iff_eq]
    rintro rfl
    exact h.separator_notMem hm
  have ht : style.trim text.toList = text.toList := by
    rw [trim, List.dropWhile_eq_self_iff.mpr fun _ => hc (List.getElem_mem _),
      trimEnd_eq_rdropWhile, List.rdropWhile_eq_self_iff.mpr fun _ => hc (List.getLast_mem _)]
  rw [joint, ht]
  cases hl : text.toList with
  | nil => exact absurd hl h.toList_ne_nil
  | cons c l => rfl

/-- The text through some segments, when there are any: a separator before each. -/
theorem toList_join_of_isSegment (h : ∀ name ∈ names, style.IsSegment name) (hne : names ≠ []) :
    (style.join names).toList = names.flatMap fun name => style.separator :: name.toList := by
  rw [toList_join, List.flatMap_congr fun name hm => (h name hm).joint_eq, if_neg]
  obtain ⟨name, rest, rfl⟩ := List.exists_cons_of_ne_nil hne
  simp

end TerminalShell.PathStyle
