import TerminalShell.Proofs.Path.Segments

/-!
Paths joined and split, one after the other. Main statement: a joined path has the segments of its
parts, a path joined before is joined again as its parts would be, and the segments of a path join
to the path without its surplus separators.
-/
namespace TerminalShell.PathStyle

variable {style : PathStyle} {text other : List Char} {names : List String}

theorem trimEnd_of_getLast?_ne (h : text.getLast? ≠ some style.separator) :
    style.trimEnd text = text := by
  rw [trimEnd_eq_rdropWhile, List.rdropWhile_eq_self_iff]
  intro hne he
  rw [List.getLast?_eq_some_getLast hne, beq_iff_eq.mp he] at h
  exact h rfl

theorem trimEnd_append (h : text.getLast? ≠ some style.separator) (rest : List Char) :
    style.trimEnd (text ++ rest) = text ++ style.trimEnd rest := by
  induction rest using List.reverseRecOn with
  | nil =>
    rw [List.append_nil, trimEnd_of_getLast?_ne h]
    exact (List.append_nil text).symm
  | append_singleton rest c ih =>
    simp only [trimEnd_eq_rdropWhile] at ih ⊢
    rw [← List.append_assoc]
    by_cases hc : c = style.separator
    · rw [List.rdropWhile_concat_pos _ _ _ (by simpa using hc),
        List.rdropWhile_concat_pos _ _ _ (by simpa using hc), ih]
    · rw [List.rdropWhile_concat_neg _ _ _ (by simpa using hc),
        List.rdropWhile_concat_neg _ _ _ (by simpa using hc), List.append_assoc]

theorem getLast?_trimEnd_ne (style : PathStyle) (path : List Char) :
    (style.trimEnd path).getLast? ≠ some style.separator := by
  intro h
  obtain ⟨hne, hlast⟩ := List.mem_getLast?_eq_getLast h
  exact List.rdropWhile_last_not _ path hne (beq_iff_eq.mpr hlast.symm)

/-! Parts without the separators at their ends. -/

/-- A text with no separators to lose at its ends. -/
structure IsTrimmed (style : PathStyle) (text : List Char) : Prop where
  ne_nil : text ≠ []
  head_ne : text.head? ≠ some style.separator
  getLast_ne : text.getLast? ≠ some style.separator

theorem IsTrimmed.append (h : style.IsTrimmed text) (h' : style.IsTrimmed other) :
    style.IsTrimmed (text ++ style.separator :: other) where
  ne_nil := List.append_ne_nil_of_left_ne_nil h.ne_nil _
  head_ne := by
    rw [List.head?_append_of_ne_nil _ h.ne_nil]
    exact h.head_ne
  getLast_ne := by
    rw [List.getLast?_append_of_ne_nil _ (List.cons_ne_nil _ _),
      List.getLast?_cons_of_ne_nil h'.ne_nil]
    exact h'.getLast_ne

theorem IsTrimmed.trim_eq (h : style.IsTrimmed text) : style.trim text = text := by
  obtain ⟨c, rest, rfl⟩ := List.exists_cons_of_ne_nil h.ne_nil
  have hc : c ≠ style.separator := fun he => h.head_ne (congrArg some he)
  rw [trim, List.dropWhile_cons_of_neg (by simpa using hc), trimEnd_of_getLast?_ne h.getLast_ne]

theorem isTrimmed_trim {path : List Char} (h : style.trim path ≠ []) :
    style.IsTrimmed (style.trim path) where
  ne_nil := h
  head_ne := by
    obtain ⟨rest, hrest⟩ : style.trim path <+: path.dropWhile (· == style.separator) :=
      List.rdropWhile_prefix _ _
    intro hs
    have hfirst := List.head?_dropWhile_not (· == style.separator) path
    rw [← hrest, List.head?_append_of_ne_nil _ h, hs] at hfirst
    simp at hfirst
  getLast_ne := style.getLast?_trimEnd_ne _

variable (style)

theorem joint_cases (part : String) :
    style.joint part = [] ∨
      ∃ text, style.IsTrimmed text ∧ style.joint part = style.separator :: text := by
  cases ht : style.trim part.toList with
  | nil => exact .inl (by rw [joint, ht])
  | cons c text =>
    refine .inr ⟨c :: text, ?_, by rw [joint, ht]⟩
    rw [← ht]
    exact isTrimmed_trim (by simp [ht])

/-- All parts together are joined like one part. -/
theorem joints_cases (parts : List String) :
    parts.flatMap style.joint = [] ∨
      ∃ text, style.IsTrimmed text ∧ parts.flatMap style.joint = style.separator :: text := by
  induction parts with
  | nil => exact .inl rfl
  | cons part parts ih =>
    rw [List.flatMap_cons]
    rcases style.joint_cases part with hp | ⟨text, htext, hp⟩ <;> rw [hp]
    · simpa using ih
    rcases ih with hr | ⟨other, hother, hr⟩ <;> rw [hr]
    · exact .inr ⟨text, htext, List.append_nil _⟩
    · exact .inr ⟨_, htext.append hother, rfl⟩

theorem isAbsolute_join (parts : List String) : style.isAbsolute (style.join parts) = true := by
  rw [isAbsolute_iff, toList_join]
  rcases style.joints_cases parts with h | ⟨text, -, h⟩ <;> simp [h]

theorem joint_join (parts : List String) :
    style.joint (style.join parts) = parts.flatMap style.joint := by
  have hcons (text : List Char) : style.trim (style.separator :: text) = style.trim text := by
    rw [trim, List.dropWhile_cons_of_pos (by simp), ← trim]
  rw [joint, toList_join]
  rcases style.joints_cases parts with h | ⟨text, htext, h⟩
  · rw [if_pos h, hcons, h]
    rfl
  · rw [if_neg (by simp [h]), h, hcons, htext.trim_eq]
    obtain ⟨c, rest, rfl⟩ := List.exists_cons_of_ne_nil htext.ne_nil
    rfl

/-- Parts that have been joined before are joined as they are. -/
theorem join_join_append (first second : List String) :
    style.join ([style.join first] ++ second) = style.join (first ++ second) := by
  apply String.toList_inj.mp
  rw [toList_join, toList_join, List.flatMap_append, List.flatMap_append, List.flatMap_singleton,
    joint_join]

variable {style}

theorem getLast?_join (h : ∀ name ∈ names, style.IsSegment name) :
    (names.flatMap fun name => style.separator :: name.toList).getLast? ≠ some style.separator := by
  rcases List.eq_nil_or_concat names with rfl | ⟨front, name, rfl⟩
  · simp
  · have hname : style.IsSegment name := h name (by simp)
    rw [List.concat_eq_append, List.flatMap_append, List.flatMap_singleton,
      List.getLast?_append_of_ne_nil _ (List.cons_ne_nil _ _),
      List.getLast?_cons_of_ne_nil hname.toList_ne_nil]
    exact fun he => hname.separator_notMem (List.mem_of_getLast? he)

variable (style)

/-! Paths without surplus separators. -/

/-- One separator wherever there are several in a row. -/
def collapse : List Char → List Char
  | [] => []
  | c :: rest =>
    if c = style.separator ∧ rest.head? = some c then collapse rest else c :: collapse rest

/-- A path with one separator for several in a row, and none at its end unless there is nothing
else. -/
def tidy (path : String) : String :=
  if path.toList.all (· == style.separator) then style.separator.toString
  else String.ofList ((style.collapse path.toList).rdropWhile (· == style.separator))

theorem collapse_append {word : List Char} (h : style.separator ∉ word) (rest : List Char) :
    style.collapse (word ++ rest) = word ++ style.collapse rest := by
  induction word with
  | nil => rfl
  | cons c word ih =>
    rw [List.mem_cons, not_or] at h
    rw [List.cons_append, collapse, if_neg fun hc => h.1 hc.1.symm, ih h.2, List.cons_append]

/-- Pieces with a separator before each, the empty ones among them left out. -/
theorem trimEnd_collapse_flatMap {pieces : List (List Char)}
    (h : ∀ piece ∈ pieces, style.separator ∉ piece) :
    style.trimEnd (style.collapse (pieces.flatMap (style.separator :: ·))) =
      (pieces.filter (· ≠ [])).flatMap (style.separator :: ·) := by
  induction pieces with
  | nil => rfl
  | cons piece pieces ih =>
    obtain ⟨hpiece, hrest⟩ := List.forall_mem_cons.mp h
    rw [List.flatMap_cons, List.cons_append]
    by_cases hp : piece = []
    · rw [List.filter_cons_of_neg (by simpa using hp), ← ih hrest, hp, List.nil_append]
      cases pieces with
      | nil => simp [collapse, trimEnd]
      | cons next pieces => rw [collapse, if_pos ⟨rfl, rfl⟩]
    · have hfirst : ¬ (style.separator = style.separator ∧
          (piece ++ pieces.flatMap (style.separator :: ·)).head? = some style.separator) := by
        rw [List.head?_append_of_ne_nil _ hp]
        exact fun hs => hpiece (List.mem_of_mem_head? hs.2)
      have hlast : (style.separator :: piece).getLast? ≠ some style.separator := by
        rw [List.getLast?_cons_of_ne_nil hp]
        exact fun hs => hpiece (List.mem_of_getLast? hs)
      rw [List.filter_cons_of_pos (by simpa using hp), List.flatMap_cons, ← ih hrest, collapse,
        if_neg hfirst, collapse_append style hpiece, ← List.cons_append, trimEnd_append hlast]

/-- Nothing is left of a path exactly when it has separators only. -/
theorem segmentsOf_eq_nil_iff {path : List Char} :
    style.segmentsOf path = [] ↔ ∀ c ∈ path, c = style.separator := by
  constructor
  · intro h
    have hpieces : ∀ piece ∈ path.splitOn style.separator, piece = [] := by
      simpa [segmentsOf_eq_splitOn] using h
    have hpath : [style.separator].intercalate (path.splitOn style.separator) = path :=
      List.intercalate_splitOn _
    rw [← hpath]
    refine Text.forall_mem_intercalate (p := (· = style.separator)) (by simp) ?_
    intro piece hm c hc
    rw [hpieces piece hm] at hc
    contradiction
  · intro h
    induction path with
    | nil => exact segmentsOf_nil style
    | cons c rest ih =>
      obtain ⟨rfl, hrest⟩ := List.forall_mem_cons.mp h
      rw [segmentsOf_separator_cons, ih hrest]

/-- The segments of an absolute path join to the path without its surplus separators. -/
theorem join_segments {path : String} (h : style.isAbsolute path = true) :
    style.join (style.segments path) = style.tidy path := by
  obtain ⟨rest, hrest⟩ := List.head?_eq_some_iff.mp (isAbsolute_iff.mp h)
  have hnames : style.segments path =
      ((rest.splitOn style.separator).filter (· ≠ [])).map String.ofList := by
    rw [← segmentsOf_toList, hrest, segmentsOf_separator_cons, segmentsOf_eq_splitOn]
  have hpath : path.toList =
      (rest.splitOn style.separator).flatMap (style.separator :: ·) := by
    rw [← Text.cons_intercalate _ (List.splitOn_ne_nil _ _), List.intercalate_splitOn, hrest]
  have hnil : style.segments path = [] ↔ path.toList.all (· == style.separator) = true := by
    rw [← segmentsOf_toList, segmentsOf_eq_nil_iff]
    simp
  rw [tidy]
  split_ifs with hall
  · rw [hnil.mpr hall]
    rfl
  · have hpieces : ∀ piece ∈ rest.splitOn style.separator, style.separator ∉ piece := fun _ =>
      Text.notMem_of_mem_splitOn
    apply String.toList_inj.mp
    rw [toList_join_of_isSegment (fun _ => isSegment_of_mem_segments) (mt hnil.mp hall),
      String.toList_ofList, ← trimEnd_eq_rdropWhile, hpath, style.trimEnd_collapse_flatMap hpieces,
      hnames, List.flatMap_map]
    simp only [String.toList_ofList]

variable {style}

/-- Whatever the separator, if it is not blank: the parts of a joined path, split, are the non-empty
pieces between the separators of each part; parts that have been joined before are joined as they
are; and a path that can be split is, joined again, the path with one separator for several in a row
and none at its end unless there is nothing else. -/
theorem join_split_exact (h : Text.isBlank style.separator = false) :
    (∀ parts : List String, style.split (style.join parts) = .ok (parts.flatMap fun part =>
      ((part.toList.splitOn style.separator).filter (· ≠ [])).map String.ofList)) ∧
    (∀ first second : List String,
      style.join ([style.join first] ++ second) = style.join (first ++ second)) ∧
    ∀ path names, style.split path = .ok names → style.join names = style.tidy path := by
  refine ⟨fun parts => ?_, style.join_join_append, fun path names hs => ?_⟩
  · rw [split_eq h, if_pos (style.isAbsolute_join parts), segments_join]
    refine congrArg Except.ok (List.flatMap_congr fun part _ => ?_)
    rw [← segmentsOf_toList, segmentsOf_eq_splitOn]
  · rw [split_eq h] at hs
    split_ifs at hs with ha
    rw [← Except.ok.inj hs, style.join_segments ha]

/-- Parts of which nothing is left, separators in a row inside a part, and a separator of three
bytes. -/
theorem join_split_exact_surplus :
    let style : PathStyle := ⟨'→'⟩
    Text.isBlank style.separator = false ∧
      style.split (style.join ["a→→b→", "→", "", "→ "]) = .ok ["a", "b", " "] ∧
      style.join ([style.join ["→", "a→→b→"]] ++ ["c"]) = "→a→→b→c" ∧
      style.split "→→a→→b→" = .ok ["a", "b"] ∧ style.join ["a", "b"] = style.tidy "→→a→→b→" ∧
      style.tidy "→→a→→b→" = "→a→b" := by
  intro style
  have h : Text.isBlank style.separator = false := by decide
  have hsurplus : style.split "→→a→→b→" = .ok ["a", "b"] := by decide
  obtain ⟨hsplit, hjoin, htidy⟩ := join_split_exact h
  refine ⟨h, ?_, ?_, hsurplus, htidy _ _ hsurplus, by decide⟩
  · rw [hsplit]
    decide
  · rw [hjoin]
    decide

end TerminalShell.PathStyle
