import Mathlib.Logic.Function.Iterate
import TerminalShell.Proofs.Path.Joining

/-!
Paths taken apart at their last segment. Main statement: the name of an absolute path is its last
segment, its parent is an absolute path with the segments before that one, and both joined are the
path again when it is a joined one.
-/
namespace TerminalShell.PathStyle

variable {style : PathStyle} {path name : String} {names : List String} {before : List Char}

/-- What a path without separators at its end can be: nothing, a segment, or a segment behind a
separator. -/
inductive Ending (style : PathStyle) : List Char → Prop where
  | nothing : style.Ending []
  | name {name : String} (h : style.IsSegment name) : style.Ending name.toList
  | behind (before : List Char) {name : String} (h : style.IsSegment name) :
    style.Ending (before ++ style.separator :: name.toList)

theorem ending_of_getLast?_ne {text : List Char} (h : text.getLast? ≠ some style.separator) :
    style.Ending text := by
  by_cases hm : style.separator ∈ text
  · obtain ⟨back, front, hcut, hback⟩ := List.eq_append_cons_of_mem (List.mem_reverse.mpr hm)
    have htext : text = front.reverse ++ style.separator :: back.reverse := by
      rw [← List.reverse_reverse text, hcut]
      simp
    have hne : back ≠ [] := by
      rintro rfl
      simp [htext] at h
    have hname : style.IsSegment (String.ofList back.reverse) :=
      ⟨by simpa using hne, by simpa using hback⟩
    simpa [htext] using Ending.behind front.reverse hname
  · by_cases hne : text = []
    · exact hne ▸ .nothing
    · have hname : style.IsSegment (String.ofList text) := ⟨by simpa using hne, by simpa using hm⟩
      simpa using Ending.name hname

/-! The last segment, read backwards. -/

theorem IsSegment.bne_of_mem_reverse (h : style.IsSegment name) :
    ∀ c ∈ name.toList.reverse, (c != style.separator) = true := by
  intro c hc
  rw [bne_iff_ne]
  rintro rfl
  exact h.separator_notMem (List.mem_reverse.mp hc)

theorem IsSegment.takeWhile_reverse (h : style.IsSegment name) (before : List Char) :
    (before ++ style.separator :: name.toList).reverse.takeWhile (· != style.separator) =
      name.toList.reverse := by
  rw [List.reverse_append, List.reverse_cons, List.append_assoc,
    List.takeWhile_append_of_pos h.bne_of_mem_reverse]
  simp

theorem IsSegment.dropWhile_reverse (h : style.IsSegment name) (before : List Char) :
    (before ++ style.separator :: name.toList).reverse.dropWhile (· != style.separator) =
      style.separator :: before.reverse := by
  rw [List.reverse_append, List.reverse_cons, List.append_assoc,
    List.dropWhile_append_of_pos h.bne_of_mem_reverse]
  simp

theorem fileName_eq (path : String) :
    style.fileName path =
      let name := ((style.trimEnd path.toList).reverse.takeWhile (· != style.separator)).reverse
      if name = [] then none else some (String.ofList name) := by
  unfold fileName
  dsimp only
  split
  next h => rw [if_pos h]
  next h => rw [if_neg h]

theorem parent_of_behind (h : style.IsSegment name)
    (hcut : style.trimEnd path.toList = before ++ style.separator :: name.toList) :
    style.parent path =
      if before = [] then style.separator.toString else String.ofList before := by
  rw [parent, hcut, h.dropWhile_reverse]
  rcases List.eq_nil_or_concat before with rfl | ⟨front, c, rfl⟩
  · rfl
  · rw [List.concat_eq_append, List.reverse_append]
    simp

theorem parent_of_notMem (h : style.separator ∉ style.trimEnd path.toList) :
    style.parent path = if style.isAbsolute path then style.separator.toString else "." := by
  have hnil : (style.trimEnd path.toList).reverse.dropWhile (· != style.separator) = [] := by
    rw [List.dropWhile_eq_nil_iff]
    intro c hc
    rw [bne_iff_ne]
    rintro rfl
    exact h (List.mem_reverse.mp hc)
  rw [parent, hnil]

theorem segments_root (style : PathStyle) : style.segments style.separator.toString = [] := by
  rw [← segmentsOf_toList]
  simp [Char.toString]

theorem isAbsolute_root (style : PathStyle) :
    style.isAbsolute style.separator.toString = true := by
  simp [isAbsolute, Char.toString]

/-- The way from a path to its parent. With no separator before a last segment it leads to the root
or, from a path that is not absolute, to a dot; else to what is before the last segment and the
separator in front of it. -/
inductive Descent (style : PathStyle) (path : String) : Prop where
  | alone (hparent : style.parent path =
        if style.isAbsolute path then style.separator.toString else ".")
      (hone : (style.segments path).length ≤ 1)
      (hnone : style.isAbsolute path = true → style.segments path = [])
  | behind (before : List Char) (name : String)
      (hparent : style.parent path =
        if before = [] then style.separator.toString else String.ofList before)
      (hsegments : style.segments path = style.segmentsOf before ++ [name])
      (hhead : path.toList.head? = (before ++ [style.separator]).head?)

theorem descent (style : PathStyle) (path : String) : style.Descent path := by
  have hsegments : style.segments path = style.segmentsOf (style.trimEnd path.toList) := by
    rw [segmentsOf_trimEnd, segmentsOf_toList]
  obtain ⟨rest, hrest⟩ : style.trimEnd path.toList <+: path.toList := List.rdropWhile_prefix _ _
  have hend := ending_of_getLast?_ne (style.getLast?_trimEnd_ne path.toList)
  generalize hcut : style.trimEnd path.toList = text at hsegments hrest hend
  cases hend with
  | nothing =>
    have hnil : style.segments path = [] := by rw [hsegments, segmentsOf_nil]
    exact .alone (parent_of_notMem (by simp [hcut])) (by simp [hnil]) fun _ => hnil
  | name h =>
    refine .alone (parent_of_notMem (hcut ▸ h.separator_notMem)) ?_ fun ha => ?_
    · rw [hsegments, segmentsOf_toList, h.segments_eq, List.length_singleton]
    · rw [isAbsolute_iff, ← hrest, List.head?_append_of_ne_nil _ h.toList_ne_nil] at ha
      exact absurd (List.mem_of_mem_head? ha) h.separator_notMem
  | @behind before name h =>
    refine .behind before name (parent_of_behind h hcut) ?_ ?_
    · rw [hsegments, segmentsOf_append_separator, segmentsOf_toList, h.segments_eq]
    · rw [← hrest]
      cases before <;> rfl

/-- The name of a path is its last segment. -/
theorem fileName_eq_getLast? (style : PathStyle) (path : String) :
    style.fileName path = (style.segments path).getLast? := by
  rw [fileName_eq, ← segmentsOf_toList, ← segmentsOf_trimEnd]
  have hend := ending_of_getLast?_ne (style.getLast?_trimEnd_ne path.toList)
  generalize style.trimEnd path.toList = text at hend
  cases hend with
  | nothing => simp
  | name h =>
    rw [List.takeWhile_eq_self_iff.mpr h.bne_of_mem_reverse, segmentsOf_toList, h.segments_eq]
    simp [h.ne_empty]
  | behind before h =>
    rw [h.takeWhile_reverse, segmentsOf_append_separator, segmentsOf_toList, h.segments_eq]
    simp [h.ne_empty]

/-- The parent of an absolute path is one with all its segments but the last. -/
theorem parent_of_isAbsolute (ha : style.isAbsolute path = true) :
    style.isAbsolute (style.parent path) = true ∧
      style.segments (style.parent path) = (style.segments path).dropLast := by
  cases style.descent path with
  | alone hparent hone hnone =>
    rw [hparent, if_pos ha, segments_root, hnone ha]
    exact ⟨style.isAbsolute_root, rfl⟩
  | behind before name hparent hsegments hhead =>
    rw [hparent, hsegments, List.dropLast_concat]
    split_ifs with hb
    · rw [segments_root, hb, segmentsOf_nil]
      exact ⟨style.isAbsolute_root, rfl⟩
    · rw [isAbsolute_iff, hhead, List.head?_append_of_ne_nil _ hb] at ha
      exact ⟨isAbsolute_iff.mpr (by rwa [String.toList_ofList]), rfl⟩

/-- Parents of parents lose the segments one by one. -/
theorem iterate_parent (ha : style.isAbsolute path = true) (k : ℕ) :
    style.isAbsolute (style.parent^[k] path) = true ∧
      style.segments (style.parent^[k] path) =
        (style.segments path).take ((style.segments path).length - k) := by
  induction k with
  | zero => exact ⟨ha, by simp⟩
  | succ k ih =>
    obtain ⟨hk, hs⟩ := ih
    obtain ⟨hparent, hlast⟩ := parent_of_isAbsolute hk
    rw [Function.iterate_succ_apply']
    refine ⟨hparent, ?_⟩
    have hlength (n : ℕ) : min (min (n - k) n - 1) (n - k) = n - (k + 1) := by omega
    rw [hlast, hs, List.dropLast_eq_take, List.take_take, List.length_take, hlength]

/-- A path that does not begin with the separator has such a parent, except when it has no more than
one segment and the dot for its parent is itself the separator. -/
theorem isAbsolute_parent_iff (ha : style.isAbsolute path = false) :
    style.isAbsolute (style.parent path) = true ↔
      style.separator = '.' ∧ (style.segments path).length ≤ 1 := by
  have hdot : style.isAbsolute "." = true ↔ style.separator = '.' := by
    rw [isAbsolute_iff, show ".".toList.head? = some '.' from rfl, Option.some_inj, eq_comm]
  have hrel : path.toList.head? ≠ some style.separator := by
    rw [Ne, ← isAbsolute_iff, ha]
    exact Bool.false_ne_true
  cases style.descent path with
  | alone hparent hone hnone =>
    rw [hparent, if_neg (by simp [ha]), hdot]
    exact (and_iff_left hone).symm
  | behind before name hparent hsegments hhead =>
    have hb : before ≠ [] := by
      rintro rfl
      exact hrel hhead
    rw [List.head?_append_of_ne_nil _ hb] at hhead
    have hsome : style.segmentsOf before ≠ [] := by
      intro hnil
      obtain ⟨c, hc⟩ := Option.ne_none_iff_exists'.mp (mt List.head?_eq_none_iff.mp hb)
      have := style.segmentsOf_eq_nil_iff.mp hnil c (List.mem_of_mem_head? hc)
      exact hrel (by rw [hhead, hc, this])
    have hlength := List.length_pos_iff.mpr hsome
    rw [hparent, if_neg hb, isAbsolute_iff, String.toList_ofList, ← hhead, hsegments,
      List.length_append, List.length_singleton]
    exact ⟨fun he => absurd he hrel, fun he => by omega⟩

/-- The parent of a path through segments is the path through all of them but the last. -/
theorem parent_join (hs : ∀ segment ∈ names, style.IsSegment segment) (h : style.IsSegment name) :
    style.parent (style.join (names ++ [name])) = style.join names := by
  have hall : ∀ segment ∈ names ++ [name], style.IsSegment segment := by
    simpa [or_imp, forall_and] using ⟨hs, h⟩
  have hcut : style.trimEnd (style.join (names ++ [name])).toList =
      (names.flatMap fun segment => style.separator :: segment.toList) ++
        style.separator :: name.toList := by
    rw [toList_join_of_isSegment hall (by simp), trimEnd_of_getLast?_ne (getLast?_join hall),
      List.flatMap_append, List.flatMap_singleton]
  rw [parent_of_behind h hcut]
  apply String.toList_inj.mp
  rw [toList_join, List.flatMap_congr fun segment hm => (hs segment hm).joint_eq]
  split_ifs with hnil
  · simp [Char.toString]
  · rw [String.toList_ofList]

/-- Whatever the separator, if it is not blank: an absolute path has its last segment for its name,
if it has one, and for its parent an absolute path with the segments before that one, so the parent
of the parent and so on comes to a path without segments after as many steps as there are segments.
A path through one or more segments is its parent joined with its name. Where a path does not begin
with the separator its parent does not either, except that one segment or none has a dot for its
parent, and the separator can be a dot. -/
theorem split_parent_fileName (h : Text.isBlank style.separator = false) :
    (∀ path, style.isAbsolute path = true → ∃ names, style.split path = .ok names ∧
      style.fileName path = names.getLast? ∧
      style.split (style.parent path) = .ok names.dropLast ∧
      style.split (style.parent^[names.length] path) = .ok []) ∧
    (∀ names : List String, names ≠ [] → (∀ name ∈ names, style.IsSegment name) →
      ∃ name, style.fileName (style.join names) = some name ∧
        style.join [style.parent (style.join names), name] = style.join names) ∧
    ∀ path, style.isAbsolute path = false →
      (style.isAbsolute (style.parent path) = true ↔
        style.separator = '.' ∧ (style.segments path).length ≤ 1) := by
  have hsplit {path : String} (ha : style.isAbsolute path = true) :
      style.split path = .ok (style.segments path) := by rw [split_eq h, if_pos ha]
  refine ⟨fun path ha => ?_, fun names hne hs => ?_, fun path => isAbsolute_parent_iff⟩
  · obtain ⟨hparent, hsegments⟩ := parent_of_isAbsolute ha
    obtain ⟨hlast, hnone⟩ := iterate_parent ha (style.segments path).length
    refine ⟨style.segments path, hsplit ha, style.fileName_eq_getLast? path, ?_, ?_⟩
    · rw [hsplit hparent, hsegments]
    · rw [hsplit hlast, hnone, Nat.sub_self, List.take_zero]
  · obtain ⟨front, name, rfl⟩ := (List.eq_nil_or_concat names).resolve_left hne
    rw [List.concat_eq_append] at hs ⊢
    obtain ⟨hfront, hname⟩ := List.forall_mem_append.mp hs
    refine ⟨name, ?_, ?_⟩
    · rw [fileName_eq_getLast?, segments_join_of_isSegment hs, List.getLast?_concat]
    · rw [parent_join hfront (hname name (List.mem_singleton_self _))]
      exact style.join_join_append front [name]

/-- Separators at both ends and in a row, and a dot for the separator. -/
theorem split_parent_fileName_dot :
    let style : PathStyle := ⟨'.'⟩
    Text.isBlank style.separator = false ∧ style.isAbsolute "..a...b." = true ∧
      style.split "..a...b." = .ok ["a", "b"] ∧ style.fileName "..a...b." = some "b" ∧
      style.split (style.parent "..a...b.") = .ok ["a"] ∧
      style.split (style.parent^[2] "..a...b.") = .ok [] ∧
      style.join [style.parent (style.join ["a", "b"]), "b"] = ".a.b" ∧
      style.isAbsolute "a." = false ∧ style.isAbsolute (style.parent "a.") = true := by
  intro style
  have h : Text.isBlank style.separator = false := by decide
  have hab : ∀ name ∈ ["a", "b"], style.IsSegment name := by
    simpa using ⟨⟨by decide, by decide⟩, ⟨by decide, by decide⟩⟩
  obtain ⟨habsolute, hjoined, hrelative⟩ := split_parent_fileName h
  obtain ⟨names, hnames, hlast, hparent, hnone⟩ := habsolute "..a...b." (by decide)
  obtain rfl : names = ["a", "b"] := Except.ok.inj (hnames.symm.trans (by decide))
  obtain ⟨name, hname, hjoin⟩ := hjoined ["a", "b"] (by simp) hab
  obtain rfl : name = "b" := Option.some.inj (hname.symm.trans (by decide))
  exact ⟨h, by decide, hnames, hlast, hparent, hnone, hjoin.trans (by decide), by decide,
    (hrelative "a." (by decide)).mpr ⟨rfl, by decide⟩⟩

end TerminalShell.PathStyle
