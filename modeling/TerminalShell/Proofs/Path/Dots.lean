import TerminalShell.Proofs.Path.LastSegment
import TerminalShell.Proofs.Path.Resolution
import TerminalShell.Proofs.Settings.Validity

/-!
One step from a canonical path: a dot stays, two dots lead to the parent, and a name leads to a
child of that name. Main statement: under a separator that can be set all steps do so, unless it is
itself the dot.
-/
namespace TerminalShell.PathStyle

variable {style : PathStyle} {path name : String} {names : List String}

/-- What one step from a path does. -/
structure Navigable (style : PathStyle) (path : String) : Prop where
  dot : style.resolve path "." = .ok path
  dots : style.resolve path ".." = .ok (style.parent path)
  child : ∀ name, style.IsSegment name → IsName name →
    ∃ child, style.resolve path name = .ok child ∧ style.parent child = path ∧
      style.fileName child = some name ∧ style.resolve child ".." = .ok path

theorem normalize_concat (h : ∀ name ∈ names, IsName name) (segment : String) :
    normalize (names ++ [segment]) = (enter names.reverse segment).reverse := by
  rw [normalize, List.foldl_append, walk_of_isName h, List.append_nil]
  rfl

theorem IsSegment.isAbsolute_eq_false (h : style.IsSegment name) :
    style.isAbsolute name = false := by
  rw [← Bool.not_eq_true, isAbsolute_iff]
  exact fun he => h.separator_notMem (List.mem_of_mem_head? he)

/-- From the path through some names one more segment leads where a walk along them does. -/
theorem resolve_join (h : Text.isBlank style.separator = false)
    (hn : ∀ name ∈ names, style.IsSegment name ∧ IsName name) {segment : String}
    (hs : style.IsSegment segment) :
    style.resolve (style.join names) segment =
      .ok (style.join (enter names.reverse segment).reverse) := by
  rw [resolve_eq h, style.isAbsolute_join, Bool.or_true, if_pos rfl, place, base,
    hs.isAbsolute_eq_false, segments_join_of_isSegment fun name hm => (hn name hm).1,
    hs.segments_eq]
  exact congrArg (Except.ok ∘ style.join) (normalize_concat (fun name hm => (hn name hm).2) segment)

theorem isSegment_dot (h : style.separator ≠ '.') : style.IsSegment "." :=
  ⟨by decide, by simpa using h⟩

theorem isSegment_dots (h : style.separator ≠ '.') : style.IsSegment ".." :=
  ⟨by decide, by simpa using h⟩

theorem parent_root (style : PathStyle) :
    style.parent style.separator.toString = style.separator.toString := by
  have htrim : style.trimEnd style.separator.toString.toList = [] := by
    simp [trimEnd, Char.toString]
  rw [parent_of_notMem (htrim ▸ List.not_mem_nil), if_pos style.isAbsolute_root]

theorem parent_join_dropLast (h : ∀ name ∈ names, style.IsSegment name) :
    style.parent (style.join names) = style.join names.dropLast := by
  rcases List.eq_nil_or_concat names with rfl | ⟨front, name, rfl⟩
  · exact style.parent_root
  · rw [List.concat_eq_append] at h ⊢
    obtain ⟨hfront, hname⟩ := List.forall_mem_append.mp h
    rw [parent_join hfront (hname name (List.mem_singleton_self _)), List.dropLast_concat]

section

variable (h : Text.isBlank style.separator = false)
include h

theorem exists_names_of_resolve {cwd path result : String}
    (hr : style.resolve cwd path = .ok result) :
    ∃ names, (∀ name ∈ names, style.IsSegment name ∧ IsName name) ∧ result = style.join names := by
  rw [resolve_eq h] at hr
  split at hr
  · exact ⟨style.place cwd path, fun name => of_mem_place, (Except.ok.inj hr).symm⟩
  · contradiction

/-- A name leads to a child of that name, whatever the separator. -/
theorem resolve_name (hn : ∀ name ∈ names, style.IsSegment name ∧ IsName name)
    (hs : style.IsSegment name) (hname : IsName name) :
    style.resolve (style.join names) name = .ok (style.join (names ++ [name])) ∧
      style.parent (style.join (names ++ [name])) = style.join names ∧
      style.fileName (style.join (names ++ [name])) = some name := by
  have hsegments : ∀ segment ∈ names, style.IsSegment segment := fun segment hm => (hn segment hm).1
  have hall : ∀ segment ∈ names ++ [name], style.IsSegment segment :=
    List.forall_mem_append.mpr ⟨hsegments, List.forall_mem_singleton.mpr hs⟩
  refine ⟨?_, parent_join hsegments hs, ?_⟩
  · rw [resolve_join h hn hs, hname.enter_eq, List.reverse_cons, List.reverse_reverse]
  · rw [fileName_eq_getLast?, segments_join_of_isSegment hall, List.getLast?_concat]

/-- Two dots lead to the parent, if they are no separators. -/
theorem resolve_dots (hdot : style.separator ≠ '.')
    (hn : ∀ name ∈ names, style.IsSegment name ∧ IsName name) :
    style.resolve (style.join names) ".." = .ok (style.parent (style.join names)) := by
  have henter : enter names.reverse ".." = names.reverse.tail := rfl
  rw [resolve_join h hn (isSegment_dots hdot), henter, List.tail_reverse, List.reverse_reverse,
    parent_join_dropLast fun name hm => (hn name hm).1]

theorem navigable_join (hdot : style.separator ≠ '.')
    (hn : ∀ name ∈ names, style.IsSegment name ∧ IsName name) :
    style.Navigable (style.join names) where
  dot := by
    have henter : enter names.reverse "." = names.reverse := rfl
    rw [resolve_join h hn (isSegment_dot hdot), henter, List.reverse_reverse]
  dots := resolve_dots h hdot hn
  child name hs hname := by
    obtain ⟨hchild, hparent, hlast⟩ := resolve_name h hn hs hname
    have hall : ∀ segment ∈ names ++ [name], style.IsSegment segment ∧ IsName segment :=
      List.forall_mem_append.mpr ⟨hn, List.forall_mem_singleton.mpr ⟨hs, hname⟩⟩
    exact ⟨_, hchild, hparent, hlast, by rw [resolve_dots h hdot hall, hparent]⟩

end

/-- Where a dot is the separator, one dot or two are the root and lead there. -/
theorem resolve_of_separator_eq_dot (hdot : style.separator = '.') (cwd : String) :
    style.resolve cwd "." = .ok "." ∧ style.resolve cwd ".." = .ok "." := by
  obtain rfl : style = ⟨'.'⟩ := congrArg PathStyle.mk hdot
  exact ⟨rfl, rfl⟩

/-- From every canonical path a name leads to a child of that name. A dot stays and two dots lead to
the parent under just those separators that are not a dot: under that one both lead to the root from
everywhere. -/
theorem navigable_iff_separator_ne_dot {s : Settings} (h : s.validate = .ok ()) :
    ((∀ cwd path result, s.path.resolve cwd path = .ok result → s.path.Navigable result) ↔
      s.path.separator ≠ '.') ∧
    (∀ cwd path result, s.path.resolve cwd path = .ok result →
      ∀ name, s.path.IsSegment name → IsName name →
        ∃ child, s.path.resolve result name = .ok child ∧ s.path.parent child = result ∧
          s.path.fileName child = some name) ∧
    (s.path.separator = '.' → ∀ cwd,
      s.path.resolve cwd "." = .ok "." ∧ s.path.resolve cwd ".." = .ok ".") := by
  have hblank : Text.isBlank s.path.separator = false := (Settings.validate_eq_ok_iff.mp h).2.2.2
  refine ⟨⟨fun hall hdot => ?_, fun hdot cwd path result hr => ?_⟩,
    fun cwd path result hr name hs hname => ?_, resolve_of_separator_eq_dot⟩
  · have hr : s.path.resolve "." ".a" = .ok ".a" := by
      rw [show s.path = ⟨'.'⟩ from congrArg PathStyle.mk hdot]
      decide
    have hroot := (resolve_of_separator_eq_dot hdot ".a").1
    rw [(hall _ _ _ hr).dot] at hroot
    exact absurd (Except.ok.inj hroot) (by decide)
  · obtain ⟨names, hn, rfl⟩ := exists_names_of_resolve hblank hr
    exact navigable_join hblank hdot hn
  · obtain ⟨names, hn, rfl⟩ := exists_names_of_resolve hblank hr
    exact ⟨_, resolve_name hblank hn hs hname⟩

/-- A separator of three bytes, and a name that begins with the dots. -/
theorem navigable_iff_separator_ne_dot_wide :
    let s : Settings := { path := ⟨'→'⟩ }
    s.validate = .ok () ∧ s.path.resolve "→" "a→b→" = .ok "→a→b" ∧
      s.path.resolve "→a→b" "." = .ok "→a→b" ∧ s.path.resolve "→a→b" ".." = .ok "→a" ∧
      s.path.resolve "→a→b" "..c" = .ok "→a→b→..c" ∧ s.path.parent "→a→b→..c" = "→a→b" ∧
      s.path.resolve "→a→b→..c" ".." = .ok "→a→b" := by
  intro s
  have h : s.validate = .ok () := by decide
  have hr : s.path.resolve "→" "a→b→" = .ok "→a→b" := by decide
  have hsegment : s.path.IsSegment "..c" := ⟨by decide, by decide⟩
  have hname : IsName "..c" := ⟨by decide, by decide, by decide⟩
  obtain ⟨hdot, hdots, hchild⟩ :=
    (navigable_iff_separator_ne_dot h).1.mpr (by decide) _ _ _ hr
  obtain ⟨child, hc, hparent, -, hback⟩ := hchild "..c" hsegment hname
  obtain rfl : child = "→a→b→..c" := Except.ok.inj (hc.symm.trans (by decide))
  exact ⟨h, hr, hdot, hdots.trans (by decide), hc, hparent, hback⟩

/-- A dot can be set for the separator, and then a dot does not stay and two dots do not lead to the
parent. -/
theorem not_navigable_dot :
    let s : Settings := { path := ⟨'.'⟩ }
    s.validate = .ok () ∧ s.path.resolve "." ".a.b" = .ok ".a.b" ∧ ¬ s.path.Navigable ".a.b" ∧
      s.path.resolve ".a.b" "." = .ok "." ∧
      s.path.resolve ".a.b" ".." = .ok "." ∧ s.path.parent ".a.b" = ".a" := by
  intro s
  have hdot : s.path.resolve ".a.b" "." = .ok "." := by decide
  refine ⟨by decide, by decide, fun hn => ?_, hdot, by decide, by decide⟩
  exact absurd (Except.ok.inj (hn.dot.symm.trans hdot)) (by decide)

end TerminalShell.PathStyle
