import Mathlib.Data.List.Chain
import TerminalShell.Proofs.Path.Normalization
import TerminalShell.Proofs.Path.Joining

/-!
Paths resolved against a directory. Main statements: what they resolve to is canonical, and going
through one path and then through another is going through both at once.
-/
namespace TerminalShell.PathStyle

variable {style : PathStyle} {names : List String} {path : String}

/-- The one spelling of a place: the separator before each name, and no more of them; the root is a
separator alone. -/
structure IsCanonical (style : PathStyle) (path : String) : Prop where
  absolute : style.isAbsolute path = true
  apart : path.toList.IsChain fun c d => ¬ (c = style.separator ∧ d = style.separator)
  eq_root_of_end : path.toList.getLast? = some style.separator → path = style.separator.toString
  names : ∀ segment ∈ style.segments path, IsName segment

theorem isChain_join (h : ∀ name ∈ names, style.IsSegment name) :
    (names.flatMap fun name => style.separator :: name.toList).IsChain
      fun c d => ¬ (c = style.separator ∧ d = style.separator) := by
  induction names with
  | nil => exact List.IsChain.nil
  | cons name names ih =>
    obtain ⟨hname, hrest⟩ := List.forall_mem_cons.mp h
    have hc {c : Char} (hm : c ∈ name.toList) : c ≠ style.separator := fun he =>
      hname.separator_notMem (he ▸ hm)
    rw [List.flatMap_cons, List.cons_append, List.isChain_cons, List.isChain_append]
    refine ⟨?_, ?_, ih hrest, ?_⟩
    · intro d hd hs
      rw [List.head?_append_of_ne_nil _ hname.toList_ne_nil] at hd
      exact hc (List.mem_of_mem_head? hd) hs.2
    · apply List.Pairwise.isChain
      exact List.pairwise_of_forall_mem_list fun c hm _ _ hs => hc hm hs.1
    · intro c hm _ _ hs
      exact hc (List.mem_of_mem_getLast? hm) hs.1

/-- A path through names is canonical. -/
theorem isCanonical_join (h : ∀ name ∈ names, style.IsSegment name ∧ IsName name) :
    style.IsCanonical (style.join names) := by
  have hs : ∀ name ∈ names, style.IsSegment name := fun name hm => (h name hm).1
  have hnames : ∀ segment ∈ style.segments (style.join names), IsName segment := by
    rw [segments_join_of_isSegment hs]
    exact fun name hm => (h name hm).2
  by_cases hn : names = []
  · subst hn
    exact ⟨style.isAbsolute_join _, by simp [join, Char.toString], fun _ => rfl, hnames⟩
  · have ht := toList_join_of_isSegment hs hn
    refine ⟨style.isAbsolute_join _, by rw [ht]; exact isChain_join hs, ?_, hnames⟩
    rw [ht]
    exact fun he => absurd he (getLast?_join hs)

/-- The segments that a path starts from: none when it is absolute, else those of the directory. -/
def base (style : PathStyle) (cwd path : String) : List String :=
  if style.isAbsolute path then [] else style.segments cwd

/-- The names that a path leads to from a directory. -/
def place (style : PathStyle) (cwd path : String) : List String :=
  normalize (style.base cwd path ++ style.segments path)

theorem of_mem_place {cwd name : String} (h : name ∈ style.place cwd path) :
    style.IsSegment name ∧ IsName name := by
  refine ⟨?_, isName_of_mem_normalize h⟩
  have hm : name ∈ style.base cwd path ++ style.segments path := (normalize_sublist _).mem h
  unfold base at hm
  split at hm
  · exact isSegment_of_mem_segments hm
  · exact (List.mem_append.mp hm).elim isSegment_of_mem_segments isSegment_of_mem_segments

theorem segments_join_place (style : PathStyle) (cwd path : String) :
    style.segments (style.join (style.place cwd path)) = style.place cwd path :=
  segments_join_of_isSegment fun _ hm => (of_mem_place hm).1

theorem isAbsolute_join_place (style : PathStyle) (cwd path : String) :
    style.isAbsolute (style.join (style.place cwd path)) = true :=
  style.isAbsolute_join _

/-- The path to a place leads there from every directory. -/
theorem place_join_place (style : PathStyle) (c cwd path : String) :
    style.place c (style.join (style.place cwd path)) = style.place cwd path := by
  rw [place, base, if_pos (isAbsolute_join_place style cwd path), List.nil_append,
    segments_join_place]
  exact normalize_of_isName fun name hm => (of_mem_place hm).2

section

variable (h : Text.isBlank style.separator = false)
include h

/-- Resolving fails only where nothing is absolute, and else leads to a place. -/
theorem resolve_eq (cwd path : String) :
    style.resolve cwd path =
      if style.isAbsolute path || style.isAbsolute cwd then .ok (style.join (style.place cwd path))
      else .error (.malformed cwd) := by
  unfold resolve
  rw [split_eq h]
  by_cases hp : style.isAbsolute path = true
  · simp [hp, place, base, pure, Except.pure, bind, Except.bind]
  · by_cases hc : style.isAbsolute cwd = true <;>
      simp [hp, hc, place, base, pure, Except.pure, bind, Except.bind]

/-- Whatever the separator, if it is not blank, a path is refused exactly when neither it nor the
directory is absolute, and the fault lies with the directory. Every other one resolves to a
canonical path, which no directory changes any more: however many two dots there are, none of them
is left and nothing leads above the root. -/
theorem resolve_canonical (cwd path : String) :
    (∀ e, style.resolve cwd path = .error e ↔
      style.isAbsolute path = false ∧ style.isAbsolute cwd = false ∧ e = .malformed cwd) ∧
    (style.isAbsolute path = true ∨ style.isAbsolute cwd = true →
      ∃ result, style.resolve cwd path = .ok result ∧ style.IsCanonical result ∧
        ∀ c, style.resolve c result = .ok result) := by
  rw [resolve_eq h]
  by_cases ha : (style.isAbsolute path || style.isAbsolute cwd) = true
  · rw [if_pos ha]
    refine ⟨fun e => ⟨fun he => by contradiction, ?_⟩, fun _ => ?_⟩
    · rintro ⟨hp, hc, -⟩
      simp [hp, hc] at ha
    · refine ⟨_, rfl, isCanonical_join fun name => of_mem_place, fun c => ?_⟩
      rw [resolve_eq h, isAbsolute_join_place, Bool.true_or, if_pos rfl, place_join_place]
  · rw [if_neg ha]
    simp only [Bool.or_eq_true, not_or, Bool.not_eq_true] at ha
    refine ⟨fun e => ⟨fun he => ⟨ha.1, ha.2, (Except.error.inj he).symm⟩, ?_⟩, ?_⟩
    · rintro ⟨-, -, rfl⟩
      rfl
    · simp [ha.1, ha.2]

end

/-- More dots than directories, a blank directory and a separator of three bytes. -/
theorem resolve_canonical_aboveRoot :
    let style : PathStyle := ⟨'→'⟩
    Text.isBlank style.separator = false ∧
      style.resolve "→a→ →.→b" "..→..→..→c→→..→d→" = .ok "→d" ∧ style.IsCanonical "→d" ∧
      (∀ c, style.resolve c "→d" = .ok "→d") ∧
      style.resolve "a→b" "../c" = .error (.malformed "a→b") := by
  intro style
  have h : Text.isBlank style.separator = false := by decide
  have hr : style.resolve "→a→ →.→b" "..→..→..→c→→..→d→" = .ok "→d" := by decide
  obtain ⟨result, he, hcanonical, hfixed⟩ :=
    (resolve_canonical h "→a→ →.→b" "..→..→..→c→→..→d→").2 (.inr (by decide))
  obtain rfl : result = "→d" := Except.ok.inj (he.symm.trans hr)
  exact ⟨h, hr, hcanonical, hfixed,
    ((resolve_canonical h "a→b" "../c").1 _).mpr ⟨by decide, by decide, rfl⟩⟩

theorem isAbsolute_append {first : String} (hf : first ≠ "") (second : String) :
    style.isAbsolute (first ++ second) = style.isAbsolute first := by
  rw [isAbsolute, isAbsolute, String.toList_append,
    List.head?_append_of_ne_nil _ (mt String.toList_eq_nil_iff.mp hf)]

/-- Two walks in a row lead to the place of one, if the second goes on from where the first ends. -/
theorem place_place (style : PathStyle) (cwd : String) {first second : String} (hf : first ≠ "")
    (hs : style.isAbsolute second = false) :
    style.place (style.join (style.place cwd first)) second =
      style.place cwd (first ++ style.separator.toString ++ second) := by
  have hbase : style.base cwd (first ++ style.separator.toString ++ second) =
      style.base cwd first := by
    rw [base, base, String.append_assoc, isAbsolute_append hf]
  calc style.place (style.join (style.place cwd first)) second
      = normalize (style.place cwd first ++ style.segments second) := by
        rw [place, base, hs, segments_join_place]
        rfl
    _ = normalize (style.base cwd first ++ (style.segments first ++ style.segments second)) := by
        rw [place, ← normalize_append, List.append_assoc]
    _ = style.place cwd (first ++ style.separator.toString ++ second) := by
        rw [place, hbase, segments_append_separator]

/-- Going through one path and then, from there, through another that is not absolute leads where
both lead with a separator between them, whatever the second undoes of the first. -/
theorem resolve_resolve (h : Text.isBlank style.separator = false) {cwd first second : String}
    (hc : style.isAbsolute cwd = true) (hf : first ≠ "") (hs : style.isAbsolute second = false) :
    ∃ middle result, style.resolve cwd first = .ok middle ∧
      style.resolve middle second = .ok result ∧
      style.resolve cwd (first ++ style.separator.toString ++ second) = .ok result := by
  refine ⟨style.join (style.place cwd first),
    style.join (style.place cwd (first ++ style.separator.toString ++ second)), ?_, ?_, ?_⟩
  · rw [resolve_eq h, hc, Bool.or_true, if_pos rfl]
  · rw [resolve_eq h, isAbsolute_join_place, Bool.or_true, if_pos rfl, place_place style cwd hf hs]
  · rw [resolve_eq h, hc, Bool.or_true, if_pos rfl]

/-- The second path undoes all of the first, and goes on above the root. -/
theorem resolve_resolve_undone :
    let style : PathStyle := {}
    Text.isBlank style.separator = false ∧ style.isAbsolute "/home/user" = true ∧
      "docs/./" ≠ "" ∧ style.isAbsolute "../../../../b/ /" = false ∧
      style.resolve "/home/user" "docs/./" = .ok "/home/user/docs" ∧
      style.resolve "/home/user/docs" "../../../../b/ /" = .ok "/b" ∧
      style.resolve "/home/user" "docs/.//../../../../b/ /" = .ok "/b" := by
  intro style
  have h : Text.isBlank style.separator = false := by decide
  have hc : style.isAbsolute "/home/user" = true := by decide
  have hf : "docs/./" ≠ "" := by decide
  have hs : style.isAbsolute "../../../../b/ /" = false := by decide
  obtain ⟨middle, result, hfirst, hsecond, hboth⟩ := resolve_resolve h hc hf hs
  obtain rfl : middle = "/home/user/docs" :=
    Except.ok.inj (hfirst.symm.trans (by decide))
  obtain rfl : result = "/b" := Except.ok.inj (hsecond.symm.trans (by decide))
  exact ⟨h, hc, hf, hs, hfirst, hsecond, hboth⟩

end TerminalShell.PathStyle
