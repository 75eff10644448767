import TerminalShell.Path

/-!
Walks along segments. What a walk from the root comes to are names, and it can stop anywhere and go
on from the directory it has come to.
-/
namespace TerminalShell.PathStyle

/-- A segment that stands for itself. -/
structure IsName (segment : String) : Prop where
  ne_dot : segment ≠ "."
  ne_dots : segment ≠ ".."
  not_blank : Text.isBlankText segment = false

variable {segment : String} {segments stack : List String}

/-- What one more segment does: a name is entered, two dots leave a directory, all else stays. -/
theorem enter_cases (stack : List String) (segment : String) :
    (IsName segment ∧ enter stack segment = segment :: stack) ∨
      (segment = ".." ∧ enter stack segment = stack.tail) ∨
      (¬ IsName segment ∧ segment ≠ ".." ∧ enter stack segment = stack) := by
  unfold enter
  by_cases hd : segment = "."
  · exact .inr (.inr ⟨fun h => h.ne_dot hd, by rw [hd]; decide, if_pos hd⟩)
  rw [if_neg hd]
  by_cases hds : segment = ".."
  · exact .inr (.inl ⟨hds, if_pos hds⟩)
  rw [if_neg hds]
  by_cases hb : Text.isBlankText segment = true
  · exact .inr (.inr ⟨fun h => by simp [h.not_blank] at hb, hds, if_pos hb⟩)
  · exact .inl ⟨⟨hd, hds, by simpa using hb⟩, if_neg hb⟩

theorem IsName.enter_eq (h : IsName segment) (stack : List String) :
    enter stack segment = segment :: stack := by
  rcases enter_cases stack segment with ⟨-, he⟩ | ⟨hs, -⟩ | ⟨hn, -⟩
  · exact he
  · exact absurd hs h.ne_dots
  · exact absurd h hn

theorem isName_of_mem_enter (h : ∀ name ∈ stack, IsName name) (segment : String) :
    ∀ name ∈ enter stack segment, IsName name := by
  rcases enter_cases stack segment with ⟨hn, he⟩ | ⟨-, he⟩ | ⟨-, -, he⟩ <;> rw [he]
  · exact List.forall_mem_cons.mpr ⟨hn, h⟩
  · exact fun name hm => h name (List.mem_of_mem_tail hm)
  · exact h

theorem isName_of_mem_walk (h : ∀ name ∈ stack, IsName name) (segments : List String) :
    ∀ name ∈ segments.foldl enter stack, IsName name := by
  induction segments generalizing stack with
  | nil => exact h
  | cons segment segments ih => exact ih (isName_of_mem_enter h segment)

theorem isName_of_mem_normalize {name : String} (h : name ∈ normalize segments) : IsName name :=
  isName_of_mem_walk (by simp) segments name (List.mem_reverse.mp h)

theorem walk_of_isName (h : ∀ name ∈ segments, IsName name) (stack : List String) :
    segments.foldl enter stack = segments.reverse ++ stack := by
  induction segments generalizing stack with
  | nil => rfl
  | cons segment segments ih =>
    obtain ⟨hs, hrest⟩ := List.forall_mem_cons.mp h
    rw [List.foldl_cons, hs.enter_eq, ih hrest, List.reverse_cons, List.append_assoc,
      List.singleton_append]

/-- Names are normal: none of them goes anywhere else. -/
theorem normalize_of_isName (h : ∀ name ∈ segments, IsName name) :
    normalize segments = segments := by
  rw [normalize, walk_of_isName h, List.append_nil, List.reverse_reverse]

theorem enter_sublist (stack : List String) (segment : String) :
    (enter stack segment).Sublist (segment :: stack) := by
  rcases enter_cases stack segment with ⟨-, he⟩ | ⟨-, he⟩ | ⟨-, -, he⟩
  · exact he.symm ▸ List.Sublist.refl (segment :: stack)
  · exact he.symm ▸ (List.tail_sublist stack).cons segment
  · exact he.symm ▸ List.sublist_cons_self segment stack

theorem walk_sublist (stack segments : List String) :
    (segments.foldl enter stack).Sublist (segments.reverse ++ stack) := by
  induction segments generalizing stack with
  | nil => exact List.Sublist.refl stack
  | cons segment segments ih =>
    rw [List.foldl_cons, List.reverse_cons, List.append_assoc, List.singleton_append]
    exact (ih _).trans ((List.Sublist.refl _).append (enter_sublist stack segment))

/-- What is left of some segments stands among them in the same order. -/
theorem normalize_sublist (segments : List String) : (normalize segments).Sublist segments := by
  have h := (walk_sublist [] segments).reverse
  rwa [List.append_nil, List.reverse_reverse] at h

/-- Going on from where a first walk has led is one walk. -/
theorem normalize_append (first second : List String) :
    normalize (first ++ second) = normalize (normalize first ++ second) := by
  have h : (normalize first).foldl enter [] = first.foldl enter [] := by
    rw [walk_of_isName fun name => isName_of_mem_normalize, List.append_nil, normalize,
      List.reverse_reverse]
  rw [normalize, normalize, List.foldl_append, List.foldl_append, h]

end TerminalShell.PathStyle
