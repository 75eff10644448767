import TerminalShell.Text.Pieces

/-! Lists cut at separators, and joined by them. -/
namespace TerminalShell.Text

variable {α : Type}

theorem pieces_eq_splitOnP (isSeparator : α → Bool) (l : List α) :
    pieces isSeparator l = l.splitOnP isSeparator := by
  induction l with
  | nil => rfl
  | cons a rest ih => rw [pieces, List.splitOnP_cons_eq_if_modifyHead, ih]

theorem notMem_of_mem_splitOn [BEq α] [LawfulBEq α] {sep : α} {l piece : List α}
    (h : piece ∈ l.splitOn sep) : sep ∉ piece := by
  rw [List.splitOn_eq_splitOnP, ← pieces_eq_splitOnP] at h
  exact fun hs => by simpa using not_isSeparator_of_mem_pieces h sep hs

theorem mem_of_mem_pieces {isSeparator : α → Bool} {l piece : List α}
    (h : piece ∈ pieces isSeparator l) {a : α} (ha : a ∈ piece) : a ∈ l := by
  induction l generalizing piece with
  | nil =>
    rw [pieces, List.mem_singleton] at h
    exact h ▸ ha
  | cons b rest ih =>
    obtain ⟨first, more, hp⟩ := List.exists_cons_of_ne_nil (pieces_ne_nil isSeparator rest)
    rw [pieces, hp] at h
    rw [hp] at ih
    split at h
    · rcases List.mem_cons.mp h with rfl | h
      · simp at ha
      · exact List.mem_cons_of_mem b (ih h ha)
    · rcases List.mem_cons.mp h with rfl | h
      · rcases List.mem_cons.mp ha with rfl | ha
        · exact List.mem_cons_self
        · exact List.mem_cons_of_mem b (ih List.mem_cons_self ha)
      · exact List.mem_cons_of_mem b (ih (List.mem_cons_of_mem _ h) ha)

theorem forall_mem_intercalate {p : α → Prop} {sep : List α} {ls : List (List α)}
    (hs : ∀ a ∈ sep, p a) (h : ∀ l ∈ ls, ∀ a ∈ l, p a) : ∀ a ∈ sep.intercalate ls, p a := by
  induction ls with
  | nil => simp
  | cons l rest ih =>
    obtain ⟨hl, hrest⟩ := List.forall_mem_cons.mp h
    cases rest with
    | nil => simpa using hl
    | cons m rest =>
      rw [List.intercalate_cons_cons]
      exact List.forall_mem_append.mpr ⟨List.forall_mem_append.mpr ⟨hl, hs⟩, ih hrest⟩

theorem mem_intercalate_of_mem {sep l : List α} {ls : List (List α)} {a : α} (hl : l ∈ ls)
    (ha : a ∈ l) : a ∈ sep.intercalate ls := by
  induction ls with
  | nil => contradiction
  | cons m rest ih =>
    cases rest with
    | nil => simpa [List.mem_singleton.mp hl] using ha
    | cons next rest =>
      rw [List.intercalate_cons_cons, List.mem_append, List.mem_append]
      rcases List.mem_cons.mp hl with rfl | hl
      · exact .inl (.inl ha)
      · exact .inr (ih hl)

/-- Joining with a separator, and one more in front, puts one before each list. -/
theorem cons_intercalate (sep : α) {ls : List (List α)} (h : ls ≠ []) :
    sep :: [sep].intercalate ls = ls.flatMap (sep :: ·) := by
  induction ls with
  | nil => exact absurd rfl h
  | cons l rest ih =>
    cases rest with
    | nil => simp
    | cons m rest =>
      rw [List.flatMap_cons, ← ih (List.cons_ne_nil m rest), List.intercalate_cons_cons]
      simp

theorem map_intersperse {β : Type} (f : α → β) (sep : α) (l : List α) :
    (l.intersperse sep).map f = (l.map f).intersperse (f sep) := by
  induction l with
  | nil => rfl
  | cons a rest ih =>
    cases rest with
    | nil => rfl
    | cons b rest => simpa using ih

/-- Splitting at separators undoes joining with one of them. -/
theorem splitOnP_intercalate {p : α → Bool} {sep : α} {ls : List (List α)} (hs : p sep = true)
    (h : ∀ l ∈ ls, ∀ a ∈ l, p a = false) (hne : ls ≠ []) :
    ([sep].intercalate ls).splitOnP p = ls := by
  induction ls with
  | nil => exact absurd rfl hne
  | cons l rest ih =>
    obtain ⟨hl, hrest⟩ := List.forall_mem_cons.mp h
    cases rest with
    | nil => simpa using List.splitOnP_eq_singleton hl
    | cons m rest =>
      rw [List.intercalate_cons_cons, List.append_assoc, List.singleton_append,
        List.splitOnP_append_cons_of_forall_mem hl sep hs,
        ih hrest (List.cons_ne_nil _ _)]

end TerminalShell.Text
