/-! The pieces of a list between its separators. -/
namespace TerminalShell.Text

variable {α : Type}

/-- The pieces between the separators of a list: one more than there are separators, possibly
empty. -/
def pieces (isSeparator : α → Bool) : List α → List (List α)
  | [] => [[]]
  | a :: rest =>
    if isSeparator a then [] :: pieces isSeparator rest
    else (pieces isSeparator rest).modifyHead (a :: ·)

theorem pieces_ne_nil (isSeparator : α → Bool) (l : List α) : pieces isSeparator l ≠ [] := by
  cases l with
  | nil => simp [pieces]
  | cons a rest =>
    have := pieces_ne_nil isSeparator rest
    by_cases h : isSeparator a <;> cases hp : pieces isSeparator rest <;> simp_all [pieces]

theorem not_isSeparator_of_mem_pieces {isSeparator : α → Bool} {l piece : List α}
    (h : piece ∈ pieces isSeparator l) : ∀ a ∈ piece, isSeparator a = false := by
  induction l generalizing piece with
  | nil => simp_all [pieces]
  | cons b rest ih =>
    by_cases hb : isSeparator b
    · simp only [pieces, hb, if_true, List.mem_cons] at h
      rcases h with rfl | h
      · simp
      · exact ih h
    · simp only [pieces, hb, if_false, Bool.false_eq_true] at h
      cases hp : pieces isSeparator rest with
      | nil => exact absurd hp (pieces_ne_nil _ _)
      | cons p ps =>
        rw [hp, List.modifyHead_cons, List.mem_cons] at h
        rcases h with rfl | h
        · intro a ha
          rcases List.mem_cons.mp ha with rfl | ha
          · simpa using hb
          · exact ih (by simp [hp]) a ha
        · exact ih (by simp [hp, h])

end TerminalShell.Text
