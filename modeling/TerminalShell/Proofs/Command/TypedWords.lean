import TerminalShell.Proofs.Command.Escaping
import TerminalShell.Proofs.Command.WordGrammar

/-!
What the words of a line can be. No line has an empty word, and any other words can be typed, so the
lists of words that lines have are those without an empty one.
-/
namespace TerminalShell.Command

variable {g : Grammar}

namespace Scan

/-- No word that a scan has completed is empty. -/
def HasFullWords (s : Scan) : Prop := ∀ word ∈ s.words, word ≠ ""

variable {s t : Scan} {c : Char}

theorem HasFullWords.allWords (h : s.HasFullWords) : ∀ word ∈ s.allWords, word ≠ "" := by
  intro word hw
  unfold Scan.allWords at hw
  split at hw
  next => exact h word hw
  next he =>
    rcases Array.mem_push.mp hw with hw | rfl
    · exact h word hw
    · simpa using he

/-- A step adds no word to those completed but the one that a blank character ends. -/
theorem words_of_step (h : s.step g c = .ok t) : t.words = s.words ∨ t.words = s.allWords := by
  cases steps_of_step h with
  | separator => exact .inr rfl
  | escaped | escape | opening | closing | plain => exact .inl rfl

theorem HasFullWords.step (h : s.HasFullWords) (hs : s.step g c = .ok t) : t.HasFullWords := by
  intro word hw
  rcases words_of_step hs with hws | hws <;> rw [hws] at hw
  · exact h word hw
  · exact h.allWords word hw

end Scan

/-- No line has an empty word. -/
theorem Grammar.ne_empty_of_mem_words {line : String} {words : List String}
    (h : g.words line = .ok words) : ∀ word ∈ words, word ≠ "" := by
  obtain ⟨s, hs, -, rfl⟩ := exists_scan_of_words h
  have hfull : s.HasFullWords := by
    refine scan_induction (P := fun _ s => s.HasFullWords) ?_ ?_ hs
    · simp [Scan.HasFullWords]
    · exact fun _ _ _ _ h ht => h.step ht
  intro word hm
  exact hfull.allWords word (Array.mem_toList_iff.mp hm)

/-- Words are typed by an escape character before each of their special characters and a space
between two of them, and then they are read as they are, if none of them is empty; the words of a
line are never empty, so these are all the lists of words that there are lines for. -/
theorem Grammar.words_range (h : g.Escapes) (words : List String) :
    ((∀ word ∈ words, word ≠ "") → g.words (g.typed words) = .ok words) ∧
    ((∃ line, g.words line = .ok words) ↔ ∀ word ∈ words, word ≠ "") := by
  refine ⟨h.words_typed, ?_, ?_⟩
  · rintro ⟨line, hline⟩
    exact ne_empty_of_mem_words hline
  · intro hw
    exact ⟨_, h.words_typed hw⟩

/-- A grammar of its own, with words that hold its special characters, line ends and letters that
an escape character would rename. -/
theorem Grammar.words_range_caret :
    let g : Grammar := { escape := '^', quote := '\'' }
    let words := ["r^t", "'a\u00a0b'", "\r\n", "n"]
    g.Escapes ∧ g.typed words = "r^^t ^'a^\u00a0b^' ^\r^\n n" ∧
      g.words (g.typed words) = .ok words ∧ ¬ ∃ line, g.words line = .ok [""] := by
  intro g words
  have h : g.Escapes := ⟨by decide, by decide, by decide, by decide, by decide⟩
  refine ⟨h, by decide, (words_range h words).1 (by decide), fun hl => ?_⟩
  exact (words_range h [""]).2.mp hl "" List.mem_cons_self rfl

end TerminalShell.Command
