/-! Lines of bytes: each ends with a line feed, which a carriage return may precede. -/
namespace TerminalShell.Text

def splitLine? : List UInt8 → Option (List UInt8 × List UInt8)
  | [] => none
  | b :: rest =>
    if b = 10 then some ([], rest)
    else (splitLine? rest).map fun (line, more) => (b :: line, more)

def dropReturn (line : List UInt8) : List UInt8 :=
  if line.getLast? = some 13 then line.dropLast else line

theorem splitLine?_append {line : List UInt8} (h : 10 ∉ line) (rest : List UInt8) :
    splitLine? (line ++ 10 :: rest) = some (line, rest) := by
  induction line with
  | nil => simp [splitLine?]
  | cons b line ih =>
    simp only [List.mem_cons, not_or] at h
    simp [splitLine?, ih h.2, Ne.symm h.1]

theorem eq_append_of_splitLine? {bytes line rest : List UInt8}
    (h : splitLine? bytes = some (line, rest)) : bytes = line ++ 10 :: rest := by
  induction bytes generalizing line with
  | nil => simp [splitLine?] at h
  | cons b bytes ih =>
    by_cases hb : b = 10
    · simp_all [splitLine?]
    · simp only [splitLine?, hb, if_false, Option.map_eq_some_iff, Prod.mk.injEq] at h
      obtain ⟨⟨line', rest'⟩, h, rfl, rfl⟩ := h
      simp [ih h]

theorem splitLine?_eq_none_iff {bytes : List UInt8} : splitLine? bytes = none ↔ 10 ∉ bytes := by
  induction bytes with
  | nil => simp [splitLine?]
  | cons b bytes ih =>
    by_cases hb : b = 10
    · simp [splitLine?, hb]
    · simp [splitLine?, hb, ih, Ne.symm hb]

end TerminalShell.Text
