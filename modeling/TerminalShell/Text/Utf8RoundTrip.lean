import TerminalShell.Text.Utf8

/-!
Decoding undoes encoding: the bytes of a character are one piece, so the pieces of an encoded
text are its characters.
-/
namespace TerminalShell.Text.Utf8

theorem piecesFrom_cons (state : Option Unfinished) (b : UInt8) (rest : List UInt8) :
    piecesFrom state (b :: rest) =
      (step state b.toNat).1 ++ piecesFrom (step state b.toNat).2 rest := by
  cases state <;> rfl

theorem step_some {u : Unfinished} {b : Nat} (h₁ : u.least ≤ b) (h₂ : b ≤ u.greatest) :
    step (some u) b =
      if u.missing = 1 then ([some (Char.ofNat (u.value * 64 + (b - 0x80)))], none)
      else ([], some { value := u.value * 64 + (b - 0x80), missing := u.missing - 1 }) := by
  simp [step, h₁, h₂]

theorem toNat_ofNat_of_lt {n : Nat} (h : n < 256) : (UInt8.ofNat n).toNat = n := by
  simp only [UInt8.toNat_ofNat']
  omega

/-- The bytes of a character are one piece. -/
theorem piecesFrom_encodeChar (c : Char) (rest : List UInt8) :
    piecesFrom none (String.utf8EncodeChar c ++ rest) = some c :: piecesFrom none rest := by
  have hv : c.val.toNat < 0xD800 ∨ 0xDFFF < c.val.toNat ∧ c.val.toNat < 0x110000 := c.valid
  have hc : Char.ofNat c.val.toNat = c := Char.ofNat_toNat c
  unfold String.utf8EncodeChar
  generalize c.val.toNat = n at hv hc
  dsimp only
  split
  · rw [List.singleton_append, piecesFrom_cons, toNat_ofNat_of_lt (by omega)]
    simp [step, lead, hc, show n < 0x80 by omega]
  · split
    · simp only [List.cons_append, List.nil_append, piecesFrom_cons]
      rw [toNat_ofNat_of_lt (by omega), toNat_ofNat_of_lt (by omega)]
      have hl : lead (n / 64 % 32 + 192) =
          ([], some { value := n / 64 % 32, missing := 1 }) := by
        simp only [lead, show ¬ n / 64 % 32 + 192 < 0x80 by omega,
          show ¬ n / 64 % 32 + 192 < 0xC2 by omega, show n / 64 % 32 + 192 < 0xE0 by omega,
          if_true, if_false, Nat.add_sub_cancel]
      rw [show step none (n / 64 % 32 + 192) = lead (n / 64 % 32 + 192) from rfl, hl]
      rw [step_some (by simp) (by dsimp only; omega)]
      simp [show n / 64 % 32 * 64 + n % 64 = n by omega, hc]
    · split
      · simp only [List.cons_append, List.nil_append, piecesFrom_cons]
        rw [toNat_ofNat_of_lt (by omega), toNat_ofNat_of_lt (by omega),
          toNat_ofNat_of_lt (by omega)]
        have hl : ∃ least greatest, lead (n / 4096 % 16 + 224) =
            ([], some { value := n / 4096 % 16, missing := 2, least, greatest }) ∧
            least ≤ n / 64 % 64 + 128 ∧ n / 64 % 64 + 128 ≤ greatest := by
          by_cases h0 : n / 4096 % 16 = 0
          · exact ⟨0xA0, 0xBF, by simp [lead, h0], by omega, by omega⟩
          · by_cases hD : n / 4096 % 16 = 0xD
            · exact ⟨0x80, 0x9F, by simp [lead, hD], by omega, by omega⟩
            · refine ⟨0x80, 0xBF, ?_, by omega, by omega⟩
              simp only [lead, show ¬ n / 4096 % 16 + 224 < 0x80 by omega,
                show ¬ n / 4096 % 16 + 224 < 0xC2 by omega,
                show ¬ n / 4096 % 16 + 224 < 0xE0 by omega,
                show ¬ n / 4096 % 16 + 224 = 0xE0 by omega,
                show ¬ n / 4096 % 16 + 224 = 0xED by omega,
                show n / 4096 % 16 + 224 < 0xF0 by omega, if_true, if_false, Nat.add_sub_cancel]
        obtain ⟨least, greatest, hl, h₁, h₂⟩ := hl
        rw [show step none (n / 4096 % 16 + 224) = lead (n / 4096 % 16 + 224) from rfl, hl,
          step_some h₁ h₂]
        simp only [show ¬ (2 = 1) by omega, if_false]
        rw [step_some (by simp) (by dsimp only; omega)]
        simp [show (n / 4096 % 16 * 64 + n / 64 % 64) * 64 + n % 64 = n by omega, hc]
      · simp only [List.cons_append, List.nil_append, piecesFrom_cons]
        rw [toNat_ofNat_of_lt (by omega), toNat_ofNat_of_lt (by omega),
          toNat_ofNat_of_lt (by omega), toNat_ofNat_of_lt (by omega)]
        have hl : ∃ least greatest, lead (n / 262144 % 8 + 240) =
            ([], some { value := n / 262144 % 8, missing := 3, least, greatest }) ∧
            least ≤ n / 4096 % 64 + 128 ∧ n / 4096 % 64 + 128 ≤ greatest := by
          by_cases h0 : n / 262144 % 8 = 0
          · exact ⟨0x90, 0xBF, by simp [lead, h0], by omega, by omega⟩
          · by_cases h4 : n / 262144 % 8 = 4
            · exact ⟨0x80, 0x8F, by simp [lead, h4], by omega, by omega⟩
            · refine ⟨0x80, 0xBF, ?_, by omega, by omega⟩
              simp only [lead, show ¬ n / 262144 % 8 + 240 < 0x80 by omega,
                show ¬ n / 262144 % 8 + 240 < 0xC2 by omega,
                show ¬ n / 262144 % 8 + 240 < 0xE0 by omega,
                show ¬ n / 262144 % 8 + 240 = 0xE0 by omega,
                show ¬ n / 262144 % 8 + 240 = 0xED by omega,
                show ¬ n / 262144 % 8 + 240 < 0xF0 by omega,
                show ¬ n / 262144 % 8 + 240 = 0xF0 by omega,
                show n / 262144 % 8 + 240 < 0xF4 by omega, if_true, if_false, Nat.add_sub_cancel]
        obtain ⟨least, greatest, hl, h₁, h₂⟩ := hl
        rw [show step none (n / 262144 % 8 + 240) = lead (n / 262144 % 8 + 240) from rfl, hl,
          step_some h₁ h₂]
        simp only [show ¬ (3 = 1) by omega, if_false]
        rw [step_some (by simp) (by dsimp only; omega)]
        simp only [Nat.add_sub_cancel, show ¬ (2 = 1) by omega, if_false]
        rw [step_some (by simp) (by dsimp only; omega)]
        simp [show ((n / 262144 % 8 * 64 + n / 4096 % 64) * 64 + n / 64 % 64) * 64 + n % 64 = n by
          omega, hc]

theorem pieces_encode (text : String) : pieces (encode text) = text.toList.map some := by
  unfold pieces encode
  induction text.toList with
  | nil => rfl
  | cons c cs ih => rw [List.flatMap_cons, piecesFrom_encodeChar, ih, List.map_cons]

theorem decodeLenient_encode (text : String) : decodeLenient (encode text) = text := by
  simp [decodeLenient, pieces_encode, Function.comp_def]

end TerminalShell.Text.Utf8
