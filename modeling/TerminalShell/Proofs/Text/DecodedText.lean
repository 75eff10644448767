import Mathlib
import TerminalShell.Text.Utf8RoundTrip

/-!
The text that bytes are decoded to. A character below 128 in it is one of the bytes, however many
of the others are malformed, so bytes without a line end decode to a text without one.
-/
namespace TerminalShell.Text.Utf8

/-- Whatever bytes still come, the character will not be below 128. -/
def Unfinished.IsLong (u : Unfinished) : Prop :=
  128 ≤ (u.value * 64 + (u.least - 0x80)) * 64 ^ (u.missing - 1)

theorem Unfinished.IsLong.le_value {u : Unfinished} (h : u.IsLong) {b : Nat} (hb : u.least ≤ b) :
    128 ≤ (u.value * 64 + (b - 0x80)) * 64 ^ (u.missing - 1) :=
  Nat.le_trans h (Nat.mul_le_mul_right _ (by omega))

/-- What a first byte can be. -/
inductive Leads (b : Nat) : List (Option Char) × Option Unfinished → Prop where
  | single (h : b < 128) : Leads b ([some (Char.ofNat b)], none)
  | malformed : Leads b ([none], none)
  | long {u : Unfinished} (hu : u.IsLong) : Leads b ([], some u)

theorem lead_leads (b : Nat) : Leads b (lead b) := by
  unfold lead
  split
  next h => exact .single h
  next h =>
    repeat' split
    all_goals first
      | exact .malformed
      | apply Leads.long
        simp only [Unfinished.IsLong]
        omega

theorem Leads.isLong {b : Nat} {out : List (Option Char)} {u : Unfinished}
    (h : Leads b (out, some u)) : u.IsLong := by
  cases h with
  | long hu => exact hu

theorem Leads.toNat_eq {b : Nat} {c : Char} {out : List (Option Char)} {next : Option Unfinished}
    (h : Leads b (out, next)) (hc : some c ∈ out) : c.toNat = b := by
  cases h with
  | single hb =>
    rw [List.mem_singleton, Option.some.injEq] at hc
    rw [hc, Char.toNat_ofNat, if_pos (.inl (by omega))]
  | malformed => simp at hc
  | long => contradiction

theorem isLong_of_lead {b : Nat} {u : Unfinished} (h : (lead b).2 = some u) : u.IsLong :=
  (h ▸ lead_leads b : Leads b ((lead b).1, some u)).isLong

theorem toNat_of_mem_lead {b : Nat} {c : Char} (h : some c ∈ (lead b).1) : c.toNat = b :=
  (lead_leads b).toNat_eq h

/-- One more byte leaves nothing unfinished that could become a character below 128. -/
theorem isLong_of_step {state : Option Unfinished} {b : Nat} {next : Unfinished}
    (h : ∀ u, state = some u → u.IsLong) (hn : (step state b).2 = some next) : next.IsLong := by
  cases state with
  | none => exact isLong_of_lead hn
  | some u =>
    by_cases hb : u.least ≤ b ∧ b ≤ u.greatest
    · rw [step_some hb.1 hb.2] at hn
      split at hn
      next => contradiction
      next =>
        rw [Option.some.injEq] at hn
        subst hn
        calc 128 ≤ (u.value * 64 + (b - 0x80)) * 64 ^ (u.missing - 1) := (h u rfl).le_value hb.1
          _ ≤ (u.value * 64 + (b - 0x80)) * (64 * 64 ^ (u.missing - 1 - 1)) := by
            rw [← Nat.pow_succ']
            exact Nat.mul_le_mul_left _ (Nat.pow_le_pow_right (by decide) (by omega))
          _ = _ := by simp [Nat.mul_assoc]
    · simp only [step, hb, if_false] at hn
      exact isLong_of_lead hn

theorem mem_step {a : Char} (ha : a.toNat < 128) (h₀ : a ≠ '\x00') {state : Option Unfinished}
    {b : Nat} (h : ∀ u, state = some u → u.IsLong) (hm : some a ∈ (step state b).1) :
    b = a.toNat := by
  cases state with
  | none => exact (toNat_of_mem_lead hm).symm
  | some u =>
    by_cases hb : u.least ≤ b ∧ b ≤ u.greatest
    · rw [step_some hb.1 hb.2] at hm
      split at hm
      next hone =>
        exfalso
        have hlong := (h u rfl).le_value hb.1
        rw [hone, Nat.sub_self, Nat.pow_zero, Nat.mul_one] at hlong
        rw [List.mem_singleton, Option.some.injEq] at hm
        by_cases hv : (u.value * 64 + (b - 0x80)).isValidChar
        · rw [hm, Char.toNat_ofNat, if_pos hv] at ha
          omega
        · exact h₀ (hm.trans (dif_neg hv))
      next => simp at hm
    · simp only [step, hb, if_false, List.mem_cons, reduceCtorEq, false_or] at hm
      exact (toNat_of_mem_lead hm).symm

theorem mem_piecesFrom {a : Char} (ha : a.toNat < 128) (h₀ : a ≠ '\x00')
    {state : Option Unfinished} {bytes : List UInt8} (h : ∀ u, state = some u → u.IsLong)
    (hm : some a ∈ piecesFrom state bytes) : UInt8.ofNat a.toNat ∈ bytes := by
  induction bytes generalizing state with
  | nil => cases state <;> simp [piecesFrom] at hm
  | cons b bytes ih =>
    rw [piecesFrom_cons, List.mem_append] at hm
    rcases hm with hm | hm
    · rw [← mem_step ha h₀ h hm, UInt8.ofNat_toNat]
      exact List.mem_cons_self
    · exact List.mem_cons_of_mem _ (ih (fun u hu => isLong_of_step h hu) hm)

/-- A character below 128 comes from its own byte. -/
theorem mem_of_mem_decodeLenient {a : Char} (ha : a.toNat < 128) (h₀ : a ≠ '\x00')
    {bytes : List UInt8} (h : a ∈ (decodeLenient bytes).toList) :
    UInt8.ofNat a.toNat ∈ bytes := by
  simp only [decodeLenient, String.toList_ofList, List.mem_map] at h
  obtain ⟨piece, hm, hp⟩ := h
  cases piece with
  | none =>
    subst hp
    simp at ha
  | some c =>
    subst hp
    exact mem_piecesFrom ha h₀ (by simp) hm

end TerminalShell.Text.Utf8
