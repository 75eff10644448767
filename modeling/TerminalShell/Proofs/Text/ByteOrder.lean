import TerminalShell.Text.Utf8

/-!
The order of texts is the order of their bytes. Where the bytes of two characters first differ both
characters have a byte, and the smaller character has the smaller one.
-/
namespace TerminalShell.Text.Utf8

/-- Two lists of bytes differ first at a place that both of them have, and the first list has the
smaller byte there. -/
inductive Precedes : List UInt8 → List UInt8 → Prop where
  | head {a b : UInt8} (h : a < b) (as bs : List UInt8) : Precedes (a :: as) (b :: bs)
  | tail (a : UInt8) {as bs : List UInt8} (h : Precedes as bs) : Precedes (a :: as) (a :: bs)

namespace Precedes

variable {as bs : List UInt8} {m n : Nat}

theorem append (h : Precedes as bs) (cs ds : List UInt8) : Precedes (as ++ cs) (bs ++ ds) := by
  induction h with
  | head h as bs => exact .head h _ _
  | tail a _ ih => exact .tail a ih

theorem lt (h : Precedes as bs) : as < bs := by
  induction h with
  | head h as bs => exact .rel h
  | tail a _ ih => exact .cons ih

theorem of_lt (hn : n < 256) (h : m < n) :
    Precedes (UInt8.ofNat m :: as) (UInt8.ofNat n :: bs) := by
  refine .head ?_ as bs
  rw [UInt8.lt_iff_toNat_lt, UInt8.toNat_ofNat', UInt8.toNat_ofNat']
  omega

theorem of_le (hn : n < 256) (hle : m ≤ n) (h : m = n → Precedes as bs) :
    Precedes (UInt8.ofNat m :: as) (UInt8.ofNat n :: bs) := by
  rcases Nat.lt_or_eq_of_le hle with hlt | rfl
  · exact of_lt hn hlt
  · exact .tail _ (h rfl)

end Precedes

/-- A character with fewer bytes has a smaller first byte. Of as many bytes, those in front are the
higher digits of the number of the character. -/
theorem precedes_utf8EncodeChar {c d : Char} (h : c < d) :
    Precedes (String.utf8EncodeChar c) (String.utf8EncodeChar d) := by
  have hlt : c.val.toNat < d.val.toNat := h
  have hd : d.val.toNat < 0xD800 ∨ 0xDFFF < d.val.toNat ∧ d.val.toNat < 0x110000 := d.valid
  unfold String.utf8EncodeChar
  generalize c.val.toNat = m at hlt
  generalize d.val.toNat = n at hlt hd
  dsimp only
  split
  · split
    · exact .of_lt (by omega) (by omega)
    · split
      · exact .of_lt (by omega) (by omega)
      · split <;> exact .of_lt (by omega) (by omega)
  · rw [if_neg (show ¬ n ≤ 127 by omega)]
    split
    · split
      · exact .of_le (by omega) (by omega) fun h₁ => .of_lt (by omega) (by omega)
      · split <;> exact .of_lt (by omega) (by omega)
    · rw [if_neg (show ¬ n ≤ 2047 by omega)]
      split
      · split
        · refine .of_le (by omega) (by omega) fun h₁ => ?_
          exact .of_le (by omega) (by omega) fun h₂ => .of_lt (by omega) (by omega)
        · exact .of_lt (by omega) (by omega)
      · rw [if_neg (show ¬ n ≤ 65535 by omega)]
        refine .of_le (by omega) (by omega) fun h₁ => ?_
        refine .of_le (by omega) (by omega) fun h₂ => ?_
        exact .of_le (by omega) (by omega) fun h₃ => .of_lt (by omega) (by omega)

theorem flatMap_utf8EncodeChar_lt {cs ds : List Char} (h : List.Lex (· < ·) cs ds) :
    cs.flatMap String.utf8EncodeChar < ds.flatMap String.utf8EncodeChar := by
  induction h with
  | @nil d ds =>
    obtain ⟨byte, more, hd⟩ := List.exists_cons_of_ne_nil (String.utf8EncodeChar_ne_nil (c := d))
    rw [List.flatMap_nil, List.flatMap_cons, hd]
    exact List.nil_lt_cons _ _
  | cons _ ih =>
    rw [List.flatMap_cons, List.flatMap_cons]
    exact List.append_left_lt ih
  | rel hcd =>
    rw [List.flatMap_cons, List.flatMap_cons]
    exact ((precedes_utf8EncodeChar hcd).append _ _).lt

theorem encode_lt_encode {a b : String} (h : a < b) : encode a < encode b :=
  flatMap_utf8EncodeChar_lt h

end TerminalShell.Text.Utf8
