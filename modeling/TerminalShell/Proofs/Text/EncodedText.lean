import Mathlib.Data.List.Basic
import TerminalShell.Text.Line
import TerminalShell.Text.Utf8RoundTrip

/-!
The bytes of an encoded text. A byte below 128 stands for the character of this number and occurs in
no other, so line ends can be looked for in the bytes.
-/
namespace TerminalShell.Text

namespace Utf8

theorem utf8EncodeChar_of_lt {c : Char} (h : c.toNat < 128) :
    String.utf8EncodeChar c = [UInt8.ofNat c.toNat] := by
  have hv : c.val.toNat ≤ 127 := Nat.le_of_lt_succ h
  simp only [String.utf8EncodeChar, hv, if_true]
  rfl

theorem le_toNat_of_mem_utf8EncodeChar {c : Char} (h : 128 ≤ c.toNat) {b : UInt8}
    (hb : b ∈ String.utf8EncodeChar c) : 128 ≤ b.toNat := by
  have hv : ¬ c.val.toNat ≤ 127 := Nat.not_le.mpr h
  simp only [String.utf8EncodeChar, hv, if_false] at hb
  split at hb
  · simp only [List.mem_cons, List.not_mem_nil, or_false] at hb
    rcases hb with rfl | rfl <;> rw [toNat_ofNat_of_lt (by omega)] <;> omega
  · split at hb
    · simp only [List.mem_cons, List.not_mem_nil, or_false] at hb
      rcases hb with rfl | rfl | rfl <;> rw [toNat_ofNat_of_lt (by omega)] <;> omega
    · simp only [List.mem_cons, List.not_mem_nil, or_false] at hb
      rcases hb with rfl | rfl | rfl | rfl <;> rw [toNat_ofNat_of_lt (by omega)] <;> omega

theorem mem_utf8EncodeChar_iff {a c : Char} (ha : a.toNat < 128) :
    UInt8.ofNat a.toNat ∈ String.utf8EncodeChar c ↔ c = a := by
  constructor
  · intro h
    by_cases hc : c.toNat < 128
    · rw [utf8EncodeChar_of_lt hc, List.mem_singleton] at h
      have hn := congrArg UInt8.toNat h
      rw [toNat_ofNat_of_lt (by omega), toNat_ofNat_of_lt (by omega)] at hn
      exact Char.toNat_inj.mp hn.symm
    · have := le_toNat_of_mem_utf8EncodeChar (Nat.not_lt.mp hc) h
      rw [toNat_ofNat_of_lt (by omega)] at this
      omega
  · rintro rfl
    rw [utf8EncodeChar_of_lt ha]
    exact List.mem_singleton_self _

theorem mem_encode_iff {a : Char} (ha : a.toNat < 128) (text : String) :
    UInt8.ofNat a.toNat ∈ encode text ↔ a ∈ text.toList := by
  simp only [encode, List.mem_flatMap, mem_utf8EncodeChar_iff ha, exists_eq_right]

theorem getLast?_of_getLast?_encode {a : Char} (ha : a.toNat < 128) {text : String}
    (h : (encode text).getLast? = some (UInt8.ofNat a.toNat)) : text.toList.getLast? = some a := by
  unfold encode at h
  rcases List.eq_nil_or_concat text.toList with hn | ⟨front, c, hc⟩
  · simp [hn] at h
  · rw [hc, List.concat_eq_append, List.flatMap_append, List.flatMap_singleton,
      List.getLast?_append_of_ne_nil _ String.utf8EncodeChar_ne_nil] at h
    rw [hc, List.concat_eq_append, List.getLast?_concat,
      (mem_utf8EncodeChar_iff ha).mp (List.mem_of_getLast? h)]

end Utf8

theorem dropReturn_concat (line : List UInt8) : dropReturn (line ++ [13]) = line := by
  simp [dropReturn]

/-- A text that ends in no carriage return has none to lose. -/
theorem dropReturn_encode {text : String} (h : text.toList.getLast? ≠ some '\r') :
    dropReturn (Utf8.encode text) = Utf8.encode text :=
  if_neg fun hl => h (Utf8.getLast?_of_getLast?_encode (by decide) hl)

/-- A text less the carriage return at its end, if it has one. -/
def withoutReturn (text : String) : String :=
  if text.toList.getLast? = some '\r' then String.ofList text.toList.dropLast else text

theorem dropReturn_encode_eq (text : String) :
    dropReturn (Utf8.encode text) = Utf8.encode (withoutReturn text) := by
  unfold withoutReturn
  split_ifs with h
  · have hcut : text.toList.dropLast ++ ['\r'] = text.toList := List.dropLast_append_getLast? _ h
    have hencode : Utf8.encode text = Utf8.encode (String.ofList text.toList.dropLast) ++ [13] := by
      rw [Utf8.encode, ← hcut]
      simp [Utf8.encode]
      rfl
    rw [hencode, dropReturn_concat]
  · exact dropReturn_encode h

namespace Utf8

theorem encode_append (a b : String) : encode (a ++ b) = encode a ++ encode b := by
  simp [encode]

/-- The bytes of some lines, each of them with a line feed. -/
def encodeLines (lines : List String) : List UInt8 := lines.flatMap fun line => encode line ++ [10]

theorem encodeLines_cons (line : String) (lines : List String) :
    encodeLines (line :: lines) = encode line ++ 10 :: encodeLines lines := by
  simp [encodeLines]

theorem encode_join_lines (lines : List String) :
    encode (String.join (lines.map (· ++ "\n"))) = encodeLines lines := by
  induction lines with
  | nil => rfl
  | cons line lines ih =>
    rw [List.map_cons, String.join_cons, encode_append, encode_append, ih]
    rfl

end Utf8

end TerminalShell.Text
