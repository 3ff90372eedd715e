import Mathlib.Tactic.SplitIfs
import LivePreview.Fingerprint

/-!
# Bytes of texts

The bytes of a text are those of its characters one after the other. They tell the text, they are in
the order in which texts are, and none is as large as `0xF8`.
-/
namespace LivePreview.Text

open Fingerprint (utf8)

theorem utf8_eq_flatMap (text : String) : utf8 text = text.toList.flatMap String.utf8EncodeChar := by
  have h : text.toByteArray = text.toList.utf8Encode := String.utf8Encode_toList.symm
  rw [utf8, String.toUTF8_eq_toByteArray, h, List.utf8Encode, List.toList_data_toByteArray]

theorem utf8_injective : Function.Injective utf8 := fun _ _ h =>
  String.toByteArray_inj.mp (ByteArray.ext (Array.toList_inj.mp h))

theorem toNat_lt_of_mem_utf8EncodeChar (c : Char) :
    ∀ byte ∈ String.utf8EncodeChar c, byte.toNat < 0xF8 := by
  rw [String.utf8EncodeChar]
  generalize c.val.toNat = point
  split_ifs <;>
    simp only [List.forall_mem_cons, List.not_mem_nil, false_implies, implies_true, and_true,
      UInt8.toNat_ofNat'] <;>
    omega

/-- The bytes from `0xF8` on are in no text. -/
theorem lt_of_mem_utf8 {text : String} {byte : UInt8} (h : byte ∈ utf8 text) : byte < 0xF8 := by
  rw [utf8_eq_flatMap] at h
  obtain ⟨c, -, hc⟩ := List.mem_flatMap.mp h
  exact UInt8.lt_iff_toNat_lt.mpr (toNat_lt_of_mem_utf8EncodeChar c byte hc)

/-- What stands behind two different characters does not decide their order. -/
theorem utf8EncodeChar_append_lt {c d : Char} (h : c < d) (behind behind' : List UInt8) :
    String.utf8EncodeChar c ++ behind < String.utf8EncodeChar d ++ behind' := by
  have hlt : c.val.toNat < d.val.toNat := h
  have hd : d.val.toNat < 0x110000 := by
    rcases d.valid with h | h <;> omega
  rw [String.utf8EncodeChar, String.utf8EncodeChar]
  generalize c.val.toNat = point at *
  generalize d.val.toNat = point' at *
  -- More bytes begin with a greater one; of equally many the digits in base 64 are compared.
  split_ifs <;>
    simp (disch := omega) only [List.cons_append, List.nil_append, List.cons_lt_cons_iff,
      UInt8.lt_iff_toNat_lt, ← UInt8.toNat_inj, UInt8.toNat_ofNat', Nat.mod_eq_of_lt] <;>
    omega

theorem flatMap_utf8EncodeChar_lt {cs ds : List Char} (h : cs < ds) :
    cs.flatMap String.utf8EncodeChar < ds.flatMap String.utf8EncodeChar := by
  induction h with
  | nil =>
    rename_i d rest
    rw [List.flatMap_cons]
    obtain ⟨first, others, he⟩ := List.exists_cons_of_ne_nil (String.utf8EncodeChar_ne_nil (c := d))
    rw [he]
    exact .nil
  | rel h => exact utf8EncodeChar_append_lt h _ _
  | cons _ ih => exact List.append_left_lt ih

/-- Texts are ordered as their bytes. -/
theorem utf8_lt {a b : String} (h : a < b) : utf8 a < utf8 b := by
  rw [utf8_eq_flatMap, utf8_eq_flatMap]
  exact flatMap_utf8EncodeChar_lt (String.lt_iff.mp h)

end LivePreview.Text
