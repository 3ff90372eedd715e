import Mathlib.Algebra.Group.Nat.Defs
import LivePreview.Binary.Codec

/-!
# Reading back what was written

A coding is `Faithful` when its decoder finds, in front of any bytes, the value that was written and
leaves those bytes alone. Numbers, texts, optional values and lists are, at every length that a
number of eight bytes can state.
-/
namespace LivePreview.Binary

variable {α : Type}

/-! ### Numbers -/

theorem readLittleEndian_append {width n : Nat} (h : n < 256 ^ width) (rest : Bytes) :
    readLittleEndian width (littleEndian width n ++ rest) = some (n, rest) := by
  induction width generalizing n with
  | zero =>
    obtain rfl : n = 0 := by omega
    rfl
  | succ width ih =>
    have hhigh : n / 256 < 256 ^ width := by
      rw [Nat.pow_succ] at h
      exact Nat.div_lt_of_lt_mul (by omega)
    have hlow : (UInt8.ofNat (n % 256)).toNat = n % 256 :=
      UInt8.toNat_ofNat_of_lt' (Nat.mod_lt n (by decide))
    rw [littleEndian, List.cons_append, readLittleEndian, ih hhigh, Option.map_some, hlow]
    exact congrArg (fun value => some (value, rest)) (Nat.mod_add_div n 256)

theorem ofNat_lt_marker16_iff {n : Nat} (h : n < UInt8.size) :
    UInt8.ofNat n < marker16 ↔ n < 251 := by
  rw [UInt8.lt_iff_toNat_lt, UInt8.toNat_ofNat_of_lt' h]
  exact Iff.rfl

theorem decodeNat_append {n : Nat} (h : n < UInt64.size) (rest : Bytes) :
    decodeNat (encodeNat n ++ rest) = some (n, rest) := by
  rw [encodeNat]
  split
  · rename_i hn
    have hsize : n < UInt8.size := Nat.lt_trans hn (by decide)
    rw [List.singleton_append, decodeNat, if_pos ((ofNat_lt_marker16_iff hsize).mpr hn),
      UInt8.toNat_ofNat_of_lt' hsize]
  · split
    · rename_i hn
      exact readLittleEndian_append hn rest
    · split
      · rename_i hn
        exact readLittleEndian_append hn rest
      · exact readLittleEndian_append h rest

theorem encodeNat_ne_nil (n : Nat) : encodeNat n ≠ [] := by
  rw [encodeNat]
  split
  · exact List.cons_ne_nil _ _
  · split
    · exact List.cons_ne_nil _ _
    · split <;> exact List.cons_ne_nil _ _

/-- The number of a variant takes one byte. -/
theorem decodeTag_append {tag : Nat} (h : tag < 251) (rest : Bytes) :
    decodeTag (encodeNat tag ++ rest) = some (tag, rest) := by
  have hsize : tag < UInt8.size := Nat.lt_trans h (by decide)
  have hne : UInt8.ofNat tag ≠ marker64 := by
    intro he
    have hvalue := congrArg UInt8.toNat he
    rw [UInt8.toNat_ofNat_of_lt' hsize] at hvalue
    exact absurd (hvalue ▸ h) (by decide)
  have hdecode := decodeNat_append (Nat.lt_trans hsize (by decide)) rest
  rw [encodeNat, if_pos h] at hdecode ⊢
  rw [List.singleton_append, decodeTag, if_neg hne]
  exact hdecode

/-! ### Texts -/

/-- A text is read back when eight bytes can state its length. -/
theorem decodeString_append {text : String} (h : text.utf8ByteSize < UInt64.size) (rest : Bytes) :
    decodeString (encodeString text ++ rest) = some (text, rest) := by
  have hbytes : text.toUTF8.data.toList.length < UInt64.size := h
  have htext : String.fromUTF8? text.toUTF8 = some text := dif_pos text.isValidUTF8
  rw [encodeString, decodeString, List.append_assoc, decodeNat_append hbytes]
  simp only [Option.bind_eq_bind, Option.bind_some, List.length_append, List.take_left,
    List.drop_left, Array.toArray_toList, htext]
  exact if_neg (by omega)

/-! ### Codings -/

/-- What was written is read back, with any bytes behind it. The condition on the length is that of
memory with addresses of eight bytes. -/
def Faithful (encode : α → Bytes) (decode : Decoder α) : Prop :=
  ∀ a rest, (encode a).length < UInt64.size → decode (encode a ++ rest) = some (a, rest)

namespace Faithful

variable {encode : α → Bytes} {decode : Decoder α}

/-- No written form is the beginning of another one. -/
theorem eq_of_append_eq (h : Faithful encode decode) {a b : α} {rest rest' : Bytes}
    (ha : (encode a).length < UInt64.size) (hb : (encode b).length < UInt64.size)
    (he : encode a ++ rest = encode b ++ rest') : a = b ∧ rest = rest' := by
  have hread := h a rest ha
  rw [he, h b rest' hb] at hread
  exact (Prod.mk.inj (Option.some.inj hread)).imp Eq.symm Eq.symm

theorem string : Faithful encodeString decodeString := by
  intro text rest hlength
  rw [encodeString, List.length_append] at hlength
  exact decodeString_append (Nat.lt_of_le_of_lt (Nat.le_add_left _ _) hlength) rest

theorem option (h : Faithful encode decode) :
    Faithful (encodeOption encode) (decodeOption decode) := by
  intro value rest hlength
  cases value with
  | none => rfl
  | some a =>
    have ha : (encode a).length < UInt64.size := Nat.lt_of_succ_lt hlength
    change (decode (encode a ++ rest)).map _ = _
    rw [h a rest ha]
    rfl

theorem decodeItems_append (h : Faithful encode decode) (items : List α) (rest : Bytes)
    (hlength : (items.flatMap encode).length < UInt64.size) :
    decodeItems decode items.length (items.flatMap encode ++ rest) = some (items, rest) := by
  induction items with
  | nil => rfl
  | cons a items ih =>
    rw [List.flatMap_cons, List.length_append] at hlength
    rw [List.flatMap_cons, List.append_assoc, List.length_cons, decodeItems, h a _ (by omega)]
    simp only [Option.bind_eq_bind, Option.bind_some, ih (by omega)]

/-- Items that take space each cannot be more than the bytes they take. -/
theorem length_le_flatMap (hne : ∀ a, encode a ≠ []) (items : List α) :
    items.length ≤ (items.flatMap encode).length := by
  induction items with
  | nil => exact Nat.le_refl 0
  | cons a items ih =>
    have ha : 0 < (encode a).length := List.length_pos_iff.mpr (hne a)
    rw [List.flatMap_cons, List.length_append, List.length_cons]
    omega

theorem list (h : Faithful encode decode) (hne : ∀ a, encode a ≠ []) :
    Faithful (encodeList encode) (decodeList decode) := by
  intro values rest hlength
  rw [encodeList, List.length_append] at hlength
  have hcount := length_le_flatMap hne values
  rw [encodeList, decodeList, List.append_assoc, decodeNat_append (by omega)]
  exact h.decodeItems_append values rest (by omega)

end Faithful

theorem encodeString_ne_nil (text : String) : encodeString text ≠ [] :=
  List.append_ne_nil_of_left_ne_nil (encodeNat_ne_nil _) _

end LivePreview.Binary
