import LivePreview.Text.Span

/-!
# Byte positions

A position in a text is the length of what stands in front of it, so a span covers the middle one of
three parts.
-/
namespace LivePreview.Text

@[simp] theorem byteLength_nil : byteLength [] = 0 := rfl

@[simp] theorem byteLength_cons (c : Char) (cs : List Char) :
    byteLength (c :: cs) = c.utf8Size + byteLength cs := rfl

@[simp] theorem byteLength_append (front back : List Char) :
    byteLength (front ++ back) = byteLength front + byteLength back := by
  induction front with
  | nil => simp
  | cons c rest ih => simp [ih, Nat.add_assoc]

theorem byteLength_pos {cs : List Char} (h : cs ≠ []) : 0 < byteLength cs := by
  cases cs with
  | nil => exact absurd rfl h
  | cons c rest =>
    have hc := c.utf8Size_pos
    simp only [byteLength_cons]
    omega

theorem dropBytes_append (front back : List Char) :
    dropBytes (byteLength front) (front ++ back) = back := by
  induction front with
  | nil =>
    cases back with
    | nil => rfl
    | cons c rest =>
      have hc := c.utf8Size_pos
      rw [byteLength_nil, List.nil_append, dropBytes, if_neg (by omega)]
  | cons c rest ih =>
    rw [List.cons_append, dropBytes, byteLength_cons, if_pos (by omega), Nat.add_sub_cancel_left, ih]

theorem takeBytes_append (front back : List Char) :
    takeBytes (byteLength front) (front ++ back) = front := by
  have h := takeBytes_append_dropBytes (byteLength front) (front ++ back)
  rw [dropBytes_append] at h
  exact List.append_cancel_right h

theorem takeBytes_eq {source front back : List Char} {n : Nat} (h : source = front ++ back)
    (hn : n = byteLength front) : takeBytes n source = front := by
  rw [h, hn, takeBytes_append]

theorem dropBytes_eq {source front back : List Char} {n : Nat} (h : source = front ++ back)
    (hn : n = byteLength front) : dropBytes n source = back := by
  rw [h, hn, dropBytes_append]

/-- The middle of three parts, as a span of the whole. -/
theorem slice_append (front middle back : List Char) :
    slice (front ++ middle ++ back) ⟨byteLength front, byteLength front + byteLength middle⟩ =
      middle := by
  rw [slice, List.append_assoc, dropBytes_append, Nat.add_sub_cancel_left, takeBytes_append]

/-- Two ways to cut a text at one position cut it alike. -/
theorem append_inj_of_byteLength_eq {front front' back back' : List Char}
    (h : front ++ back = front' ++ back') (hl : byteLength front = byteLength front') :
    front = front' ∧ back = back' := by
  have hf := takeBytes_append front back
  rw [h, hl, takeBytes_append] at hf
  subst hf
  exact ⟨rfl, List.append_cancel_left h⟩

/-- Of two ways to cut a text, the earlier cut leaves a part of the later front. -/
theorem exists_of_byteLength_le {front front' back back' : List Char}
    (h : front ++ back = front' ++ back') (hl : byteLength front ≤ byteLength front') :
    ∃ middle, front' = front ++ middle ∧ back = middle ++ back' := by
  rcases List.append_eq_append_iff.mp h with ⟨middle, hf, hb⟩ | ⟨middle, hf, hb⟩
  · exact ⟨middle, hf, hb⟩
  · subst hf
    rw [byteLength_append] at hl
    have hm : middle = [] := Decidable.byContradiction fun hne => by
      have hpos := byteLength_pos hne
      omega
    subst hm
    exact ⟨[], by simp, by simpa using hb.symm⟩

/-! ### Spans of parts -/

/-- The span is that of a part of the text, so it lies in the text and cuts no character. -/
def Span.Covers (cs : List Char) (span : Span) (part : List Char) : Prop :=
  ∃ front back, cs = front ++ (part ++ back) ∧
    span = ⟨byteLength front, byteLength front + byteLength part⟩

namespace Span.Covers

variable {cs part : List Char} {span : Span}

theorem stop_eq (h : span.Covers cs part) : span.stop = span.start + byteLength part := by
  obtain ⟨front, back, _, rfl⟩ := h
  rfl

theorem stop_le (h : span.Covers cs part) : span.stop ≤ byteLength cs := by
  obtain ⟨front, back, rfl, rfl⟩ := h
  simp only [byteLength_append]
  omega

/-- A part of a text is a part of whatever begins with the text. -/
theorem append (h : span.Covers cs part) (behind : List Char) :
    span.Covers (cs ++ behind) part := by
  obtain ⟨front, back, rfl, hspan⟩ := h
  exact ⟨front, back ++ behind, by simp only [List.append_assoc], hspan⟩

/-- A part at the end of a text takes in the character behind the text. -/
theorem concat (h : span.Covers cs part) (he : span.stop = byteLength cs) (c : Char) :
    (⟨span.start, byteLength cs + c.utf8Size⟩ : Span).Covers (cs ++ [c]) (part ++ [c]) := by
  obtain ⟨front, back, rfl, rfl⟩ := h
  obtain rfl : back = [] := Decidable.byContradiction fun hne => by
    have hpos := byteLength_pos hne
    simp only [byteLength_append] at he
    omega
  refine ⟨front, [], by simp, ?_⟩
  simp only [byteLength_append, byteLength_cons, byteLength_nil, Span.mk.injEq, true_and]
  omega

end Span.Covers

end LivePreview.Text
