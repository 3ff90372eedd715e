import Mathlib.Data.List.Pairwise
import LivePreview.Proofs.Text.Bytes

/-!
# Edits at once

`substitute` makes all edits of a text at the same time: it asks of each position which edit begins
there and whether any covers it. Edits of separate parts of a text are made so, in whatever order
they are given, and none of them is dropped. `Replaces` says it of the text that comes out: what the
edits leave alone stands there in its order, with their texts in between.
-/
namespace LivePreview.Text

/-- The text behind `offset` with the edits made. Where an edit begins stands its text, and a
character that an edit covers is left out. -/
def substitute (edits : List Edit) (offset : Nat) : List Char → List Char
  | [] => []
  | c :: rest =>
    ((edits.find? (·.span.start = offset)).map (·.text.toList)).getD [] ++
      (if edits.any (·.span.contains offset) then [] else [c]) ++
        substitute edits (offset + c.utf8Size) rest

/-! ### Separate edits -/

/-- What the two edits replace has nothing in common. -/
def Edit.Apart (a b : Edit) : Prop := a.span.stop ≤ b.span.start ∨ b.span.stop ≤ a.span.start

instance : Std.Symm Edit.Apart := ⟨fun _ _ => Or.symm⟩

/-- Each edit replaces a part of the text that is not empty, and these parts are apart. -/
structure Separate (cs : List Char) (edits : List Edit) : Prop where
  covers : ∀ edit ∈ edits, ∃ part, part ≠ [] ∧ edit.span.Covers cs part
  apart : edits.Pairwise Edit.Apart

namespace Separate

variable {cs : List Char} {edits edits' : List Edit}

theorem start_lt_stop (h : Separate cs edits) {edit : Edit} (hm : edit ∈ edits) :
    edit.span.start < edit.span.stop := by
  obtain ⟨part, hne, hcovers⟩ := h.covers edit hm
  have hpos := byteLength_pos hne
  rw [hcovers.stop_eq]
  omega

theorem perm (h : Separate cs edits) (hp : edits.Perm edits') : Separate cs edits' where
  covers edit hm := h.covers edit (hp.mem_iff.mpr hm)
  apart := (hp.pairwise_iff fun h => Std.Symm.symm _ _ h).mp h.apart

/-- No two edits begin at one position. -/
theorem eq_of_start_eq (h : Separate cs edits) {a b : Edit} (ha : a ∈ edits) (hb : b ∈ edits)
    (he : a.span.start = b.span.start) : a = b := by
  by_contra hne
  have hastop := h.start_lt_stop ha
  have hbstop := h.start_lt_stop hb
  rcases h.apart.forall ha hb hne with hle | hle <;> omega

/-- In the order of their starts, each edit ends in front of those behind it. -/
theorem pairwise_sortOn (h : Separate cs edits) :
    (sortOn (·.span.start) edits).Pairwise fun a b => a.span.stop ≤ b.span.start := by
  have hs := h.perm (sortOn_perm (·.span.start) edits).symm
  refine List.Pairwise.imp_of_mem ?_ ((LivePreview.pairwise_sortOn _ edits).and hs.apart)
  rintro a b ha hb ⟨hle, hapart⟩
  have hastop := hs.start_lt_stop ha
  have hbstop := hs.start_lt_stop hb
  rcases hapart with h | h <;> omega

end Separate

/-! ### Positions -/

section Positions

variable {edits : List Edit} {offset : Nat}

theorem substitute_append (front rest : List Char) :
    substitute edits offset (front ++ rest) =
      substitute edits offset front ++ substitute edits (offset + byteLength front) rest := by
  induction front generalizing offset with
  | nil => rfl
  | cons c front ih =>
    rw [List.cons_append, substitute, substitute, ih, byteLength_cons]
    simp only [List.append_assoc, Nat.add_assoc]

theorem not_contains {edit : Edit} {n : Nat} (h : n < edit.span.start ∨ edit.span.stop ≤ n) :
    edit.span.contains n = false := by
  simp only [Span.contains, Bool.and_eq_false_iff, decide_eq_false_iff_not]
  omega

/-- In front of all edits the text stays. -/
theorem substitute_of_le {cs : List Char}
    (h : ∀ edit ∈ edits, offset + byteLength cs ≤ edit.span.start) :
    substitute edits offset cs = cs := by
  induction cs generalizing offset with
  | nil => rfl
  | cons c rest ih =>
    have hc := c.utf8Size_pos
    have hbefore : ∀ edit ∈ edits, offset < edit.span.start := fun edit hm => by
      have hle := h edit hm
      rw [byteLength_cons] at hle
      omega
    have hfind : edits.find? (·.span.start = offset) = none :=
      List.find?_eq_none.mpr fun edit hm => by simpa using Nat.ne_of_gt (hbefore edit hm)
    have hany : edits.any (·.span.contains offset) = false :=
      List.any_eq_false.mpr fun edit hm => by simp [not_contains (.inl (hbefore edit hm))]
    have hrest : substitute edits (offset + c.utf8Size) rest = rest := ih fun edit hm => by
      rw [Nat.add_assoc]
      exact h edit hm
    rw [substitute, hfind, hany, hrest]
    rfl

/-- What one edit covers is left out where no other begins. -/
theorem substitute_of_covered {edit : Edit} (hm : edit ∈ edits) {cs : List Char}
    (hstart : edit.span.start ≤ offset) (hstop : offset + byteLength cs ≤ edit.span.stop)
    (h : ∀ other ∈ edits, other.span.start < offset ∨ offset + byteLength cs ≤ other.span.start) :
    substitute edits offset cs = [] := by
  induction cs generalizing offset with
  | nil => rfl
  | cons c rest ih =>
    have hc := c.utf8Size_pos
    rw [byteLength_cons, ← Nat.add_assoc] at hstop h
    have hfind : edits.find? (·.span.start = offset) = none :=
      List.find?_eq_none.mpr fun other hother => by
        have hne := h other hother
        simp only [decide_eq_true_eq]
        omega
    have hcovered : edit.span.contains offset = true := by
      simp only [Span.contains, Bool.and_eq_true, decide_eq_true_eq]
      omega
    have hany : edits.any (·.span.contains offset) = true :=
      List.any_eq_true.mpr ⟨edit, hm, hcovered⟩
    have hrest : substitute edits (offset + c.utf8Size) rest = [] :=
      ih (by omega) hstop fun other hother => (h other hother).imp_left fun hlt => by omega
    rw [substitute, hfind, hany, hrest]
    rfl

/-- Behind an edit the others are made as without it. -/
theorem substitute_cons_of_stop_le {edit : Edit} (hlt : edit.span.start < edit.span.stop)
    (hstop : edit.span.stop ≤ offset) (cs : List Char) :
    substitute (edit :: edits) offset cs = substitute edits offset cs := by
  induction cs generalizing offset with
  | nil => rfl
  | cons c rest ih =>
    have hne : edit.span.start ≠ offset := by omega
    rw [substitute, substitute, ih (by omega), List.find?_cons_of_neg (by simpa using hne),
      List.any_cons, not_contains (.inr hstop), Bool.false_or]

end Positions

/-! ### The edits one after the other -/

/-- An edit takes the place of its part, and what is left stands behind it. -/
theorem substitute_part {edit : Edit} {edits : List Edit} {kept part : List Char} {offset : Nat}
    (hne : part ≠ [])
    (hspan : edit.span = ⟨offset + byteLength kept, offset + byteLength kept + byteLength part⟩)
    (h : ∀ other ∈ edits, edit.span.stop ≤ other.span.start) (rest : List Char) :
    substitute (edit :: edits) offset (kept ++ (part ++ rest)) =
      kept ++ (edit.text.toList ++ substitute edits edit.span.stop rest) := by
  have hpos := byteLength_pos hne
  have hstart : edit.span.start = offset + byteLength kept := congrArg Span.start hspan
  have hstop : edit.span.stop = offset + byteLength kept + byteLength part :=
    congrArg Span.stop hspan
  have hkept : substitute (edit :: edits) offset kept = kept := by
    refine substitute_of_le fun other hm => ?_
    rcases List.mem_cons.mp hm with rfl | hm
    · omega
    · have hle := h other hm
      omega
  have hpart : substitute (edit :: edits) (offset + byteLength kept) part = edit.text.toList := by
    -- The first character of the part brings the whole text of the edit, the others bring nothing.
    obtain ⟨c, others, rfl⟩ := List.exists_cons_of_ne_nil hne
    have hc := c.utf8Size_pos
    rw [byteLength_cons] at hstop
    have hothers :
        substitute (edit :: edits) (offset + byteLength kept + c.utf8Size) others = [] := by
      refine substitute_of_covered List.mem_cons_self (by omega) (by omega) fun other hm => ?_
      rcases List.mem_cons.mp hm with rfl | hm
      · omega
      · have hle := h other hm
        omega
    have hany : edit.span.contains (offset + byteLength kept) = true := by
      simp only [Span.contains, Bool.and_eq_true, decide_eq_true_eq]
      omega
    rw [substitute, hothers, List.find?_cons_of_pos (by simpa using hstart), List.any_cons, hany]
    simp
  rw [substitute_append, substitute_append, hkept, hpart, ← hstop,
    substitute_cons_of_stop_le (by omega) (Nat.le_refl _)]

/-- The last text is the one behind `offset` with the part of each edit replaced by what the edit
puts there. The edits stand in the order of the text, and what is in front of each and behind the
last is kept. -/
inductive Replaces : Nat → List Char → List Edit → List Char → Prop
  | kept (offset : Nat) (rest : List Char) : Replaces offset rest [] rest
  | edit {offset : Nat} {rest out : List Char} {edits : List Edit} (kept : List Char)
      {part : List Char} (text : String) (hne : part ≠ [])
      (h : Replaces (offset + byteLength kept + byteLength part) rest edits out) :
      Replaces offset (kept ++ (part ++ rest))
        (⟨⟨offset + byteLength kept, offset + byteLength kept + byteLength part⟩, text⟩ :: edits)
        (kept ++ (text.toList ++ out))

namespace Replaces

variable {offset : Nat} {rest out : List Char} {edits : List Edit}

theorem le_start (h : Replaces offset rest edits out) :
    ∀ edit ∈ edits, offset ≤ edit.span.start := by
  induction h with
  | kept => exact fun _ hm => absurd hm List.not_mem_nil
  | edit kept text hne _ ih =>
    intro edit hm
    rcases List.mem_cons.mp hm with rfl | hm
    · exact Nat.le_add_right _ _
    · have hle := ih edit hm
      omega

/-- What the edits make one after the other they make at once. -/
theorem substitute_eq (h : Replaces offset rest edits out) :
    substitute edits offset rest = out := by
  induction h with
  | kept => exact substitute_of_le (by simp)
  | edit kept text hne h ih => rw [substitute_part hne rfl h.le_start, ih]

theorem splice_eq {front : List Char} (h : Replaces (byteLength front) rest edits out) :
    splice (front ++ rest) (byteLength front) edits = out := by
  -- In front stands what is done: it grows by the kept text and by the part of each edit.
  generalize hoffset : byteLength front = offset at h
  induction h generalizing front with
  | kept => rw [splice, ← hoffset, dropBytes_append]
  | @edit _ rest out _ kept part text hne h ih =>
    have hstart : byteLength front + byteLength kept = byteLength (front ++ kept) :=
      (byteLength_append _ _).symm
    have hstop : byteLength front + byteLength kept + byteLength part =
        byteLength (front ++ kept ++ part) := by
      rw [hstart, byteLength_append _ part]
    have hkept : slice (front ++ (kept ++ (part ++ rest)))
        ⟨byteLength front, byteLength front + byteLength kept⟩ = kept := by
      rw [← List.append_assoc]
      exact slice_append front kept _
    have happend : front ++ (kept ++ (part ++ rest)) = front ++ kept ++ part ++ rest := by simp
    subst hoffset
    rw [splice, if_neg (Nat.not_lt.mpr (Nat.le_add_right _ _)), hkept, happend, ih hstop.symm,
      List.append_assoc]

end Replaces

/-- Edits of parts that follow each other can be made one after the other. -/
theorem exists_replaces {front behind : List Char} {edits : List Edit}
    (hc : ∀ edit ∈ edits, ∃ part, part ≠ [] ∧ edit.span.Covers (front ++ behind) part)
    (hp : edits.Pairwise fun a b => a.span.stop ≤ b.span.start)
    (hf : ∀ edit ∈ edits, byteLength front ≤ edit.span.start) :
    ∃ out, Replaces (byteLength front) behind edits out := by
  induction edits generalizing front behind with
  | nil => exact ⟨behind, .kept _ _⟩
  | cons edit edits ih =>
    obtain ⟨⟨part, hne, lead, rest, htext, hspan⟩, hothers⟩ := List.forall_mem_cons.mp hc
    obtain ⟨hle, -⟩ := List.forall_mem_cons.mp hf
    obtain ⟨hstops, hp⟩ := List.pairwise_cons.mp hp
    have hstart : edit.span.start = byteLength lead := congrArg Span.start hspan
    obtain ⟨kept, rfl, rfl⟩ := exists_of_byteLength_le htext (hstart ▸ hle)
    have hstop : edit.span.stop = byteLength (front ++ kept ++ part) := by
      rw [hspan, byteLength_append _ part]
    have happend : front ++ (kept ++ (part ++ rest)) = front ++ kept ++ part ++ rest := by simp
    obtain ⟨out, h⟩ := ih (happend ▸ hothers) hp (hstop ▸ hstops)
    obtain ⟨span, text⟩ := edit
    obtain rfl : span = _ := hspan
    rw [byteLength_append, byteLength_append] at h
    rw [byteLength_append]
    exact ⟨_, .edit kept text hne h⟩

/-- One of several members is found whatever their order. -/
theorem find?_eq_of_perm {α : Type} {p : α → Bool} {xs ys : List α} (h : xs.Perm ys)
    (hu : ∀ a ∈ xs, ∀ b ∈ xs, p a = true → p b = true → a = b) : xs.find? p = ys.find? p := by
  cases hx : xs.find? p with
  | none =>
    exact (List.find?_eq_none.mpr fun a hm =>
      List.find?_eq_none.mp hx a (h.mem_iff.mpr hm)).symm
  | some a =>
    have ha := List.mem_of_find?_eq_some hx
    cases hy : ys.find? p with
    | none => exact absurd (List.find?_some hx) (List.find?_eq_none.mp hy a (h.mem_iff.mp ha))
    | some b =>
      have hb := h.mem_iff.mpr (List.mem_of_find?_eq_some hy)
      rw [hu a ha b hb (List.find?_some hx) (List.find?_some hy)]

theorem Separate.substitute_eq_of_perm {cs : List Char} {edits edits' : List Edit}
    (h : Separate cs edits) (hp : edits.Perm edits') (offset : Nat) (text : List Char) :
    substitute edits offset text = substitute edits' offset text := by
  induction text generalizing offset with
  | nil => rfl
  | cons c rest ih =>
    have hfind : edits.find? (·.span.start = offset) = edits'.find? (·.span.start = offset) := by
      -- No two edits begin at one offset, so the order does not decide which is found.
      refine find?_eq_of_perm hp fun a ha b hb hae hbe => h.eq_of_start_eq ha hb ?_
      rw [of_decide_eq_true hae, of_decide_eq_true hbe]
    rw [substitute, substitute, ih, hfind, hp.any_eq]

/-- Separate edits are made in the order of their starts, and none is dropped. -/
theorem Separate.replaces_applyEdits {source : String} {edits : List Edit}
    (h : Separate source.toList edits) :
    Replaces 0 source.toList (sortOn (·.span.start) edits) (applyEdits source edits).toList := by
  have hs := h.perm (sortOn_perm (·.span.start) edits).symm
  obtain ⟨out, hr⟩ : ∃ out, Replaces 0 source.toList (sortOn (·.span.start) edits) out :=
    @exists_replaces [] source.toList _ hs.covers h.pairwise_sortOn fun _ _ => Nat.zero_le _
  have hsplice : splice source.toList 0 (sortOn (·.span.start) edits) = out :=
    @Replaces.splice_eq _ out _ [] hr
  rwa [applyEdits, hsplice, String.toList_ofList]

/-- Separate edits are all made, each in its place. -/
theorem Separate.applyEdits_eq {source : String} {edits : List Edit}
    (h : Separate source.toList edits) :
    applyEdits source edits = String.ofList (substitute edits 0 source.toList) := by
  rw [h.substitute_eq_of_perm (sortOn_perm (·.span.start) edits).symm,
    h.replaces_applyEdits.substitute_eq, String.ofList_toList]

/-- The order in which separate edits are given does not matter: whatever it is, each edit's part is
replaced by what the edit puts there, and the text outside these parts is kept as it stands. -/
theorem Separate.applyEdits_commute {source : String} {edits edits' : List Edit}
    (h : Separate source.toList edits) (hp : edits'.Perm edits) :
    applyEdits source edits' = applyEdits source edits ∧
      ∀ out : String, applyEdits source edits = out ↔
        ∃ ordered, ordered.Perm edits ∧ Replaces 0 source.toList ordered out.toList := by
  have hall : ∀ {other : List Edit}, other.Perm edits →
      substitute other 0 source.toList = substitute edits 0 source.toList :=
    fun hother => (h.substitute_eq_of_perm hother.symm 0 source.toList).symm
  refine ⟨?_, fun out => ⟨?_, ?_⟩⟩
  · rw [(h.perm hp.symm).applyEdits_eq, h.applyEdits_eq, hall hp]
  · rintro rfl
    exact ⟨_, sortOn_perm _ _, h.replaces_applyEdits⟩
  · rintro ⟨ordered, hordered, hr⟩
    rw [h.applyEdits_eq, ← hall hordered, hr.substitute_eq, String.ofList_toList]

/-- Two edits that touch and one in front of them, given in two orders. -/
theorem applyEdits_commute_of_adjacent :
    let source := "é: ab\n"
    let first : Edit := ⟨⟨0, 2⟩, ""⟩
    let second : Edit := ⟨⟨4, 5⟩, "xyz"⟩
    let third : Edit := ⟨⟨5, 6⟩, "ñ"⟩
    Separate source.toList [second, first, third] ∧
      [third, second, first].Perm [second, first, third] ∧
      applyEdits source [third, second, first] = applyEdits source [second, first, third] ∧
      applyEdits source [second, first, third] = ": xyzñ\n" ∧
      ∃ ordered, ordered.Perm [second, first, third] ∧
        Replaces 0 source.toList ordered ": xyzñ\n".toList := by
  intro source first second third
  have h : Separate source.toList [second, first, third] := by
    refine ⟨?_, by simp [Edit.Apart, first, second, third]⟩
    simp only [List.forall_mem_cons]
    exact ⟨⟨['a'], by decide, "é: ".toList, "b\n".toList, by decide, by decide⟩,
      ⟨['é'], by decide, [], ": ab\n".toList, by decide, by decide⟩,
      ⟨['b'], by decide, "é: a".toList, ['\n'], by decide, by decide⟩, by simp⟩
  have hp : [third, second, first].Perm [second, first, third] := by decide
  obtain ⟨heq, hiff⟩ := h.applyEdits_commute hp
  have hout : applyEdits source [second, first, third] = ": xyzñ\n" := by decide
  exact ⟨h, hp, heq, hout, (hiff _).mp hout⟩

end LivePreview.Text
