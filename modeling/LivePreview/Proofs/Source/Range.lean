import LivePreview.Proofs.Source.Mark

/-!
# The range of an offset

The code ranges of a source are made of whole characters, stand in the order of the source and have
at least one character between them. So a search by halves for the first range that ends behind an
offset comes to the range that the offset lies in, and an offset that lies in none is no code.
-/
namespace LivePreview.Source

open LivePreview.Text

/-! ### What the reader collects -/

namespace Reader

/-- The ranges, the last one first, are parts of what was read, and a character stands between each
and the next. -/
structure Collected (read : List Char) (code : List Span) : Prop where
  apart : code.Pairwise fun later earlier => earlier.stop < later.start
  covers : ∀ span ∈ code, ∃ part, part ≠ [] ∧ span.Covers read part

namespace Collected

variable {read : List Char} {code : List Span}

theorem empty : Collected [] [] := ⟨.nil, fun _ hm => nomatch hm⟩

theorem bounds (h : Collected read code) {span : Span} (hm : span ∈ code) :
    span.start < span.stop ∧ span.stop ≤ byteLength read := by
  obtain ⟨part, hne, hp⟩ := h.covers span hm
  have hpos := byteLength_pos hne
  have hstop := hp.stop_eq
  exact ⟨by omega, hp.stop_le⟩

/-- The character behind what was read is not marked. -/
theorem skip (h : Collected read code) (c : Char) : Collected (read ++ [c]) code where
  apart := h.apart
  covers := fun span hm => by
    obtain ⟨part, hne, hp⟩ := h.covers span hm
    exact ⟨part, hne, hp.append [c]⟩

/-- The character behind what was read is marked. -/
theorem extend (h : Collected read code) (c : Char) :
    Collected (read ++ [c]) (extend code (byteLength read) c.utf8Size) := by
  have hnew : (⟨byteLength read, byteLength read + c.utf8Size⟩ : Span).Covers (read ++ [c]) [c] :=
    ⟨read, [], by simp, by simp⟩
  have hkept := (h.skip c).covers
  cases code with
  | nil =>
    exact ⟨List.pairwise_singleton _ _,
      fun span hm => List.mem_singleton.mp hm ▸ ⟨[c], List.cons_ne_nil _ _, hnew⟩⟩
  | cons last rest =>
    obtain ⟨hlast, hrest⟩ := List.pairwise_cons.mp h.apart
    have hbounds := h.bounds List.mem_cons_self
    rw [Reader.extend]
    split
    · rename_i htouch
      obtain ⟨part, -, hp⟩ := h.covers last List.mem_cons_self
      exact ⟨List.pairwise_cons.mpr ⟨hlast, hrest⟩, List.forall_mem_cons.mpr
        ⟨⟨part ++ [c], by simp, hp.concat htouch c⟩, (List.forall_mem_cons.mp hkept).2⟩⟩
    · rename_i hgap
      -- The last range does not reach the character, and the others end before that one begins.
      have hbefore : ∀ span ∈ last :: rest, span.stop < byteLength read := by
        refine List.forall_mem_cons.mpr ⟨Nat.lt_of_le_of_ne hbounds.2 hgap, fun span hm => ?_⟩
        have hstart := hlast span hm
        omega
      exact ⟨List.pairwise_cons.mpr ⟨hbefore, h.apart⟩,
        List.forall_mem_cons.mpr ⟨⟨[c], List.cons_ne_nil _ _, hnew⟩, hkept⟩⟩

theorem step {r : Reader} (h : Collected read r.code) (ho : r.offset = byteLength read) (c : Char)
    (next : Option Char) : Collected (read ++ [c]) (r.step c next).code := by
  rcases r.code_step c next with ⟨-, hc⟩ | ⟨-, hc⟩
  · rw [hc, ho]
    exact h.extend c
  · rw [hc]
    exact h.skip c

theorem run {r : Reader} (h : Collected read r.code) (ho : r.offset = byteLength read)
    (cs : List Char) : Collected (read ++ cs) (r.run cs).code := by
  induction cs generalizing read r with
  | nil => rwa [List.append_nil]
  | cons c cs ih =>
    have hoffset : (r.step c cs.head?).offset = byteLength (read ++ [c]) := by
      rw [offset_step, ho, byteLength_append, byteLength_cons, byteLength_nil, Nat.add_zero]
    rw [Reader.run, ← List.singleton_append, ← List.append_assoc]
    exact ih (h.step ho c _) hoffset

end Collected

end Reader

/-- What a whole pass collects. -/
theorem collected_ofSource (source : List Char) (markup : Bool) :
    Reader.Collected source (CodeMap.ofSource source markup).code.reverse := by
  have hstart : Reader.Collected [] ({ markup } : Reader).code := .empty
  rw [CodeMap.ofSource, Reader.code_finish, List.reverse_reverse]
  exact hstart.run rfl source

/-! ### Searching by halves -/

/-- A search among `size` places from `base` on for the first that does not satisfy the condition.
What is left is halved until it is one place. -/
def bisect (p : Nat → Bool) (base size : Nat) : Nat :=
  if size ≤ 1 then
    if size = 1 && p base then base + 1 else base
  else
    let half := size / 2
    bisect p (if p (base + half) then base + half else base) (size - half)
termination_by size

/-- Places that satisfy the condition up to some point and not from there on are parted at that
point. -/
theorem bisect_eq {p : Nat → Bool} {base size point : Nat} (hl : base ≤ point)
    (hu : point ≤ base + size) (hbelow : ∀ i, base ≤ i → i < point → p i = true)
    (habove : ∀ i, point ≤ i → i < base + size → p i = false) : bisect p base size = point := by
  induction size using Nat.strongRecOn generalizing base with
  | ind size ih =>
    rw [bisect]
    by_cases hsize : size ≤ 1
    · rw [if_pos hsize]
      by_cases hpoint : base < point
      · have hp := hbelow base (Nat.le_refl _) hpoint
        obtain rfl : size = 1 := by omega
        rw [hp]
        show base + 1 = point
        omega
      · obtain rfl : base = point := by omega
        rw [if_neg]
        simp only [Bool.and_eq_true, decide_eq_true_eq, not_and]
        rintro rfl
        rw [habove base (Nat.le_refl _) (by omega)]
        exact Bool.false_ne_true
    · rw [if_neg hsize]
      dsimp only
      have hless : size - size / 2 < size := by omega
      by_cases hmiddle : base + size / 2 < point
      · rw [if_pos (hbelow _ (by omega) hmiddle)]
        exact ih _ hless (by omega) (by omega) (fun i hi => hbelow i (by omega))
          fun i hi hlt => habove i hi (by omega)
      · rw [habove _ (by omega) (by omega), if_neg Bool.false_ne_true]
        exact ih _ hless hl (by omega) hbelow fun i hi hlt => habove i hi (by omega)

namespace CodeMap

/-- The place of the first range that ends behind the offset, as a search by halves finds it. -/
def place (map : CodeMap) (offset : Nat) : Nat :=
  bisect (fun i => map.code[i]?.any (·.stop ≤ offset)) 0 map.code.length

variable {map : CodeMap} {offset : Nat}

/-- The search by halves comes to the point where the ranges that end behind the offset begin. -/
theorem place_eq {before behind : List Span} (hcode : map.code = before ++ behind)
    (hbefore : ∀ span ∈ before, span.stop ≤ offset)
    (hbehind : ∀ span ∈ behind, offset < span.stop) : map.place offset = before.length := by
  rw [place, hcode]
  refine bisect_eq (Nat.zero_le _) (by simp) (fun i _ hi => ?_) fun i hi _ => ?_
  · rw [List.getElem?_append_left hi, List.getElem?_eq_getElem hi, Option.any_some]
    exact decide_eq_true (hbefore _ (List.getElem_mem hi))
  · rw [List.getElem?_append_right hi]
    cases hfound : behind[i - before.length]? with
    | none => rfl
    | some span =>
      have hlt := hbehind span (List.mem_of_getElem? hfound)
      rw [Option.any_some]
      exact decide_eq_false (by omega)

/-- Where the ends of the ranges increase, the search by halves finds the first range that ends
behind the offset. -/
theorem getElem?_place (h : map.code.Pairwise fun a b => a.stop < b.stop) (offset : Nat) :
    map.code[map.place offset]? =
      (map.code.dropWhile fun span => span.stop ≤ offset).head? := by
  let ends := fun span : Span => decide (span.stop ≤ offset)
  have hcode : map.code = map.code.takeWhile ends ++ map.code.dropWhile ends :=
    List.takeWhile_append_dropWhile.symm
  have hbefore : ∀ span ∈ map.code.takeWhile ends, span.stop ≤ offset := fun span hm =>
    of_decide_eq_true (List.all_eq_true.mp List.all_takeWhile span hm)
  have hbehind : ∀ span ∈ map.code.dropWhile ends, offset < span.stop := by
    have hsub := h.sublist (List.dropWhile_sublist ends)
    have hhead := List.head?_dropWhile_not ends map.code
    cases hrest : map.code.dropWhile ends with
    | nil => exact fun _ hm => nomatch hm
    | cons first rest =>
      rw [hrest] at hsub hhead
      have hfirst : offset < first.stop := by simpa [ends] using hhead
      refine List.forall_mem_cons.mpr ⟨hfirst, fun span hm => ?_⟩
      exact Nat.lt_trans hfirst ((List.pairwise_cons.mp hsub).1 span hm)
  have hfirst : (map.code.takeWhile ends ++ map.code.dropWhile ends)[
      (map.code.takeWhile ends).length]? = _ := List.getElem?_append_right (Nat.le_refl _)
  rw [← hcode, Nat.sub_self, ← List.head?_eq_getElem?] at hfirst
  rw [place_eq hcode hbefore hbehind, hfirst]

end CodeMap

/-- The ranges of a source are not empty, cut no character and have a gap between each and the next.
An offset is code exactly when one of them contains it, and a search by halves finds that one. -/
theorem codeMap_ranges (source : List Char) (markup : Bool) :
    let map := CodeMap.ofSource source markup
    (∀ span ∈ map.code, span.start < span.stop ∧ span.stop ≤ byteLength source ∧
        ∃ part, span.Covers source part) ∧
      (map.code.Pairwise fun a b => a.stop < b.start) ∧
      ∀ offset,
        (map.isCode offset = true ↔
          ∃ span ∈ map.code, span.start ≤ offset ∧ offset < span.stop) ∧
        map.code[map.place offset]?.any (·.contains offset) = map.isCode offset := by
  intro map
  have hcollected := collected_ofSource source markup
  have hspans : ∀ span ∈ map.code, span.start < span.stop ∧ span.stop ≤ byteLength source ∧
      ∃ part, span.Covers source part := by
    intro span hm
    have hm := List.mem_reverse.mpr hm
    obtain ⟨part, -, hp⟩ := hcollected.covers span hm
    obtain ⟨hpos, hle⟩ := hcollected.bounds hm
    exact ⟨hpos, hle, part, hp⟩
  have hapart : map.code.Pairwise fun a b => a.stop < b.start :=
    List.pairwise_reverse.mp hcollected.apart
  refine ⟨hspans, hapart, fun offset => ⟨?_, ?_⟩⟩
  · rw [Reader.isCode_iff (hapart.imp Nat.le_of_lt) fun span hm => (hspans span hm).1]
    simp only [Reader.Covers, Span.contains, Bool.and_eq_true, decide_eq_true_eq]
  · have hends : map.code.Pairwise fun a b => a.stop < b.stop :=
      hapart.imp_of_mem fun _ hb hlt => Nat.lt_trans hlt (hspans _ hb).1
    rw [CodeMap.getElem?_place hends, CodeMap.isCode]

end LivePreview.Source
