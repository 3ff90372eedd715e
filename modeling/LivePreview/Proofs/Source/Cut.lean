import LivePreview.Proofs.Source.Revision

/-!
# Revisions from edits

Edits that are made in a text from left to right take it apart into pieces. Each edit has a piece; one
that begins within the piece of an earlier edit is not made.
-/
namespace LivePreview.Source

open LivePreview.Text

/-- The edit that makes the source of a piece its target. -/
def Piece.edit? (front : List Char) : Piece → Option Edit
  | keep _ => none
  | swap quote old new =>
    some ⟨⟨byteLength front + quote.utf8Size, byteLength (front ++ quote :: old)⟩, String.ofList new⟩
  | drop statement breaks =>
    some ⟨⟨byteLength front, byteLength (front ++ statement)⟩,
      String.ofList (List.replicate breaks '\n')⟩

/-- The place of a piece that is made for an import site. -/
structure Cut where
  front : List Char
  piece : Piece
  behind : List Char
  edit : Edit
  /-- Where the specifier of the site is. -/
  siteAt : Nat

namespace Cut

def stop (cut : Cut) : Nat := byteLength (cut.front ++ cut.piece.source)

structure Fits (markup : Bool) (sites : List ImportSite) (source : List Char) (cut : Cut) : Prop where
  text : source = cut.front ++ (cut.piece.source ++ cut.behind)
  fits : cut.piece.Fits markup sites cut.front cut.behind
  edit : cut.piece.edit? cut.front = some cut.edit
  starts : byteLength cut.front < cut.siteAt
  stops : cut.siteAt ≤ cut.stop

/-- The later cut is behind the earlier one, or it is swallowed by it. -/
def Before (earlier later : Cut) : Prop :=
  earlier.stop ≤ byteLength later.front ∨
    later.edit.span.start < earlier.stop ∧ byteLength earlier.front < later.siteAt ∧
      later.siteAt ≤ earlier.stop

end Cut

variable {markup : Bool} {sites : List ImportSite} {source : List Char}

theorem Piece.bounds_of_edit? {front : List Char} {p : Piece} {edit : Edit}
    (h : p.edit? front = some edit) :
    byteLength front ≤ edit.span.start ∧ edit.span.stop = byteLength (front ++ p.source) := by
  cases p with
  | keep c => cases h
  | swap quote old new =>
    cases h
    exact ⟨Nat.le_add_right _ _, rfl⟩
  | drop statement breaks =>
    cases h
    exact ⟨Nat.le_refl _, rfl⟩

/-- An edit puts the target of its piece in the place of its source. -/
theorem splice_cut {front kept behind : List Char} {p : Piece} {edit : Edit}
    (hs : source = front ++ kept ++ (p.source ++ behind)) (he : p.edit? (front ++ kept) = some edit)
    (rest : List Edit) :
    splice source (byteLength front) (edit :: rest) =
      kept ++ (p.target ++ splice source (byteLength (front ++ kept ++ p.source)) rest) := by
  obtain ⟨hstart, hstop⟩ := Piece.bounds_of_edit? he
  rw [byteLength_append] at hstart
  rw [splice, if_neg (by omega), hstop]
  cases p with
  | keep c => cases he
  | swap quote old new =>
    cases he
    have hslice : slice source ⟨byteLength front, byteLength (front ++ kept) + quote.utf8Size⟩ =
        kept ++ [quote] := by
      have htext : source = front ++ (kept ++ [quote]) ++ (old ++ behind) := by
        simp [hs, Piece.source]
      have hlength : byteLength (front ++ kept) + quote.utf8Size =
          byteLength front + byteLength (kept ++ [quote]) := by simp [Nat.add_assoc]
      rw [htext, hlength]
      exact slice_append _ _ _
    rw [hslice]
    simp [Piece.source, Piece.target]
  | drop statement breaks =>
    cases he
    have hslice : slice source ⟨byteLength front, byteLength (front ++ kept)⟩ = kept := by
      rw [hs, byteLength_append]
      exact slice_append _ _ _
    rw [hslice]
    simp [Piece.source, Piece.target]

/-- The pieces fit behind a part of the source. -/
def FitsBehind (markup : Bool) (sites : List ImportSite) (front : List Char) (ps : List Piece) : Prop :=
  ∀ done p rest, ps = done ++ p :: rest → p.Fits markup sites (front ++ sourceOf done) (sourceOf rest)

theorem FitsBehind.nil {front : List Char} : FitsBehind markup sites front [] :=
  fun done p rest he => by simp at he

theorem FitsBehind.cons {front : List Char} {p : Piece} {ps : List Piece}
    (hp : p.Fits markup sites front (sourceOf ps)) (h : FitsBehind markup sites (front ++ p.source) ps) :
    FitsBehind markup sites front (p :: ps) := by
  intro done q rest he
  cases done with
  | nil =>
    obtain ⟨rfl, rfl⟩ := List.cons.inj he
    rw [sourceOf_nil, List.append_nil]
    exact hp
  | cons first done =>
    obtain ⟨rfl, hrest⟩ := List.cons.inj he
    rw [sourceOf_cons, ← List.append_assoc]
    exact h done q rest hrest

/-- Characters stay where no specifier begins behind them. -/
theorem FitsBehind.keep {front kept : List Char} {ps : List Piece}
    (hsites : ∀ site ∈ sites,
      site.span.start ≤ byteLength front ∨ byteLength (front ++ kept) < site.span.start)
    (h : FitsBehind markup sites (front ++ kept) ps) :
    FitsBehind markup sites front (kept.map .keep ++ ps) := by
  induction kept generalizing front with
  | nil => simpa using h
  | cons c kept ih =>
    have hc := c.utf8Size_pos
    have happend : byteLength (front ++ c :: kept) =
        byteLength front + c.utf8Size + byteLength kept := by simp [Nat.add_assoc]
    refine .cons (fun site hs he => ?_) (ih (fun site hs => ?_) ?_)
    · rcases hsites site hs with hle | hlt <;> omega
    · have hstep : byteLength (front ++ (Piece.keep c).source) = byteLength front + c.utf8Size := by
        simp
      have hback : byteLength (front ++ (Piece.keep c).source ++ kept) =
          byteLength (front ++ c :: kept) := by simp
      rw [hstep, hback]
      exact (hsites site hs).imp_left fun hle => by omega
    · simpa using h

/-! ### Pieces of a text -/

/-- The pieces make the cuts in the text behind `front`. -/
structure MadeBehind (markup : Bool) (sites : List ImportSite) (source front : List Char)
    (cuts : List Cut) (ps : List Piece) : Prop where
  text : source = front ++ sourceOf ps
  target : targetOf ps = splice source (byteLength front) (cuts.map (·.edit))
  fits : FitsBehind markup sites front ps
  /-- A piece that is not kept stands where its cut is. -/
  placed : ∀ done p rest, ps = done ++ p :: rest →
    (∃ c, p = .keep c) ∨ ∃ cut ∈ cuts, p = cut.piece ∧ cut.front = front ++ sourceOf done
  /-- In front of a piece all edits are made that end there. -/
  before : ∀ done rest, ps = done ++ rest →
    targetOf done = splice (front ++ sourceOf done) (byteLength front)
      ((cuts.map (·.edit)).filter (·.span.stop ≤ byteLength (front ++ sourceOf done)))

/-- Characters are copied where no edit ends. -/
theorem targetOf_kept {front : List Char} {edits : List Edit} {kept : List Char}
    (h : ∀ edit ∈ edits, byteLength (front ++ kept) < edit.span.stop) :
    targetOf (kept.map .keep) = splice (front ++ sourceOf (kept.map .keep)) (byteLength front)
      (edits.filter (·.span.stop ≤ byteLength (front ++ sourceOf (kept.map .keep)))) := by
  have hnone : edits.filter (·.span.stop ≤ byteLength (front ++ kept)) = [] := by
    rw [List.filter_eq_nil_iff]
    intro edit hm
    simpa using h edit hm
  rw [targetOf_keep, sourceOf_keep, hnone, splice, dropBytes_append]

theorem Cut.Fits.stop_edit {cut : Cut} (h : cut.Fits markup sites source) :
    cut.edit.span.stop = cut.stop :=
  (Piece.bounds_of_edit? h.edit).2

namespace MadeBehind

variable {front : List Char} {cut : Cut} {cuts : List Cut} {ps : List Piece}

/-- Without cuts everything stays. -/
theorem nil {rest : List Char} (hs : source = front ++ rest)
    (hsites : ∀ site ∈ sites, site.span.start ≤ byteLength front) :
    MadeBehind markup sites source front [] (rest.map .keep) where
  text := by rw [sourceOf_keep, hs]
  target := by rw [targetOf_keep, List.map_nil, splice, hs, dropBytes_append]
  fits := by
    have hkeep : FitsBehind markup sites front (rest.map .keep ++ []) :=
      .keep (fun site hm => .inl (hsites site hm)) .nil
    rwa [List.append_nil] at hkeep
  placed done p others he := by
    have hm : p ∈ rest.map Piece.keep := by simp [he]
    obtain ⟨c, _, rfl⟩ := List.mem_map.mp hm
    exact .inl ⟨c, rfl⟩
  before done others he := by
    obtain ⟨kept, _, _, rfl, _⟩ := List.map_eq_append_iff.mp he
    exact targetOf_kept (by simp)

section Ahead

variable {kept : List Char} (hcut : cut.Fits markup sites source)
  (hfront : cut.front = front ++ kept)
  (h : MadeBehind markup sites source (cut.front ++ cut.piece.source) cuts ps)

include hfront h in
theorem placed_ahead {done rest : List Piece} {p : Piece}
    (he : kept.map .keep ++ cut.piece :: ps = done ++ p :: rest) :
    (∃ c, p = .keep c) ∨
      ∃ other ∈ cut :: cuts, p = other.piece ∧ other.front = front ++ sourceOf done := by
  rcases List.append_eq_append_iff.mp he with ⟨made, rfl, hmade⟩ | ⟨left, hleft, hrest⟩
  · cases made with
    | nil =>
      obtain rfl := (List.cons.inj hmade).1
      exact .inr ⟨cut, List.mem_cons_self, rfl, by simp [hfront]⟩
    | cons first made =>
      obtain ⟨rfl, hps⟩ := List.cons.inj hmade
      refine (h.placed made p rest hps).imp_right fun ⟨other, hm, hp, hother⟩ => ?_
      exact ⟨other, List.mem_cons_of_mem _ hm, hp, by simp [hother, hfront]⟩
  · cases left with
    | nil =>
      obtain rfl := (List.cons.inj hrest).1
      rw [List.append_nil] at hleft
      exact .inr ⟨cut, List.mem_cons_self, rfl, by simp [← hleft, hfront]⟩
    | cons first left =>
      obtain rfl := (List.cons.inj hrest).1
      have hm : p ∈ kept.map Piece.keep := by simp [hleft]
      obtain ⟨c, _, rfl⟩ := List.mem_map.mp hm
      exact .inl ⟨c, rfl⟩

include hcut hfront h in
theorem before_ahead (hlater : ∀ other ∈ cuts, byteLength cut.front < other.edit.span.stop)
    {done rest : List Piece} (he : kept.map .keep ++ cut.piece :: ps = done ++ rest) :
    targetOf done = splice (front ++ sourceOf done) (byteLength front)
      (((cut :: cuts).map (·.edit)).filter
        (·.span.stop ≤ byteLength (front ++ sourceOf done))) := by
  have hkept : ∀ {early late}, kept = early ++ late → targetOf (early.map .keep) = splice
      (front ++ sourceOf (early.map .keep)) (byteLength front) (((cut :: cuts).map (·.edit)).filter
        (·.span.stop ≤ byteLength (front ++ sourceOf (early.map .keep)))) := by
    intro early late hearly
    have hstop : byteLength cut.front < cut.edit.span.stop :=
      hcut.stop_edit ▸ hcut.starts.trans_le hcut.stops
    have hall : ∀ edit ∈ (cut :: cuts).map (·.edit), byteLength cut.front < edit.span.stop := by
      simpa using ⟨hstop, hlater⟩
    refine targetOf_kept fun edit hm => Nat.lt_of_le_of_lt ?_ (hall edit hm)
    rw [hfront, hearly]
    simp only [byteLength_append]
    omega
  rcases List.append_eq_append_iff.mp he with ⟨made, rfl, hmade⟩ | ⟨left, hleft, hrest⟩
  · cases made with
    | nil =>
      rw [List.append_nil]
      exact hkept (List.append_nil kept).symm
    | cons first made =>
      obtain ⟨rfl, hps⟩ := List.cons.inj hmade
      have hbefore := h.before made rest hps
      have hdone : front ++ sourceOf (kept.map .keep ++ cut.piece :: made) =
          front ++ kept ++ (cut.piece.source ++ sourceOf made) := by simp
      have hback : cut.front ++ cut.piece.source ++ sourceOf made =
          front ++ kept ++ (cut.piece.source ++ sourceOf made) := by simp [hfront]
      have hends : cut.edit.span.stop ≤
          byteLength (front ++ kept ++ (cut.piece.source ++ sourceOf made)) := by
        rw [hcut.stop_edit, Cut.stop, ← hback, byteLength_append _ (sourceOf made)]
        omega
      rw [hback, hfront] at hbefore
      rw [hdone, List.map_cons, List.filter_cons_of_pos (by simpa using hends),
        splice_cut rfl (hfront ▸ hcut.edit), ← hbefore]
      simp
  · obtain ⟨early, late, rfl, rfl, -⟩ := List.map_eq_append_iff.mp hleft
    exact hkept rfl

include hcut hfront h in
/-- A cut is made behind what is kept in front of it. -/
theorem ahead (hlater : ∀ other ∈ cuts, byteLength cut.front < other.edit.span.stop)
    (hsites : ∀ site ∈ sites,
      site.span.start ≤ byteLength front ∨ byteLength (front ++ kept) < site.span.start) :
    MadeBehind markup sites source front (cut :: cuts) (kept.map .keep ++ cut.piece :: ps) where
  text := by simp [h.text, hfront]
  target := by
    have htext : source = front ++ kept ++ (cut.piece.source ++ sourceOf ps) := by
      rw [h.text, hfront, List.append_assoc]
    have htarget := h.target
    rw [hfront] at htarget
    rw [List.map_cons, splice_cut htext (hfront ▸ hcut.edit), ← htarget]
    simp
  fits := by
    have hbehind : cut.behind = sourceOf ps := by
      have hboth := hcut.text.symm.trans h.text
      rw [← List.append_assoc] at hboth
      exact List.append_cancel_left hboth
    have hpiece := hcut.fits
    have hfits := h.fits
    rw [hbehind, hfront] at hpiece
    rw [hfront] at hfits
    exact .keep hsites (.cons hpiece hfits)
  placed _ _ _ he := h.placed_ahead hfront he
  before _ _ he := h.before_ahead hcut hfront hlater he

end Ahead

/-- A cut that begins within an earlier one is not made. -/
theorem skip (hskip : cut.edit.span.start < byteLength front)
    (h : MadeBehind markup sites source front cuts ps) :
    MadeBehind markup sites source front (cut :: cuts) ps where
  text := h.text
  target := by rw [List.map_cons, splice, if_pos hskip, h.target]
  fits := h.fits
  placed done p rest he := (h.placed done p rest he).imp_right fun ⟨other, hm, hp⟩ =>
    ⟨other, List.mem_cons_of_mem _ hm, hp⟩
  before done rest he := by
    rw [List.map_cons, List.filter_cons, h.before done rest he]
    split
    · rw [splice, if_pos hskip]
    · rfl

end MadeBehind

/-- Cuts in order, each behind the earlier ones or swallowed by one of them, make up a revision. -/
theorem exists_pieces {cuts : List Cut} (hcuts : ∀ cut ∈ cuts, cut.Fits markup sites source)
    (hbefore : cuts.Pairwise Cut.Before) {front rest : List Char} (hs : source = front ++ rest)
    (hplace : ∀ cut ∈ cuts, byteLength front ≤ byteLength cut.front ∨
      cut.edit.span.start < byteLength front)
    (hsites : ∀ site ∈ sites, site.span.start ≤ byteLength front ∨
      ∃ cut ∈ cuts, byteLength front ≤ byteLength cut.front ∧ cut.siteAt = site.span.start) :
    ∃ ps, MadeBehind markup sites source front cuts ps := by
  induction cuts generalizing front rest with
  | nil => exact ⟨_, .nil hs (by simpa using hsites)⟩
  | cons cut cuts ih =>
    obtain ⟨hcut, hcuts⟩ := List.forall_mem_cons.mp hcuts
    obtain ⟨hfirst, hbefore⟩ := List.pairwise_cons.mp hbefore
    obtain ⟨hat, hothers⟩ := List.forall_mem_cons.mp hplace
    by_cases hahead : byteLength front ≤ byteLength cut.front
    · obtain ⟨kept, hkept, rfl⟩ := exists_of_byteLength_le (hs.symm.trans hcut.text) hahead
      have hback : cut.stop = byteLength (cut.front ++ cut.piece.source) := rfl
      have hle : byteLength cut.front ≤ cut.stop := by
        rw [hback, byteLength_append]
        omega
      have hs' : source = cut.front ++ cut.piece.source ++ cut.behind := by
        rw [hcut.text, List.append_assoc]
      have hplace' : ∀ other ∈ cuts, cut.stop ≤ byteLength other.front ∨
          other.edit.span.start < cut.stop :=
        fun other hm => (hfirst other hm).imp_right fun h => h.1
      have hsites' : ∀ site ∈ sites, site.span.start ≤ cut.stop ∨
          ∃ other ∈ cuts, cut.stop ≤ byteLength other.front ∧ other.siteAt = site.span.start := by
        intro site hm
        rcases hsites site hm with hdone | ⟨other, hother, _, hsite⟩
        · left
          omega
        · rw [← hsite]
          rcases List.mem_cons.mp hother with rfl | hother
          · exact .inl hcut.stops
          · rcases hfirst other hother with h | ⟨_, _, h⟩
            · exact .inr ⟨other, hother, h, rfl⟩
            · exact .inl h
      have hlater : ∀ other ∈ cuts, byteLength cut.front < other.edit.span.stop := by
        intro other hm
        have hother := hcuts other hm
        have hstarts := hother.starts
        have hstops := hother.stops
        rw [hother.stop_edit]
        rcases hfirst other hm with h | ⟨_, h, _⟩ <;> omega
      obtain ⟨ps, hps⟩ := ih hcuts hbefore hs' hplace' hsites'
      refine ⟨_, hps.ahead hcut hkept hlater fun site hm => (hsites site hm).imp_right ?_⟩
      rintro ⟨other, hm, _, hsite⟩
      rw [← hkept, ← hsite]
      rcases List.mem_cons.mp hm with rfl | hm
      · exact hcut.starts
      · have hstarts := (hcuts other hm).starts
        rcases hfirst other hm with h | ⟨_, h, _⟩ <;> omega
    · have hskip := hat.resolve_left hahead
      obtain ⟨ps, hps⟩ := ih hcuts hbefore hs hothers fun site hs => by
        rcases hsites site hs with hdone | ⟨other, hother, hplaced, hsite⟩
        · exact .inl hdone
        · rcases List.mem_cons.mp hother with rfl | hother
          · exact absurd hplaced hahead
          · exact .inr ⟨other, hother, hplaced, hsite⟩
      exact ⟨ps, hps.skip hskip⟩

end LivePreview.Source
