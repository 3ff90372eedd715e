import LivePreview.Proofs.Source.Cut
import LivePreview.Proofs.Source.Located
import LivePreview.Proofs.Source.Rescan

/-!
# Relinked scripts

In a relinked script each import site has another specifier, or its statement is gone and has left
its line breaks. Where these edits are confined to their places, the import sites of the result have
the specifiers that were put in.
-/
namespace LivePreview

theorem insertOn_map {α β : Type} (key : β → Nat) (f : α → β) (a : α) (items : List α) :
    insertOn key (f a) (items.map f) = (insertOn (key ∘ f) a items).map f := by
  induction items with
  | nil => rfl
  | cons b rest ih =>
    simp only [List.map_cons, insertOn, Function.comp_apply, ih]
    split <;> rfl

theorem sortOn_map {α β : Type} (key : β → Nat) (f : α → β) (items : List α) :
    sortOn key (items.map f) = (sortOn (key ∘ f) items).map f := by
  induction items with
  | nil => rfl
  | cons a rest ih =>
    show insertOn key (f a) (sortOn key (rest.map f)) = _
    rw [ih, insertOn_map]
    rfl

theorem insertOn_of_le {α : Type} {key : α → Nat} {a : α} {items : List α}
    (h : ∀ b ∈ items, key a ≤ key b) : insertOn key a items = a :: items := by
  cases items with
  | nil => rfl
  | cons b rest => rw [insertOn, if_pos (h b List.mem_cons_self)]

theorem filter_insertOn {α : Type} {key : α → Nat} (p : α → Bool) (a : α) {items : List α}
    (sorted : items.Pairwise (key · ≤ key ·)) :
    (insertOn key a items).filter p =
      if p a then insertOn key a (items.filter p) else items.filter p := by
  induction items with
  | nil => simp [insertOn, List.filter_cons]
  | cons b rest ih =>
    obtain ⟨hfirst, hrest⟩ := List.pairwise_cons.mp sorted
    rw [insertOn]
    split
    · rename_i hle
      have hall : ∀ c ∈ (b :: rest).filter p, key a ≤ key c := fun c hm => by
        rcases List.mem_cons.mp (List.mem_filter.mp hm).1 with rfl | hm
        · exact hle
        · exact hle.trans (hfirst c hm)
      rw [List.filter_cons, insertOn_of_le hall]
    · rename_i hlt
      rw [List.filter_cons, ih hrest, List.filter_cons]
      split <;> split <;> simp [insertOn, hlt]

/-- What is left out does not matter for the order of the others. -/
theorem filter_sortOn {α : Type} (key : α → Nat) (p : α → Bool) (items : List α) :
    (sortOn key items).filter p = sortOn key (items.filter p) := by
  induction items with
  | nil => rfl
  | cons a rest ih =>
    rw [List.filter_cons]
    refine (filter_insertOn p a (pairwise_sortOn key rest)).trans ?_
    rw [ih]
    split <;> rfl

namespace Source

open LivePreview.Text

/-- What is done to an import site. -/
inductive SiteEdit where
  /-- Another specifier takes the place of its own. -/
  | swap (new : List Char)
  /-- Its statement is dropped and leaves line breaks. -/
  | drop (breaks : Nat)

namespace SiteEdit

def edit (site : ImportSite) : SiteEdit → Edit
  | swap new => ⟨site.span, String.ofList new⟩
  | drop breaks => ⟨site.statement, String.ofList (List.replicate breaks '\n')⟩

/-- Where it is done. -/
def cut (source : List Char) (site : ImportSite) : SiteEdit → Cut
  | swap new =>
    { front := takeBytes (site.span.start - 1) source
      piece := .swap ((dropBytes (site.span.start - 1) source).headD '"') site.specifier.toList new
      behind := dropBytes site.span.stop source
      edit := ⟨site.span, String.ofList new⟩
      siteAt := site.span.start }
  | drop breaks =>
    { front := takeBytes site.statement.start source
      piece := .drop (slice source site.statement) breaks
      behind := dropBytes site.statement.stop source
      edit := ⟨site.statement, String.ofList (List.replicate breaks '\n')⟩
      siteAt := site.span.start }

/-- The text around the site is read after the edit as it was before: the specifiers are plain, and
each is a string literal of its own or part of a statement that can be removed. -/
def Confined (markup : Bool) (source : List Char) (site : ImportSite) : SiteEdit → Prop
  | swap new =>
    Plain new ∧ Replaceable markup (takeBytes (site.span.start - 1) source)
      ((dropBytes (site.span.start - 1) source).headD '"') site.specifier.toList
      (dropBytes site.span.stop source)
  | drop _ =>
    site.isRemovable = true ∧ Plain site.specifier.toList ∧
      Removable markup (takeBytes site.statement.start source) (slice source site.statement)
        (dropBytes site.statement.stop source)

end SiteEdit

/-! ### Cuts around located sites -/

namespace Located

variable {shape : Shape} {source : List Char} {site : ImportSite}

theorem cut_swap (loc : Located shape source site) (new : List Char) :
    (SiteEdit.swap new).cut source site =
      { front := loc.front ++ loc.run
        piece := .swap loc.opening site.specifier.toList new
        behind := loc.closing :: (loc.tail ++ loc.after)
        edit := ⟨site.span, String.ofList new⟩
        siteAt := site.span.start } := by
  have ho := utf8Size_of_isQuote loc.isQuote_opening
  have hstart : site.span.start - 1 = byteLength (loc.front ++ loc.run) := by
    rw [loc.start_span, Nat.add_sub_cancel]
  have htext := loc.text.trans (List.append_assoc _ _ _).symm
  have hback : dropBytes site.span.stop source = loc.closing :: (loc.tail ++ loc.after) := by
    have hbehind : source = loc.front ++ loc.run ++ loc.opening :: site.specifier.toList ++
        loc.closing :: (loc.tail ++ loc.after) := loc.text.trans (by simp)
    refine dropBytes_eq hbehind ?_
    rw [loc.stop_span, loc.start_span]
    simp only [byteLength_append, byteLength_cons]
    omega
  rw [SiteEdit.cut, takeBytes_eq htext hstart, dropBytes_eq htext hstart, hback, List.headD_cons]

theorem cut_drop (loc : Located shape source site) (breaks : Nat) :
    (SiteEdit.drop breaks).cut source site =
      { front := loc.front
        piece := .drop (loc.run ++ loc.opening :: (site.specifier.toList ++ loc.closing :: loc.tail))
          breaks
        behind := loc.after
        edit := ⟨site.statement, String.ofList (List.replicate breaks '\n')⟩
        siteAt := site.span.start } := by
  have htext : source = loc.front ++
      (loc.run ++ loc.opening :: (site.specifier.toList ++ loc.closing :: loc.tail)) ++ loc.after :=
    loc.text.trans (by simp)
  have hstop := congrArg Span.stop loc.statement
  have hslice : slice source site.statement =
      loc.run ++ loc.opening :: (site.specifier.toList ++ loc.closing :: loc.tail) := by
    rw [slice, dropBytes_eq (htext.trans (List.append_assoc _ _ _)) loc.start_statement]
    refine takeBytes_eq rfl ?_
    rw [hstop, loc.start_statement, byteLength_append, Nat.add_sub_cancel_left]
  rw [SiteEdit.cut, takeBytes_eq (htext.trans (List.append_assoc _ _ _)) loc.start_statement,
    dropBytes_eq htext hstop, hslice]

variable {markup : Bool} {sites : List ImportSite}

theorem fits_swap (loc : Located shape source site) {new : List Char}
    (h : (SiteEdit.swap new).Confined markup source site) :
    ((SiteEdit.swap new).cut source site).Fits markup sites source := by
  obtain ⟨hnew, hold⟩ := h
  have hcut := loc.cut_swap new
  have ho := utf8Size_of_isQuote loc.isQuote_opening
  have hfront : takeBytes (site.span.start - 1) source = loc.front ++ loc.run :=
    congrArg Cut.front hcut
  have hbehind : dropBytes site.span.stop source = loc.closing :: (loc.tail ++ loc.after) :=
    congrArg Cut.behind hcut
  have hquote := (Piece.swap.inj (congrArg Cut.piece hcut)).1
  rw [hfront, hbehind, hquote] at hold
  rw [hcut]
  refine ⟨loc.text.trans (by simp [Piece.source]), ?_, ?_, ?_, ?_⟩
  · exact ⟨hold, hnew, loc.isQuote_opening, loc.closing, _, rfl, loc.isQuote_closing⟩
  · rw [Piece.edit?, loc.span, ho]
    simp only [byteLength_append, byteLength_cons, ho, Nat.add_assoc]
  · rw [loc.start_span]
    exact Nat.lt_succ_self _
  · rw [loc.start_span, Cut.stop]
    simp only [Piece.source, byteLength_append, byteLength_cons, ho]
    omega

/-- A statement begins with a keyword. -/
theorem exists_head?_dropWhile (loc : Located .statement source site) (rest : List Char) :
    ∃ c, ((loc.run ++ rest).dropWhile isBlank).head? = some c ∧ c ≠ ')' := by
  obtain ⟨hi, word, hw, behind, hrun⟩ := Shape.lawful_statement.keyword loc.head
  have hword : ∃ c letters, word = c :: letters ∧ isBlank c = false ∧ c ≠ ')' := by
    simp only [keywords, List.mem_cons, List.not_mem_nil, or_false] at hw
    rcases hw with rfl | rfl
    · exact ⟨'i', _, rfl, by decide⟩
    · exact ⟨'e', _, rfl, by decide⟩
  obtain ⟨c, letters, rfl, hc, hne⟩ := hword
  refine ⟨c, ?_, hne⟩
  rw [← hrun, List.append_assoc, List.append_assoc,
    List.dropWhile_append_of_pos fun d hd => isBlank_of_isIndent (hi d hd)]
  simp [hc]

/-- Both scans go on behind a statement. -/
theorem exists_scan (loc : Located .statement source site) (hp : Plain site.specifier.toList)
    {shape : Shape} (hs : shape ∈ shapes) :
    ∃ found, shape.scan loc.front (loc.run ++
        loc.opening :: (site.specifier.toList ++ loc.closing :: loc.tail) ++ loc.after) =
      found ++ shape.scan (loc.front ++
        (loc.run ++ loc.opening :: (site.specifier.toList ++ loc.closing :: loc.tail))) loc.after := by
  simp only [shapes, List.mem_cons, List.not_mem_nil, or_false] at hs
  rcases hs with rfl | rfl
  · have hquoted : quoted? (loc.opening :: (site.specifier.toList ++ loc.closing :: loc.tail) ++ loc.after) =
        some (site.specifier.toList, loc.tail ++ loc.after) := by
      have happend := @quoted?_append loc.opening loc.closing site.specifier.toList
        (loc.tail ++ loc.after) loc.isQuote_opening loc.inline
        (not_isInline_of_isQuote loc.isQuote_closing)
      rw [if_neg (by simp [hp.ne_nil, loc.isQuote_closing])] at happend
      simpa using happend
    have hscan := Shape.scan_of_tail? loc.quiet loc.before loc.head hquoted loc.ends (by simp)
    rw [List.append_assoc loc.front] at hscan
    rw [List.append_assoc, hscan]
    exact ⟨[_], rfl⟩
  · refine ⟨[], ?_⟩
    simpa using loc.scan_call hp

theorem fits_drop (loc : Located .statement source site) {breaks : Nat}
    (h : (SiteEdit.drop breaks).Confined markup source site) :
    ((SiteEdit.drop breaks).cut source site).Fits markup sites source := by
  obtain ⟨_, hplain, hremovable⟩ := h
  have hcut := loc.cut_drop breaks
  have hfront : takeBytes site.statement.start source = loc.front := congrArg Cut.front hcut
  have hbehind : dropBytes site.statement.stop source = loc.after := congrArg Cut.behind hcut
  have hstatement := (Piece.drop.inj (congrArg Cut.piece hcut)).1
  rw [hfront, hbehind, hstatement] at hremovable
  rw [hcut]
  refine ⟨loc.text.trans (by simp [Piece.source]), ⟨hremovable, ?_, ?_, ?_⟩, ?_, ?_, ?_⟩
  · intro c hc
    have hbefore := loc.before
    rw [hc] at hbefore
    simpa [Shape.statement] using hbefore
  · exact loc.exists_head?_dropWhile _
  · exact fun shape hs => loc.exists_scan hplain hs
  · rw [Piece.edit?, loc.statement]
  · rw [← loc.start_statement]
    exact loc.statement_lt_span
  · have hstop := congrArg Span.stop loc.statement
    rw [loc.stop_statement, loc.stop_span] at hstop
    have hle : site.span.start ≤
        site.span.start + byteLength site.specifier.toList + 1 + byteLength loc.tail := by omega
    exact hle.trans (Nat.le_of_eq hstop)

end Located

/-! ### Cuts of several sites -/

theorem exists_located_statement {source : String} {dialect : Dialect} {site : ImportSite}
    (h : site ∈ importSites source dialect) (hr : site.isRemovable = true) :
    Nonempty (Located .statement source.toList site) := by
  obtain ⟨shape, hs, ⟨loc⟩⟩ := exists_located h
  simp only [shapes, List.mem_cons, List.not_mem_nil, or_false] at hs
  rcases hs with rfl | rfl
  · exact ⟨loc⟩
  · rw [ImportSite.isRemovable, Option.some.inj (mem_of_call loc.head).1] at hr
    cases hr

namespace SiteEdit

variable {source : String} {dialect : Dialect} {markup : Bool} {site site' : ImportSite}
  {e e' : SiteEdit}

theorem edit_cut (chars : List Char) (site : ImportSite) (e : SiteEdit) :
    (e.cut chars site).edit = e.edit site := by
  cases e <;> rfl

theorem siteAt_cut (chars : List Char) (site : ImportSite) (e : SiteEdit) :
    (e.cut chars site).siteAt = site.span.start := by
  cases e <;> rfl

theorem fits_cut {sites : List ImportSite} (h : site ∈ importSites source dialect)
    (hc : e.Confined markup source.toList site) :
    (e.cut source.toList site).Fits markup sites source.toList := by
  cases e with
  | swap new =>
    obtain ⟨shape, _, ⟨loc⟩⟩ := exists_located h
    exact loc.fits_swap hc
  | drop breaks =>
    obtain ⟨loc⟩ := exists_located_statement h hc.1
    exact loc.fits_drop hc

theorem stop_swap {shape : Shape} {chars : List Char} (loc : Located shape chars site)
    (new : List Char) : ((swap new).cut chars site).stop = site.span.stop := by
  have ho := utf8Size_of_isQuote loc.isQuote_opening
  rw [loc.cut_swap, Cut.stop, loc.stop_span, loc.start_span]
  simp only [Piece.source, byteLength_append, byteLength_cons]
  omega

theorem start_swap {shape : Shape} {chars : List Char} (loc : Located shape chars site)
    (new : List Char) : site.span.start = byteLength ((swap new).cut chars site).front + 1 := by
  rw [loc.cut_swap, loc.start_span]

theorem stop_drop {shape : Shape} {chars : List Char} (loc : Located shape chars site)
    (breaks : Nat) : ((drop breaks).cut chars site).stop = site.statement.stop := by
  rw [loc.cut_drop]
  exact (congrArg Span.stop loc.statement).symm

theorem start_drop {shape : Shape} {chars : List Char} (loc : Located shape chars site)
    (breaks : Nat) : site.statement.start = byteLength ((drop breaks).cut chars site).front := by
  rw [loc.cut_drop, loc.start_statement]

/-- The cuts for the sites of a script are in order when they begin in order. -/
theorem before_cut (h : site ∈ importSites source dialect) (h' : site' ∈ importSites source dialect)
    (hc : e.Confined markup source.toList site) (hc' : e'.Confined markup source.toList site')
    (hd : site.Disjoint site') (hle : (e.edit site).span.start ≤ (e'.edit site').span.start) :
    (e.cut source.toList site).Before (e'.cut source.toList site') := by
  obtain ⟨shape, _, ⟨loc⟩⟩ := exists_located h
  obtain ⟨shape', hs', ⟨loc'⟩⟩ := exists_located h'
  rw [Cut.Before, edit_cut, siteAt_cut]
  cases e with
  | swap new =>
    have hpos := byteLength_pos hc.2.plain.ne_nil
    rw [stop_swap loc]
    cases e' with
    | swap new' =>
      have hfront := start_swap loc new
      have hfront' := start_swap loc' new'
      show _ ∨ site'.span.start < _ ∧ _
      have hstop := loc.stop_span
      rcases loc.eq_or_stop_lt loc' hle with heq | hlt <;> omega
    | drop breaks' =>
      obtain ⟨loc'⟩ := exists_located_statement h' hc'.1
      have hfront' := start_drop loc' breaks'
      have hbehind := loc.stop_le_statement loc' hle
      exact .inl (hfront' ▸ hbehind)
  | drop breaks =>
    obtain ⟨loc⟩ := exists_located_statement h hc.1
    have hfront := start_drop loc breaks
    rw [stop_drop loc]
    cases e' with
    | swap new' =>
      have hfront' := start_swap loc' new'
      show _ ∨ site'.span.start < _ ∧ _
      rcases loc.within_or_behind hc.2.1.last (lawful_of_mem_shapes hs') loc' hle with hin | hlt <;> omega
    | drop breaks' =>
      have hfront' := start_drop loc' breaks'
      have hlt := loc'.statement_lt_span
      have hend := loc'.stop_statement
      have hstop := loc'.stop_span
      change site.statement.start ≤ site'.statement.start at hle
      rcases hd hc.1 hc'.1 with hd | hd <;> omega

end SiteEdit

/-- The cuts that the edits of a script make, from left to right. -/
def cutsOf (source : String) (edits : List (ImportSite × SiteEdit)) : List Cut :=
  (sortOn (fun e => (e.2.edit e.1).span.start) edits).map fun e => e.2.cut source.toList e.1

section Relinked

variable {source : String} {dialect : Dialect} {edits : List (ImportSite × SiteEdit)}

theorem mem_cutsOf {cut : Cut} :
    cut ∈ cutsOf source edits ↔ ∃ e ∈ edits, e.2.cut source.toList e.1 = cut := by
  rw [cutsOf, List.mem_map]
  simp only [(sortOn_perm _ edits).mem_iff]

theorem edits_cutsOf : (cutsOf source edits).map (·.edit) =
    sortOn (·.span.start) (edits.map fun e => e.2.edit e.1) := by
  rw [cutsOf, sortOn_map, List.map_map]
  exact List.map_congr_left fun e _ => SiteEdit.edit_cut _ _ _

theorem fits_of_mem_cutsOf (hsites : edits.map Prod.fst = importSites source dialect)
    (hc : ∀ e ∈ edits, e.2.Confined dialect.allowsMarkup source.toList e.1) :
    ∀ cut ∈ cutsOf source edits,
      cut.Fits dialect.allowsMarkup (importSites source dialect) source.toList := by
  intro cut hcut
  obtain ⟨e, he, rfl⟩ := mem_cutsOf.mp hcut
  exact SiteEdit.fits_cut (hsites ▸ List.mem_map_of_mem he) (hc e he)

/-- If each site is relinked and each edit is confined, the edits make up a revision. -/
theorem exists_made (hsites : edits.map Prod.fst = importSites source dialect)
    (hc : ∀ e ∈ edits, e.2.Confined dialect.allowsMarkup source.toList e.1) :
    ∃ ps, MadeBehind dialect.allowsMarkup (importSites source dialect) source.toList []
      (cutsOf source edits) ps := by
  have hsite : ∀ e ∈ edits, e.1 ∈ importSites source dialect := fun e he => by
    rw [← hsites]
    exact List.mem_map_of_mem he
  have hfits := fits_of_mem_cutsOf hsites hc
  have hbefore : (cutsOf source edits).Pairwise Cut.Before := by
    have hdisjoint : (sortOn (fun e : ImportSite × SiteEdit => (e.2.edit e.1).span.start)
        edits).Pairwise fun e e' => e.1.Disjoint e'.1 := by
      rw [(sortOn_perm _ _).pairwise_iff ImportSite.Disjoint.symm, ← List.pairwise_map, hsites]
      exact pairwise_importSites source dialect
    rw [cutsOf, List.pairwise_map]
    refine ((pairwise_sortOn _ edits).and hdisjoint).imp_of_mem fun he he' hboth => ?_
    have he := (sortOn_perm _ edits).mem_iff.mp he
    have he' := (sortOn_perm _ edits).mem_iff.mp he'
    exact SiteEdit.before_cut (hsite _ he) (hsite _ he') (hc _ he) (hc _ he') hboth.2 hboth.1
  refine exists_pieces hfits hbefore (List.nil_append _).symm (fun _ _ => .inl (Nat.zero_le _))
    fun site hs => ?_
  rw [← hsites] at hs
  obtain ⟨e, he, rfl⟩ := List.mem_map.mp hs
  exact .inr ⟨_, mem_cutsOf.mpr ⟨e, he, rfl⟩, Nat.zero_le _, SiteEdit.siteAt_cut _ _ _⟩

namespace MadeBehind

variable {ps : List Piece} (h : MadeBehind dialect.allowsMarkup (importSites source dialect)
  source.toList [] (cutsOf source edits) ps)

include h

theorem sourceOf_eq : sourceOf ps = source.toList := h.text.symm

theorem targetOf_eq : targetOf ps =
    (applyEdits source (edits.map fun e => e.2.edit e.1)).toList := by
  rw [h.target, edits_cutsOf, applyEdits, String.toList_ofList]
  rfl

theorem pieces_fit : Fits dialect.allowsMarkup (importSites source dialect) ps :=
  fun done p rest he => h.fits done p rest he

end MadeBehind

/-- The import sites of a relinked script have the specifiers that were put in, if each site is
relinked and each edit is confined. -/
theorem exists_swap_of_mem_importSites (hsites : edits.map Prod.fst = importSites source dialect)
    (hc : ∀ e ∈ edits, e.2.Confined dialect.allowsMarkup source.toList e.1) {site : ImportSite}
    (h : site ∈ importSites (applyEdits source (edits.map fun e => e.2.edit e.1)) dialect) :
    ∃ e ∈ edits, e.2 = .swap site.specifier.toList := by
  obtain ⟨ps, hps⟩ := exists_made hsites hc
  have hfit := hps.pieces_fit
  rw [← String.ofList_toList (s := source), ← hps.sourceOf_eq] at hfit
  rw [← String.ofList_toList (s := applyEdits _ _), ← hps.targetOf_eq] at h
  obtain ⟨quote, old, hswap⟩ := hfit.mem_of_site h
  obtain ⟨done, rest, he⟩ := List.append_of_mem hswap
  rcases hps.placed _ _ _ he with ⟨c, hkept⟩ | ⟨cut, hcut, hmade, -⟩
  · cases hkept
  · obtain ⟨⟨site', e⟩, he', rfl⟩ := mem_cutsOf.mp hcut
    refine ⟨(site', e), he', ?_⟩
    cases e with
    | swap new =>
      obtain ⟨_, _, hnew⟩ := Piece.swap.inj hmade
      rw [hnew]
    | drop breaks => cases hmade

end Relinked

end Source

end LivePreview
