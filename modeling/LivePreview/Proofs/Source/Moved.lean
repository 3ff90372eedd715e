import LivePreview.Proofs.Source.Fault
import LivePreview.Proofs.Source.Relink

/-!
# Faults of a relinked script

A relinked script has the fault that the script had, moved with the characters at which it is
noticed. No character changes its line. One changes its column when a specifier in front of it on the
line has become longer or shorter.
-/
namespace LivePreview

namespace Text

/-! ### Places -/

/-- The location behind a text. -/
def Location.behind (front : List Char) : Location := front.foldl .after .first

namespace Location

theorem behind_concat (front : List Char) (c : Char) :
    behind (front ++ [c]) = (behind front).after c := by
  rw [behind, List.foldl_append]
  rfl

theorem behind_append_inline (front : List Char) {cs : List Char} (h : '\n' ∉ cs) :
    behind (front ++ cs) = ⟨(behind front).line, (behind front).column + cs.length⟩ := by
  induction cs generalizing front with
  | nil => rw [List.append_nil, List.length_nil, Nat.add_zero]
  | cons c cs ih =>
    obtain ⟨hc, hcs⟩ := not_or.mp (mt List.mem_cons.mpr h)
    have hsplit : front ++ c :: cs = front ++ [c] ++ cs := by simp
    rw [hsplit, ih _ hcs, behind_concat, after, if_neg fun he => hc he.symm, List.length_cons,
      Nat.add_right_comm]
    rfl

/-- Texts of one length within a line keep columns alike. -/
theorem column_append {front front' cs cs' : List Char}
    (h : (behind front').column = (behind front).column) (hi : '\n' ∉ cs) (hi' : '\n' ∉ cs')
    (hl : cs'.length = cs.length) :
    (behind (front' ++ cs')).column = (behind (front ++ cs)).column := by
  rw [behind_append_inline front hi, behind_append_inline front' hi']
  dsimp only
  rw [h, hl]

theorem line_behind (front : List Char) : (behind front).line = front.count '\n' + 1 := by
  induction front using List.reverseRecOn with
  | nil => rfl
  | append_singleton front c ih =>
    rw [behind_concat, after, List.count_append]
    split
    · rename_i hc
      simp [ih, hc]
    · rename_i hc
      simp [ih, hc]

/-- The location of an offset is that behind the text in front of it. -/
theorem ofOffset_append (front back : List Char) :
    ofOffset (front ++ back) (byteLength front) = behind front := by
  rw [ofOffset, takeBytes_append]
  induction front using List.reverseRecOn with
  | nil => rfl
  | append_singleton front c ih =>
    rw [behind_concat, ← ih, after]
    split
    · rename_i hc
      simp [hc]
    · rename_i hc
      simp [hc]

end Location

/-- Where a place of the text is once the edits in front of it are made. -/
def editedOffset (source : String) (edits : List Edit) (offset : Nat) : Nat :=
  byteLength (applyEdits (String.ofList (takeBytes offset source.toList))
    (edits.filter (·.span.stop ≤ offset))).toList

/-- The second location is that of the same place after the edits. It is on the same line, and it is
the same if no edit in front of it on the line changes how long the line is. -/
structure Relocated (source : String) (edits : List Edit) (l l' : Location) : Prop where
  place : ∃ offset, l = .ofOffset source.toList offset ∧
    l' = .ofOffset (applyEdits source edits).toList (editedOffset source edits offset)
  line : l'.line = l.line
  column : (∀ edit ∈ edits, (Location.ofOffset source.toList edit.span.start).line = l.line →
    (Location.ofOffset source.toList edit.span.start).column < l.column →
    edit.text.length = (slice source.toList edit.span).length) → l' = l

end Text

namespace Source

open LivePreview.Text

/-! ### Readers of a revision -/

theorem Reader.location_through (r : Reader) (front rest : List Char) :
    (r.through front rest).location = front.foldl .after r.location := by
  induction front generalizing r with
  | nil => rfl
  | cons c front ih =>
    rw [through, ih]
    rfl

theorem location_readerAt (markup : Bool) (front rest : List Char) :
    (readerAt markup front rest).location = .behind front :=
  Reader.location_through _ _ _

/-- A statement leaves nothing open, closes nothing that was open, and has no fault. -/
structure Neutral (markup : Bool) (front statement behind : List Char) : Prop where
  stack : (readerAt markup (front ++ statement) behind).stack =
    (readerAt markup front (statement ++ behind)).stack
  fault : (readerAt markup (front ++ statement) behind).fault =
    (readerAt markup front (statement ++ behind)).fault

/-- A dropped statement is neutral and leaves as many line breaks as it has. -/
def Piece.Neutral (markup : Bool) (front behind : List Char) : Piece → Prop
  | drop statement breaks =>
    Source.Neutral markup front statement behind ∧ breaks = statement.count '\n'
  | _ => True

/-- Every dropped statement is neutral where it stands. -/
def AllNeutral (markup : Bool) (pieces : List Piece) : Prop :=
  ∀ done p rest, pieces = done ++ p :: rest →
    p.Neutral markup (sourceOf done) (sourceOf rest)

/-- The locations of one place in the source and in the target. The place is in front of a character
that stays on its line. -/
def Corresponds (pieces : List Piece) (l l' : Location) : Prop :=
  ∃ done rest c, pieces = done ++ rest ∧ (sourceOf rest).head? = some c ∧ c ≠ '\n' ∧
    l = .behind (sourceOf done) ∧ l' = .behind (targetOf done)

variable {markup : Bool} {sites : List ImportSite} {pieces done ps : List Piece}

/-- Both readers stand at the same place. -/
theorem corresponds_location (he : pieces = done ++ ps) {c : Char}
    (hhead : (sourceOf ps).head? = some c) (hc : c ≠ '\n') :
    Corresponds pieces (readerAt markup (sourceOf done) (sourceOf ps)).location
      (readerAt markup (targetOf done) (targetOf ps)).location :=
  ⟨done, ps, c, he, hhead, hc, location_readerAt _ _ _, location_readerAt _ _ _⟩

/-- Behind a piece the readers of both texts have noted the same. -/
theorem Fits.paired_concat {p : Piece} (hf : Fits markup sites pieces)
    (hn : AllNeutral markup pieces) (he : pieces = done ++ p :: ps)
    (h : Reader.Paired (Corresponds pieces) (readerAt markup (sourceOf done) (sourceOf (p :: ps)))
      (readerAt markup (targetOf done) (targetOf (p :: ps)))) :
    Reader.Paired (Corresponds pieces) (readerAt markup (sourceOf (done ++ [p])) (sourceOf ps))
      (readerAt markup (targetOf (done ++ [p])) (targetOf ps)) := by
  have he' : pieces = done ++ [p] ++ ps := he.trans (List.append_assoc done [p] ps).symm
  have htracks := hf.tracks he
  have hafter := (hf.tracks he').near
  have hp := hf _ _ _ he
  have hneutral := hn _ _ _ he
  have hlocation : ∀ c, (sourceOf (p :: ps)).head? = some c → c ≠ '\n' → Corresponds pieces
      (readerAt markup (sourceOf done) (sourceOf (p :: ps))).location
      (readerAt markup (targetOf done) (targetOf (p :: ps))).location :=
    fun c hhead hc => corresponds_location he hhead hc
  simp only [sourceOf_append, targetOf_append, sourceOf_cons, targetOf_cons, sourceOf_nil,
    targetOf_nil, List.append_nil] at h htracks hafter hlocation ⊢
  cases p with
  | keep c =>
    simp only [Piece.source, Piece.target, List.singleton_append] at h htracks hafter hlocation ⊢
    rw [readerAt_concat, readerAt_concat] at hafter ⊢
    exact h.step htracks.near (hlocation c rfl) hafter
  | swap quote old new =>
    obtain ⟨hold, hnew, hq, _⟩ := hp
    simp only [Piece.source, Piece.target, List.cons_append] at h htracks hlocation ⊢
    obtain ⟨hstep, hm, hs, hw⟩ := hold.alike_step hq htracks (new ++ targetOf ps).head?
    obtain ⟨offset, location, hthrough⟩ :=
      Reader.alike_through_quoted hs hm hw (hold.plain.quoted hq) (sourceOf ps)
    obtain ⟨offset', location', hthrough'⟩ :=
      Reader.alike_through_quoted (hstep.skip.symm.trans hs) (hstep.toNear.mode_quoted hm)
        (hstep.inWord.symm.trans hw) (hnew.quoted hq) (targetOf ps)
    have hpaired := h.step htracks.near
      (fun hne => hlocation quote rfl hne) hstep.toNear
    rw [readerAt_append, readerAt_append]
    simp only [List.cons_append, Reader.through, hthrough, hthrough']
    exact ⟨hpaired.comment, hpaired.stack, hpaired.fault⟩
  | drop statement breaks =>
    obtain ⟨hdrop, _⟩ := hp
    simp only [Piece.source, Piece.target] at h htracks hafter ⊢
    have hcode := htracks.near.inCode_iff.mp hdrop.code
    have hword := htracks.near.inWord.symm.trans (hdrop.near.inWord.trans hdrop.apart)
    obtain ⟨offset, location, code, hbreaks⟩ := hcode.through_breaks hword breaks (targetOf ps)
    have hback := hdrop.near.inCode_iff.mp hdrop.code
    refine ⟨?_, ?_, ?_⟩
    · rw [readerAt_append (targetOf done), hbreaks, hback.2, hcode.2]
      exact .none
    · rw [readerAt_append (targetOf done), hbreaks, hneutral.1.stack]
      exact h.stack
    · rw [readerAt_append (targetOf done), hbreaks, hneutral.1.fault]
      exact h.fault

theorem Fits.paired (hf : Fits markup sites pieces) (hn : AllNeutral markup pieces)
    (he : pieces = done ++ ps) :
    Reader.Paired (Corresponds pieces) (readerAt markup (sourceOf done) (sourceOf ps))
      (readerAt markup (targetOf done) (targetOf ps)) := by
  induction done using List.reverseRecOn generalizing ps with
  | nil => exact ⟨.none, .nil, .none⟩
  | append_singleton done p ih =>
    have he' : pieces = done ++ p :: ps := he.trans (List.append_assoc done [p] ps)
    exact hf.paired_concat hn he' (ih he')

/-- Both texts have the same fault, each at its own locations. -/
theorem Fits.fault_moved (hf : Fits markup sites pieces) (hn : AllNeutral markup pieces) :
    Option.Rel (Fault.Moved (Corresponds pieces)) (CodeMap.ofSource (sourceOf pieces) markup).fault
      (CodeMap.ofSource (targetOf pieces) markup).fault := by
  have hrun : ∀ cs, ({ markup } : Reader).run cs = readerAt markup cs [] := fun cs => by
    have happend := Reader.run_append { markup } cs []
    rwa [List.append_nil] at happend
  have hend : pieces = pieces ++ [] := (List.append_nil pieces).symm
  rw [CodeMap.ofSource, CodeMap.ofSource, hrun, hrun]
  exact (hf.paired hn hend).finish (hf.tracks hend).near

/-! ### Lines and columns of a revision -/

theorem Plain.not_break {cs : List Char} (h : Plain cs) : '\n' ∉ cs := by
  intro hm
  have hquote : isQuote '"' = true := rfl
  exact (h.quoted hquote _ hm).2.1 rfl

/-- A quote and the specifier behind it stay on one line. -/
theorem not_break_quoted {quote : Char} (hq : isQuote quote = true) {cs : List Char}
    (h : Plain cs) : '\n' ∉ quote :: cs := by
  intro hm
  rcases List.mem_cons.mp hm with rfl | hm
  · cases hq
  · exact h.not_break hm

/-- No place changes its line. -/
theorem Fits.line_eq (hf : Fits markup sites pieces) (hn : AllNeutral markup pieces)
    (he : pieces = done ++ ps) :
    (Location.behind (targetOf done)).line = (Location.behind (sourceOf done)).line := by
  rw [Location.line_behind, Location.line_behind]
  congr 1
  induction done using List.reverseRecOn generalizing ps with
  | nil => rfl
  | append_singleton done p ih =>
    have he' : pieces = done ++ p :: ps := he.trans (List.append_assoc done [p] ps)
    have hpiece : p.target.count '\n' = p.source.count '\n' := by
      have hp := hf _ _ _ he'
      have hneutral := hn _ _ _ he'
      cases p with
      | keep c => rfl
      | swap quote old new =>
        obtain ⟨hold, hnew, hq, _⟩ := hp
        rw [Piece.source, Piece.target, List.count_eq_zero_of_not_mem (not_break_quoted hq hnew),
          List.count_eq_zero_of_not_mem (not_break_quoted hq hold.plain)]
      | drop statement breaks =>
        rw [Piece.source, Piece.target, List.count_replicate_self, hneutral.2]
    rw [targetOf_append, sourceOf_append, List.count_append, List.count_append, ih he',
      targetOf_singleton, sourceOf_singleton, hpiece]

/-- The specifiers behind the last line break that stand in front of a place are as long as those
that took their place. -/
def SameLengths (done : List Piece) : Prop :=
  ∀ first quote old new last, done = first ++ .swap quote old new :: last →
    '\n' ∉ sourceOf last → new.length = old.length

/-- The columns are the same where specifiers of the same length stand in front on the line. Behind a
dropped statement they differ, but the line ends there. -/
theorem Fits.column_eq (hf : Fits markup sites pieces) (he : pieces = done ++ ps)
    (hs : SameLengths done) : (∀ c, (sourceOf ps).head? = some c → c = '\n') ∨
      (Location.behind (targetOf done)).column = (Location.behind (sourceOf done)).column := by
  induction done using List.reverseRecOn generalizing ps with
  | nil => exact .inr rfl
  | append_singleton done p ih =>
    have he' : pieces = done ++ p :: ps := he.trans (List.append_assoc done [p] ps)
    have hp := hf _ _ _ he'
    have hsame : '\n' ∉ p.source → SameLengths done := fun hbreak first quote old new last hd hl => by
      refine hs first quote old new (last ++ [p]) (by simp [hd]) ?_
      rw [sourceOf_append, sourceOf_singleton, List.mem_append]
      exact not_or.mpr ⟨hl, hbreak⟩
    rw [targetOf_append, sourceOf_append, targetOf_singleton, sourceOf_singleton]
    cases p with
    | keep c =>
      right
      by_cases hc : c = '\n'
      · subst hc
        rw [Piece.source, Piece.target, Location.behind_concat, Location.behind_concat]
        rfl
      · have hinline : '\n' ∉ (Piece.keep c).source := by
          simpa using fun h : '\n' = c => hc h.symm
        rcases ih he' (hsame hinline) with h | h
        · exact absurd (h c rfl) hc
        · exact Location.column_append h hinline hinline rfl
    | swap quote old new =>
      obtain ⟨hold, hnew, hq, _⟩ := hp
      have hinline := not_break_quoted hq hold.plain
      right
      rcases ih he' (hsame hinline) with h | h
      · rw [h quote rfl] at hq
        cases hq
      · have hlength := hs done quote old new [] rfl (by simp)
        exact Location.column_append h hinline (not_break_quoted hq hnew)
          (congrArg (· + 1) hlength)
    | drop statement breaks => exact .inl hp.1.ends

/-! ### Places of a relinked script -/

/-- A dropped statement is neutral and leaves as many line breaks as it has. -/
def SiteEdit.Neutral (markup : Bool) (source : List Char) (site : ImportSite) : SiteEdit → Prop
  | swap _ => True
  | drop breaks =>
    Source.Neutral markup (takeBytes site.statement.start source) (slice source site.statement)
      (dropBytes site.statement.stop source) ∧
      breaks = (slice source site.statement).count '\n'

section Relinked

variable {source : String} {dialect : Dialect} {edits : List (ImportSite × SiteEdit)}

namespace MadeBehind

variable {ps : List Piece} (h : MadeBehind dialect.allowsMarkup (importSites source dialect)
  source.toList [] (cutsOf source edits) ps)
  (hfits : ∀ cut ∈ cutsOf source edits,
    cut.Fits dialect.allowsMarkup (importSites source dialect) source.toList)

include h

theorem text_eq {done rest : List Piece} (he : ps = done ++ rest) :
    source.toList = sourceOf done ++ sourceOf rest := by
  rw [← h.sourceOf_eq, he, sourceOf_append]

/-- The places of the two texts are those in front of which the same edits are made. -/
theorem ofOffset_eq {done rest : List Piece} (he : ps = done ++ rest) :
    Location.ofOffset (applyEdits source (edits.map fun e => e.2.edit e.1)).toList
        (editedOffset source (edits.map fun e => e.2.edit e.1) (byteLength (sourceOf done))) =
      .behind (targetOf done) := by
  have hbefore := h.before done rest he
  rw [edits_cutsOf, List.nil_append, filter_sortOn] at hbefore
  have hfront : (applyEdits (String.ofList (sourceOf done)) ((edits.map fun e =>
      e.2.edit e.1).filter (·.span.stop ≤ byteLength (sourceOf done)))).toList =
      targetOf done := by
    rw [applyEdits, String.toList_ofList, String.toList_ofList]
    exact hbefore.symm
  rw [editedOffset, h.text_eq he, takeBytes_append, hfront, ← h.targetOf_eq, he, targetOf_append,
    Location.ofOffset_append]

include hfits

theorem allNeutral (hn : ∀ e ∈ edits, e.2.Neutral dialect.allowsMarkup source.toList e.1) :
    AllNeutral dialect.allowsMarkup ps := by
  intro done p rest he
  rcases h.placed done p rest he with ⟨c, rfl⟩ | ⟨cut, hm, rfl, hfront⟩
  · trivial
  · have hbehind : cut.behind = sourceOf rest := by
      have htext := (hfits cut hm).text
      rw [hfront, List.nil_append, h.text_eq he, sourceOf_cons] at htext
      exact (List.append_cancel_left (List.append_cancel_left htext)).symm
    rw [List.nil_append] at hfront
    rw [← hfront, ← hbehind]
    obtain ⟨⟨site, e⟩, hmem, rfl⟩ := mem_cutsOf.mp hm
    have hneutral := hn _ hmem
    cases e with
    | swap new => trivial
    | drop breaks => exact hneutral

/-- A specifier that was replaced stands at the span of its edit. -/
theorem edit_of_swap {done rest : List Piece} {quote : Char} {old new : List Char}
    (he : ps = done ++ .swap quote old new :: rest) :
    ∃ edit ∈ edits.map fun e => e.2.edit e.1, edit.text.length = new.length ∧
      slice source.toList edit.span = old ∧
      Location.ofOffset source.toList edit.span.start = .behind (sourceOf done ++ [quote]) := by
  rcases h.placed done _ rest he with ⟨c, hkept⟩ | ⟨cut, hm, hpiece, hfront⟩
  · cases hkept
  have hedit := (hfits cut hm).edit
  rw [← hpiece, hfront, List.nil_append, Piece.edit?] at hedit
  obtain ⟨e, hmem, rfl⟩ := mem_cutsOf.mp hm
  rw [SiteEdit.edit_cut] at hedit
  have htext : source.toList = sourceOf done ++ [quote] ++ old ++ sourceOf rest := by
    rw [h.text_eq he, sourceOf_cons]
    simp [Piece.source]
  refine ⟨_, List.mem_map_of_mem hmem, ?_⟩
  rw [← Option.some.inj hedit, htext]
  refine ⟨String.length_ofList, ?_, ?_⟩
  · have hslice := slice_append (sourceOf done ++ [quote]) old (sourceOf rest)
    simpa [Nat.add_assoc] using hslice
  · have hstart := Location.ofOffset_append (sourceOf done ++ [quote]) (old ++ sourceOf rest)
    simpa using hstart

/-- The locations of one place are where the edits take it. -/
theorem relocated (hn : AllNeutral dialect.allowsMarkup ps) {l l' : Location}
    (hl : Corresponds ps l l') :
    Relocated source (edits.map fun e => e.2.edit e.1) l l' := by
  obtain ⟨done, rest, c, he, hhead, hc, rfl, rfl⟩ := hl
  have hline := h.pieces_fit.line_eq hn he
  refine ⟨⟨byteLength (sourceOf done), ?_, (h.ofOffset_eq he).symm⟩, hline, fun hlengths => ?_⟩
  · rw [h.text_eq he, Location.ofOffset_append]
  have hsame : SameLengths done := by
    rintro first quote old new last rfl hbreak
    rw [List.append_assoc] at he
    obtain ⟨edit, hm, hlength, hslice, hstart⟩ := h.edit_of_swap hfits he
    obtain ⟨hold, -⟩ := h.pieces_fit _ _ _ he
    have hinline : '\n' ∉ old ++ sourceOf last := fun hm =>
      (List.mem_append.mp hm).elim hold.plain.not_break hbreak
    have hplace : Location.behind (sourceOf (first ++ .swap quote old new :: last)) =
        .behind (sourceOf first ++ [quote] ++ (old ++ sourceOf last)) := by
      simp [Piece.source]
    rw [← hlength, ← hslice]
    refine hlengths edit hm ?_ ?_
    · rw [hstart, hplace, Location.behind_append_inline _ hinline]
    · have hpos := List.length_pos_iff.mpr hold.plain.ne_nil
      rw [hstart, hplace, Location.behind_append_inline _ hinline, List.length_append]
      dsimp only
      omega
  rcases h.pieces_fit.column_eq he hsame with hend | hcolumn
  · exact absurd (hend c hhead) hc
  · generalize Location.behind (targetOf done) = l' at hline hcolumn
    cases l'
    exact congrArg₂ Location.mk hline hcolumn

end MadeBehind

/-- A relinked script has the fault that the script had, or none if it had none, and each location is
where the edits take it. -/
theorem firstFault?_relinked (hsites : edits.map Prod.fst = importSites source dialect)
    (hc : ∀ e ∈ edits, e.2.Confined dialect.allowsMarkup source.toList e.1)
    (hn : ∀ e ∈ edits, e.2.Neutral dialect.allowsMarkup source.toList e.1) :
    Option.Rel (Fault.Moved (Relocated source (edits.map fun e => e.2.edit e.1)))
      (firstFault? source dialect)
      (firstFault? (applyEdits source (edits.map fun e => e.2.edit e.1)) dialect) := by
  obtain ⟨ps, hps⟩ := exists_made hsites hc
  have hfits := fits_of_mem_cutsOf hsites hc
  have hneutral := hps.allNeutral hfits hn
  have hmoved := hps.pieces_fit.fault_moved hneutral
  rw [hps.sourceOf_eq, hps.targetOf_eq] at hmoved
  exact rel_mono (fun _ _ h => h.mono fun l l' => hps.relocated hfits hneutral) hmoved

end Relinked

end Source

end LivePreview
