import LivePreview.Proofs.Source.Revision

/-!
# Scans of a revision

A scan of the target of a revision finds what a scan of its source finds, with the specifiers that
were put in, or less. Both go through the pieces side by side.
-/
namespace LivePreview.Source

open LivePreview.Text

variable {markup : Bool} {sites : List ImportSite} {pieces done ps : List Piece} {shape : Shape}

/-! ### Behind a dropped statement -/

theorem dropWhile_breaks (n : Nat) (cs : List Char) :
    (List.replicate n '\n' ++ cs).dropWhile isBlank = cs.dropWhile isBlank := by
  refine List.dropWhile_append_of_pos fun c hc => ?_
  obtain rfl := List.eq_of_mem_replicate hc
  decide

theorem Fits.code_behind_drop (hf : Fits markup sites pieces) {statement : List Char} {breaks : Nat}
    (he : pieces = done ++ .drop statement breaks :: ps) :
    (readerAt markup (sourceOf (done ++ [.drop statement breaks])) (sourceOf ps)).InCode ∧
      (readerAt markup (sourceOf (done ++ [.drop statement breaks])) (sourceOf ps)).settles
        (sourceOf ps) = true := by
  obtain ⟨hdrop, _⟩ := hf _ _ _ he
  have hback : sourceOf (done ++ [.drop statement breaks]) = sourceOf done ++ statement := by
    simp [Piece.source]
  rw [hback]
  exact ⟨hdrop.near.inCode_iff.mp hdrop.code, hdrop.settles⟩

/-- No call is closed where the reader settles. -/
theorem Fits.not_closing (hf : Fits markup sites pieces) (he : pieces = done ++ ps)
    (hc : (readerAt markup (sourceOf done) (sourceOf ps)).InCode)
    (hs : (readerAt markup (sourceOf done) (sourceOf ps)).settles (sourceOf ps) = true) :
    ((targetOf ps).dropWhile isBlank).head? ≠ some ')' := by
  induction ps generalizing done with
  | nil => simp
  | cons p ps ih =>
    have he' : pieces = done ++ [p] ++ ps := he.trans (List.append_assoc done [p] ps).symm
    have hp := hf _ _ _ he
    cases p with
    | keep c =>
      simp only [sourceOf_cons, targetOf_cons, Piece.source, Piece.target,
        List.singleton_append] at hc hs ⊢
      rcases hc.settles_cons hs with ⟨hb, hon⟩ | ⟨hb, hne⟩
      · rw [List.dropWhile_cons, if_pos hb]
        have hstep : readerAt markup (sourceOf (done ++ [.keep c])) (sourceOf ps) =
            (readerAt markup (sourceOf done) (c :: sourceOf ps)).step c (sourceOf ps).head? := by
          rw [sourceOf_append, sourceOf_cons, sourceOf_nil, List.append_nil]
          exact readerAt_concat _ _ _
        refine ih he' ?_ (hstep ▸ hon)
        obtain ⟨offset, location, code, hblank⟩ := hc.step_blank hb (sourceOf ps).head?
        rw [hstep, hblank]
        exact hc
      · simpa [hb] using hne
    | swap quote old new =>
      have hq : isQuote quote = true := hp.2.2.1
      have hb : isBlank quote = false := not_isQuote_of_isBlank hq
      rw [targetOf_cons, Piece.target, List.cons_append, List.dropWhile_cons, hb]
      rcases isQuote_iff.mp hq with rfl | rfl <;> simp
    | drop statement breaks =>
      rw [targetOf_cons, Piece.target, dropWhile_breaks]
      obtain ⟨hc, hs⟩ := hf.code_behind_drop he
      exact ih he' hc hs

/-! ### Specifiers of both texts -/

/-- The piece begins with a quote; behind it stand the texts of a specifier, or nothing. -/
inductive Piece.Quotes : Piece → Char → List Char → List Char → Prop
  | keep (quote : Char) : Quotes (.keep quote) quote [] []
  | swap (quote : Char) (old new : List Char) : Quotes (.swap quote old new) quote old new

theorem Piece.Quotes.source {p : Piece} {quote : Char} {x x' : List Char}
    (h : p.Quotes quote x x') : p.source = quote :: x := by cases h <;> rfl

theorem Piece.Quotes.target {p : Piece} {quote : Char} {x x' : List Char}
    (h : p.Quotes quote x x') : p.target = quote :: x' := by cases h <;> rfl

/-- Where a statement is dropped, a line begins. -/
theorem Fits.line_of_drop (hf : Fits markup sites pieces) {statement : List Char} {breaks : Nat}
    (he : pieces = done ++ .drop statement breaks :: ps) {c : Char}
    (hc : (sourceOf done).getLast? = some c) : c = '\n' :=
  (hf _ _ _ he).2.1 c hc

/-- The same quote closes a specifier before and after. -/
theorem Fits.closed (hf : Fits markup sites pieces) {quote : Char} {old new : List Char}
    (he : pieces = done ++ .swap quote old new :: ps) : ∃ closing closer y y' others,
      ps = closer :: others ∧ closer.Quotes closing y y' ∧ isQuote closing = true := by
  obtain ⟨hold, _, hq, closing, rest, hrest, hclosing⟩ := hf _ _ _ he
  cases ps with
  | nil => simp at hrest
  | cons closer others =>
    cases closer with
    | keep c =>
      obtain rfl := (List.cons.inj hrest).1
      exact ⟨_, _, _, _, _, rfl, .keep _, hclosing⟩
    | swap c old new =>
      obtain rfl := (List.cons.inj hrest).1
      exact ⟨_, _, _, _, _, rfl, .swap _ _ _, hclosing⟩
    | drop statement breaks =>
      have hlast : (sourceOf (done ++ [.swap quote old new])).getLast? =
          some (old.getLast?.getD quote) := by
        simp [Piece.source, List.getLast?_append, List.getLast?_cons]
      have hline := hf.line_of_drop (he.trans (List.append_assoc done [_] _).symm) hlast
      exact absurd hline (ne_break_of_inline hq hold.plain.inline)

/-- Pieces begin with a run of kept characters of a kind, which quotes are not of. -/
theorem Fits.exists_run (hf : Fits markup sites pieces) (he : pieces = done ++ ps) {p : Char → Bool}
    (hp : ∀ c, isQuote c = true → p c = false) : ∃ (run : List Char) (rest : List Piece),
      ps = run.map .keep ++ rest ∧ (∀ c ∈ run, p c = true) ∧
        (rest = [] ∨
          (∃ closing closer y y' others, rest = closer :: others ∧ closer.Quotes closing y y' ∧
            p closing = false) ∨
          ∃ statement breaks others, rest = .drop statement breaks :: others) := by
  induction ps generalizing done with
  | nil => exact ⟨[], [], rfl, by simp, .inl rfl⟩
  | cons piece ps ih =>
    cases piece with
    | keep c =>
      cases hc : p c with
      | true =>
        obtain ⟨run, rest, rfl, hrun, hrest⟩ := ih (he.trans (List.append_assoc done [_] _).symm)
        exact ⟨c :: run, rest, rfl, List.forall_mem_cons.mpr ⟨hc, hrun⟩, hrest⟩
      | false =>
        exact ⟨[], _, rfl, by simp, .inr (.inl ⟨c, _, _, _, ps, rfl, .keep c, hc⟩)⟩
    | swap quote old new =>
      have hq := hp quote (hf _ _ _ he).2.2.1
      exact ⟨[], _, rfl, by simp, .inr (.inl ⟨quote, _, _, _, ps, rfl, .swap _ _ _, hq⟩)⟩
    | drop statement breaks => exact ⟨[], _, rfl, by simp, .inr (.inr ⟨_, _, _, rfl⟩)⟩

/-- A specifier that both texts have, up to the piece that closes it. -/
theorem quoted?_run {quote closing : Char} {run y y' : List Char} {closer : Piece}
    (hq : isQuote quote = true) (hrun : ∀ c ∈ run, isInline c = true) (hc : closer.Quotes closing y y')
    (hclosing : isInline closing = false) (others : List Piece) :
    quoted? (quote :: (run ++ sourceOf (closer :: others))) =
        (if run.isEmpty || !isQuote closing then none else some (run, y ++ sourceOf others)) ∧
      quoted? (quote :: (run ++ targetOf (closer :: others))) =
        (if run.isEmpty || !isQuote closing then none else some (run, y' ++ targetOf others)) := by
  rw [sourceOf_cons, targetOf_cons, hc.source, hc.target]
  exact ⟨quoted?_append hq hrun hclosing, quoted?_append hq hrun hclosing⟩

/-- Behind a quote both texts have a specifier, or neither has. -/
theorem Fits.quoted?_align (hf : Fits markup sites pieces) {p : Piece} {quote : Char}
    {x x' : List Char} (he : pieces = done ++ p :: ps) (hp : p.Quotes quote x x')
    (hq : isQuote quote = true) :
    quoted? (sourceOf (p :: ps)) = none ∧ quoted? (targetOf (p :: ps)) = none ∨
      ∃ run closing closer y y' others, ps = run.map .keep ++ closer :: others ∧
        closer.Quotes closing y y' ∧ isQuote closing = true ∧ (p = .keep quote ∨ run = []) ∧
        quoted? (sourceOf (p :: ps)) = some (x ++ run, y ++ sourceOf others) ∧
        quoted? (targetOf (p :: ps)) = some (x' ++ run, y' ++ targetOf others) := by
  cases hp with
  | swap old new =>
    obtain ⟨closing, closer, y, y', others, rfl, hcloser, hclosing⟩ := hf.closed he
    obtain ⟨hold, hnew, _⟩ := hf _ _ _ he
    refine .inr ⟨[], closing, closer, y, y', others, rfl, hcloser, hclosing, .inr rfl, ?_⟩
    have hinline := not_isInline_of_isQuote hclosing
    have hsource := (quoted?_run hq hold.plain.inline hcloser hinline others).1
    have htarget := (quoted?_run hq hnew.inline hcloser hinline others).2
    have hne : ∀ {cs : List Char}, Plain cs → (cs.isEmpty || !isQuote closing) = false := by
      intro cs hcs
      simp [hcs.ne_nil, hclosing]
    rw [hne hold.plain] at hsource
    rw [hne hnew] at htarget
    rw [List.append_nil, List.append_nil]
    exact ⟨hsource, htarget⟩
  | keep =>
    have he' : pieces = done ++ [.keep quote] ++ ps := he.trans (List.append_assoc done [_] ps).symm
    obtain ⟨run, rest, rfl, hrun, hrest⟩ := hf.exists_run he' fun _ => not_isInline_of_isQuote
    have hsource : sourceOf (.keep quote :: (run.map .keep ++ rest)) =
        quote :: (run ++ sourceOf rest) := by simp [Piece.source]
    have htarget : targetOf (.keep quote :: (run.map .keep ++ rest)) =
        quote :: (run ++ targetOf rest) := by simp [Piece.target]
    rw [hsource, htarget]
    rcases hrest with rfl | ⟨closing, closer, y, y', others, rfl, hcloser, hinline⟩ |
      ⟨statement, breaks, others, rfl⟩
    · rw [sourceOf_nil, targetOf_nil, List.append_nil]
      exact .inl ⟨quoted?_end hrun, quoted?_end hrun⟩
    · obtain ⟨hs, ht⟩ := quoted?_run hq hrun hcloser hinline others
      rw [hs, ht]
      split
      · exact .inl ⟨rfl, rfl⟩
      · rename_i hnone
        simp only [Bool.or_eq_true, Bool.not_eq_true', not_or, Bool.not_eq_false] at hnone
        exact .inr ⟨run, closing, closer, y, y', others, rfl, hcloser, hnone.2, .inl rfl, rfl, rfl⟩
    · have hlast : (sourceOf (done ++ [.keep quote] ++ run.map .keep)).getLast? =
          some (run.getLast?.getD quote) := by
        simp [Piece.source, List.getLast?_append, List.getLast?_cons]
      have hline := hf.line_of_drop (he'.trans (List.append_assoc _ _ _).symm) hlast
      exact absurd hline (ne_break_of_inline hq hrun)

/-! ### What follows a specifier -/

theorem exists_line {c : Char} {run : List Char} (hc : c ≠ '\n') (h : run.getLast?.getD c = '\n') :
    ∃ line, run = line ++ ['\n'] := by
  cases hlast : run.getLast? with
  | none =>
    rw [hlast] at h
    exact absurd h hc
  | some d =>
    rw [hlast] at h
    obtain rfl : d = '\n' := h
    exact List.getLast?_eq_some_iff.mp hlast

theorem Piece.Quotes.atQuote {closer : Piece} {closing : Char} {y y' : List Char}
    (h : closer.Quotes closing y y') (hq : isQuote closing = true) (others : List Piece) :
    AtQuote (sourceOf (closer :: others)) ∧ AtQuote (targetOf (closer :: others)) := by
  rw [sourceOf_cons, targetOf_cons, h.source, h.target]
  constructor
  all_goals
    rintro c ⟨⟩
    exact hq

/-- What follows a kept quote is read alike in both texts up to the next quote. -/
theorem Fits.tail?_run (hf : Fits markup sites pieces) (hl : shape.Lawful) {closing : Char}
    (he : pieces = done ++ .keep closing :: ps) (hq : isQuote closing = true) :
    ∃ run rest, ps = run.map .keep ++ rest ∧
      shape.tail? (sourceOf ps) = (shape.tail? run).map (· ++ sourceOf rest) ∧
      shape.tail? (targetOf ps) = (shape.tail? run).map (· ++ targetOf rest) := by
  have he' : pieces = done ++ [.keep closing] ++ ps :=
    he.trans (List.append_assoc done [_] ps).symm
  obtain ⟨run, rest, rfl, hrun, hrest⟩ := hf.exists_run he' (p := (!isQuote ·)) (by simp)
  have hquiet : ∀ c ∈ run, isQuote c = false := by simpa using hrun
  refine ⟨run, rest, rfl, ?_⟩
  rw [sourceOf_append, targetOf_append, sourceOf_keep, targetOf_keep]
  rcases hrest with rfl | ⟨closing', closer, y, y', others, rfl, hcloser, hclosing⟩ |
    ⟨statement, breaks, others, rfl⟩
  · exact ⟨hl.tail_atQuote hquiet (by rintro c ⟨⟩), hl.tail_atQuote hquiet (by rintro c ⟨⟩)⟩
  · obtain ⟨hs, ht⟩ := hcloser.atQuote (by simpa using hclosing) others
    exact ⟨hl.tail_atQuote hquiet hs, hl.tail_atQuote hquiet ht⟩
  · have hlast : (sourceOf (done ++ [.keep closing] ++ run.map .keep)).getLast? =
        some (run.getLast?.getD closing) := by
      simp [Piece.source, List.getLast?_append, List.getLast?_cons]
    have hassoc := he'.trans (List.append_assoc (done ++ [.keep closing]) _ _).symm
    have hne : closing ≠ '\n' := by
      rintro rfl
      cases hq
    obtain ⟨line, rfl⟩ := exists_line hne (hf.line_of_drop hassoc hlast)
    obtain ⟨_, _, ⟨c, hfirst, hc⟩, _⟩ := hf _ _ _ hassoc
    obtain ⟨hcode, hsettles⟩ := hf.code_behind_drop hassoc
    have hsource : ((sourceOf (.drop statement breaks :: others)).dropWhile isBlank).head? ≠
        some ')' := by
      rw [sourceOf_cons, Piece.source, List.dropWhile_append]
      cases hdrop : statement.dropWhile isBlank with
      | nil => simp [hdrop] at hfirst
      | cons d rest =>
        rw [hdrop] at hfirst
        simpa [Option.some.inj hfirst] using hc
    have htarget : ((targetOf (.drop statement breaks :: others)).dropWhile isBlank).head? ≠
        some ')' := by
      rw [targetOf_cons, Piece.target, dropWhile_breaks]
      exact hf.not_closing (hassoc.trans (List.append_assoc _ [_] _).symm) hcode hsettles
    rw [List.append_assoc, List.append_assoc]
    exact ⟨hl.tail_line hsource, hl.tail_line htarget⟩

/-- Behind the quote that closes a specifier the shape goes on in both texts, or in neither. -/
theorem Fits.tail?_align (hf : Fits markup sites pieces) (hl : shape.Lawful) {closer : Piece}
    {closing : Char} {y y' : List Char} (he : pieces = done ++ closer :: ps)
    (hc : closer.Quotes closing y y') (hq : isQuote closing = true) :
    shape.tail? (y ++ sourceOf ps) = none ∧ shape.tail? (y' ++ targetOf ps) = none ∨
      ∃ w w' z z' lead after, ps = lead.map .keep ++ after ∧ y = w ++ z ∧ y' = w' ++ z' ∧
        shape.tail? (y ++ sourceOf ps) = some (z ++ sourceOf after) ∧
        shape.tail? (y' ++ targetOf ps) = some (z' ++ targetOf after) ∧
        (z = [] ∨ lead = [] ∧ Shape.Inert z ∧ AtQuote (sourceOf after) ∧ ∀ c ∈ w, isInline c = true) ∧
        (z' = [] ∨
          lead = [] ∧ Shape.Inert z' ∧ AtQuote (targetOf after) ∧ ∀ c ∈ w', isInline c = true) := by
  cases hc with
  | keep =>
    obtain ⟨run, rest, rfl, hs, ht⟩ := hf.tail?_run hl he hq
    rw [List.nil_append, List.nil_append, hs, ht]
    cases htail : shape.tail? run with
    | none => exact .inl ⟨rfl, rfl⟩
    | some after =>
      obtain ⟨lead, rfl⟩ := hl.suffix htail
      refine .inr ⟨[], [], [], [], lead, after.map .keep ++ rest, by simp, rfl, rfl, ?_⟩
      simp
  | swap old new =>
    obtain ⟨hold, hnew, _⟩ := hf _ _ _ he
    rcases hl.tail_plain with hnone | hsome
    · exact .inl ⟨hnone hold.plain, hnone hnew⟩
    · obtain ⟨z, hz, hs⟩ := @hsome _ (sourceOf ps) hold.plain
      obtain ⟨z', hz', ht⟩ := @hsome _ (targetOf ps) hnew
      obtain ⟨closing', closer, _, _, others, rfl, hcloser, hclosing⟩ := hf.closed he
      obtain ⟨hsource, htarget⟩ := hcloser.atQuote hclosing others
      have hinert := Shape.Inert.of_plain hold.plain hz
      have hinert' := Shape.Inert.of_plain hnew hz'
      obtain ⟨w, rfl⟩ := hz
      obtain ⟨w', rfl⟩ := hz'
      refine .inr ⟨w, w', z, z', [], _, rfl, rfl, rfl, hs, ht, .inr ⟨rfl, hinert, hsource, ?_⟩,
        .inr ⟨rfl, hinert', htarget, ?_⟩⟩
      · exact fun c hc => hold.plain.inline c (List.mem_append_left z hc)
      · exact fun c hc => hnew.inline c (List.mem_append_left z' hc)

/-! ### One match further -/

/-- A match of the target has a specifier that was put in, or it is one of the matches of the source
and its keyword and its specifier stand at kept characters. -/
def Accounted (pieces : List Piece) (found : List Match) (m : Match) : Prop :=
  (∃ quote old, .swap quote old m.specifier ∈ pieces) ∨
    ∃ n ∈ found, n.kind = m.kind ∧
      (∃ done c rest, pieces = done ++ .keep c :: rest ∧ Reader.Decisive c ∧
        n.keywordAt = byteLength (sourceOf done) ∧ m.keywordAt = byteLength (targetOf done)) ∧
      ∃ done c rest, pieces = done ++ .keep c :: rest ∧
        n.specifierAt = byteLength (sourceOf done) + c.utf8Size

/-- Both scans go on behind some of the pieces, and what they find there is accounted for. -/
def Advances (shape : Shape) (pieces done ps : List Piece) : Prop :=
  ∃ front rest found found', ps = front ++ rest ∧ front ≠ [] ∧
    shape.scan (sourceOf done) (sourceOf ps) =
      found ++ shape.scan (sourceOf (done ++ front)) (sourceOf rest) ∧
    shape.scan (targetOf done) (targetOf ps) =
      found' ++ shape.scan (targetOf (done ++ front)) (targetOf rest) ∧
    ∀ m ∈ found', Accounted pieces found m

/-- A scan over a match, of which `z` remains when a string follows. -/
theorem Shape.Lawful.scan_match (hl : shape.Lawful) {front run x w z lead after indent : List Char}
    {quote closing : Char} {kind : Option ImportKind} (hrun : ∀ c ∈ run, isQuote c = false)
    (hbefore : shape.before front.getLast? = true) (hhead : shape.head? run = some (indent, kind))
    (hquoted : quoted? (quote :: (x ++ closing :: (w ++ z ++ (lead ++ after)))) =
      some (x, w ++ z ++ (lead ++ after)))
    (htail : shape.tail? (w ++ z ++ (lead ++ after)) = some (z ++ after))
    (hclosing : isQuote closing = true)
    (hz : z = [] ∨ lead = [] ∧ Inert z ∧ AtQuote after ∧ ∀ c ∈ w, isInline c = true) :
    shape.scan front (run ++ quote :: (x ++ closing :: (w ++ z ++ (lead ++ after)))) =
      Shape.foundAt front run (quote :: (x ++ closing :: (w ++ lead))) indent x kind ::
        shape.scan (front ++ (run ++ quote :: (x ++ closing :: (w ++ z ++ lead)))) after := by
  have htext : quote :: (x ++ closing :: (w ++ z ++ (lead ++ after))) =
      quote :: (x ++ closing :: (w ++ lead)) ++ (z ++ after) := by
    rcases hz with rfl | ⟨rfl, _⟩ <;> simp
  rw [htext] at hquoted ⊢
  rw [scan_of_tail? hrun hbefore hhead hquoted htail (List.cons_ne_nil _ _)]
  congr 1
  rcases hz with rfl | ⟨rfl, hinert, hafter, hw⟩
  · simp
  · rw [hl.scan_inert hinert ⟨w.getLast?.getD closing, ?_, ne_break_of_inline hclosing hw⟩ hafter]
    · simp
    · simp [List.getLast?_append, List.getLast?_cons]

theorem advances_of_none {c : Char} (hs : shape.find? (sourceOf done) (c :: sourceOf ps) = none)
    (ht : shape.find? (targetOf done) (c :: targetOf ps) = none) :
    Advances shape pieces done (.keep c :: ps) := by
  refine ⟨[.keep c], ps, [], [], rfl, List.cons_ne_nil _ _, ?_, ?_, by simp⟩
  · simpa [Piece.source] using Shape.scan_of_none hs
  · simpa [Piece.target] using Shape.scan_of_none ht

/-- From an opening quote on both texts have the rest of a match, or neither has. -/
theorem Fits.match_align (hf : Fits markup sites pieces) (hl : shape.Lawful) {p : Piece}
    {quote : Char} {x x' : List Char} (he : pieces = done ++ p :: ps) (hp : p.Quotes quote x x')
    (hq : isQuote quote = true) :
    (∀ specifier rest, quoted? (sourceOf (p :: ps)) = some (specifier, rest) ∨
        quoted? (targetOf (p :: ps)) = some (specifier, rest) → shape.tail? rest = none) ∨
      ∃ run closing closer w w' z z' lead after,
        ps = run.map .keep ++ closer :: (lead.map .keep ++ after) ∧
        closer.Quotes closing (w ++ z) (w' ++ z') ∧ isQuote closing = true ∧
        (p = .keep quote ∨ run = []) ∧
        quoted? (quote :: (x ++ run ++ closing :: (w ++ z ++ (lead ++ sourceOf after)))) =
          some (x ++ run, w ++ z ++ (lead ++ sourceOf after)) ∧
        quoted? (quote :: (x' ++ run ++ closing :: (w' ++ z' ++ (lead ++ targetOf after)))) =
          some (x' ++ run, w' ++ z' ++ (lead ++ targetOf after)) ∧
        shape.tail? (w ++ z ++ (lead ++ sourceOf after)) = some (z ++ sourceOf after) ∧
        shape.tail? (w' ++ z' ++ (lead ++ targetOf after)) = some (z' ++ targetOf after) ∧
        (z = [] ∨ lead = [] ∧ Shape.Inert z ∧ AtQuote (sourceOf after) ∧ ∀ c ∈ w, isInline c = true) ∧
        (z' = [] ∨
          lead = [] ∧ Shape.Inert z' ∧ AtQuote (targetOf after) ∧ ∀ c ∈ w', isInline c = true) := by
  rcases hf.quoted?_align he hp hq with ⟨hs, ht⟩ | ⟨run, closing, closer, y, y', others, rfl,
    hcloser, hclosing, hkept, hs, ht⟩
  · left
    rintro specifier rest (h | h)
    · exact nomatch hs.symm.trans h
    · exact nomatch ht.symm.trans h
  have hassoc : pieces = done ++ [p] ++ run.map .keep ++ closer :: others := by simp [he]
  rcases hf.tail?_align hl hassoc hcloser hclosing with ⟨hts, htt⟩ |
    ⟨w, w', z, z', lead, after, rfl, rfl, rfl, hts, htt, hz, hz'⟩
  · left
    rintro specifier rest (h | h)
    · obtain ⟨_, rfl⟩ := Prod.mk.inj (Option.some.inj (hs.symm.trans h))
      exact hts
    · obtain ⟨_, rfl⟩ := Prod.mk.inj (Option.some.inj (ht.symm.trans h))
      exact htt
  · have hsource : sourceOf (p :: (run.map .keep ++ closer :: (lead.map .keep ++ after))) =
        quote :: (x ++ run ++ closing :: (w ++ z ++ (lead ++ sourceOf after))) := by
      simp [hp.source, hcloser.source]
    have htarget : targetOf (p :: (run.map .keep ++ closer :: (lead.map .keep ++ after))) =
        quote :: (x' ++ run ++ closing :: (w' ++ z' ++ (lead ++ targetOf after))) := by
      simp [hp.target, hcloser.target]
    rw [hsource, sourceOf_append, sourceOf_keep] at hs
    rw [htarget, targetOf_append, targetOf_keep] at ht
    rw [sourceOf_append, sourceOf_keep] at hts
    rw [targetOf_append, targetOf_keep] at htt
    exact .inr ⟨run, closing, closer, w, w', z, z', lead, after, rfl, hcloser, hclosing, hkept, hs, ht,
      hts, htt, hz, hz'⟩

/-- The specifier was put in, or it stands at a kept quote behind a kept keyword. -/
theorem accounted_at_quote (hl : shape.Lawful) {p : Piece} {quote : Char}
    {run run' x x' lead lead' indent : List Char} {kind : Option ImportKind}
    (he : pieces = done ++ run.map .keep ++ p :: ps) (hp : p.Quotes quote x x')
    (hq : isQuote quote = true) (hhead : shape.head? run = some (indent, kind))
    (hkept : p = .keep quote ∨ run' = []) :
    Accounted pieces [Shape.foundAt (sourceOf done) run lead indent (x ++ run') kind]
      (Shape.foundAt (targetOf done) run lead' indent (x' ++ run') kind) := by
  cases hp with
  | swap old new =>
    obtain rfl := hkept.resolve_left (by simp)
    refine .inl ⟨quote, x, ?_⟩
    rw [he, Shape.foundAt, List.append_nil]
    simp
  | keep =>
    obtain ⟨c, rest, rfl, hdecisive⟩ := hl.exists_decisive hhead
    refine .inr ⟨_, List.mem_singleton_self _, rfl, ?_, ?_⟩
    · refine ⟨done ++ indent.map .keep, c, rest.map .keep ++ .keep quote :: ps, ?_, hdecisive, ?_, ?_⟩
      · simp [he]
      · simp [Shape.foundAt]
      · simp [Shape.foundAt]
    · refine ⟨done ++ (indent ++ c :: rest).map .keep, quote, ps, he, ?_⟩
      have hsize : quote.utf8Size = 1 := by
        rcases isQuote_iff.mp hq with rfl | rfl <;> decide
      rw [sourceOf_append, sourceOf_keep, hsize, Shape.foundAt]

/-- Both texts have a match, or neither has, when they agree up to its opening quote. -/
theorem Fits.advances_at_quote (hf : Fits markup sites pieces) (hl : shape.Lawful) {p : Piece}
    {run x x' : List Char} {quote first : Char} (hq : isQuote quote = true)
    (he : pieces = done ++ (first :: run).map .keep ++ p :: ps) (hp : p.Quotes quote x x')
    (hrun : ∀ c ∈ first :: run, isQuote c = false)
    (hlast : (sourceOf done).getLast? = (targetOf done).getLast?) :
    Advances shape pieces done ((first :: run).map .keep ++ p :: ps) := by
  obtain ⟨hsource, htarget⟩ := hp.atQuote hq ps
  have hnone : (shape.before (sourceOf done).getLast? = true → shape.head? (first :: run) ≠ none →
      ∀ specifier rest, quoted? (sourceOf (p :: ps)) = some (specifier, rest) ∨
        quoted? (targetOf (p :: ps)) = some (specifier, rest) → shape.tail? rest = none) →
      Advances shape pieces done ((first :: run).map .keep ++ p :: ps) := by
    intro h
    refine advances_of_none ?_ ?_
    · have hfind := Shape.find?_eq_none hrun hsource fun hb hhead _ _ hquoted =>
        h hb hhead _ _ (.inl hquoted)
      simpa using hfind
    · have hfind := Shape.find?_eq_none hrun htarget fun hb hhead _ _ hquoted =>
        h (hlast ▸ hb) hhead _ _ (.inr hquoted)
      simpa using hfind
  by_cases hbefore : shape.before (sourceOf done).getLast? = true
  swap
  · exact hnone fun h => absurd h hbefore
  cases hhead : shape.head? (first :: run) with
  | none => exact hnone fun _ h => absurd hhead h
  | some found =>
    obtain ⟨indent, kind⟩ := found
    rcases hf.match_align hl he hp hq with h | ⟨run', closing, closer, w, w', z, z', lead, after, rfl,
      hcloser, hclosing, hkept, hs, ht, hts, htt, hz, hz'⟩
    · exact hnone fun _ _ => h
    have hscan := hl.scan_match hrun hbefore hhead hs hts hclosing hz
    have hscan' := hl.scan_match hrun (hlast ▸ hbefore) hhead ht htt hclosing hz'
    obtain ⟨front, hfront⟩ : ∃ front : List Piece, front =
        (first :: run).map .keep ++ p :: (run'.map .keep ++ closer :: lead.map .keep) := ⟨_, rfl⟩
    have hps : (first :: run).map .keep ++ p :: (run'.map .keep ++ closer :: (lead.map .keep ++ after)) =
        front ++ after := by simp [hfront]
    have hback : sourceOf front =
        first :: run ++ quote :: (x ++ run' ++ closing :: (w ++ z ++ lead)) := by
      simp [hfront, hp.source, hcloser.source]
    have hback' : targetOf front =
        first :: run ++ quote :: (x' ++ run' ++ closing :: (w' ++ z' ++ lead)) := by
      simp [hfront, hp.target, hcloser.target]
    have htext : first :: run ++ quote :: (x ++ run' ++ closing :: (w ++ z ++ (lead ++ sourceOf after))) =
        sourceOf (front ++ after) := by simp [hback]
    have htext' :
        first :: run ++ quote :: (x' ++ run' ++ closing :: (w' ++ z' ++ (lead ++ targetOf after))) =
          targetOf (front ++ after) := by simp [hback']
    rw [htext, ← hback, ← sourceOf_append] at hscan
    rw [htext', ← hback', ← targetOf_append] at hscan'
    rw [hps]
    exact ⟨front, after, [_], [_], rfl, by simp [hfront], hscan, hscan',
      List.forall_mem_singleton.mpr (accounted_at_quote hl he hp hq hhead hkept)⟩

/-- The same character stands in front of both rests, or nothing begins there. -/
theorem Fits.getLast?_align (hf : Fits markup sites pieces) (he : pieces = done ++ ps) :
    (sourceOf done).getLast? = (targetOf done).getLast? ∨
      ∀ c, (sourceOf ps).head? = some c → isQuote c = true ∨ c = '\n' := by
  rcases List.eq_nil_or_concat done with rfl | ⟨done, p, rfl⟩
  · exact .inl rfl
  rw [List.concat_eq_append] at he ⊢
  have hp := hf done p ps (he.trans (List.append_assoc done [p] ps))
  cases p with
  | keep c =>
    left
    simp
  | swap quote old new =>
    obtain ⟨_, _, _, closing, rest, hrest, hclosing⟩ := hp
    right
    rintro c hc
    rw [hrest] at hc
    obtain rfl := Option.some.inj hc
    exact .inl hclosing
  | drop statement breaks => exact .inr fun c hc => .inr (hp.1.ends c hc)

theorem mem_lastRun {front run : List Char} (hrun : ∀ c ∈ run, isQuote c = false) :
    run <:+ lastRun (front ++ run) := by
  rw [lastRun, List.reverse_append, List.takeWhile_append_of_pos (by simpa using hrun),
    List.reverse_append, List.reverse_reverse]
  exact List.suffix_append _ _

theorem Shape.Lawful.scan_breaks (hl : shape.Lawful) (front : List Char) (n : Nat) (rest : List Char) :
    shape.scan front (List.replicate n '\n' ++ rest) =
      shape.scan (front ++ List.replicate n '\n') rest := by
  induction n generalizing front with
  | zero => simp
  | succ n ih =>
    calc shape.scan front (List.replicate (n + 1) '\n' ++ rest)
        = shape.scan (front ++ ['\n']) (List.replicate n '\n' ++ rest) :=
          scan_of_none (hl.find?_break _)
      _ = shape.scan (front ++ ['\n'] ++ List.replicate n '\n') rest := ih _
      _ = shape.scan (front ++ List.replicate (n + 1) '\n') rest := by
          rw [List.append_assoc]
          rfl

/-- In both texts nothing is found at a character that no quote follows in time. -/
theorem Fits.advances_keep (hf : Fits markup sites pieces) (hl : shape.Lawful) {c : Char}
    (he : pieces = done ++ .keep c :: ps) : Advances shape pieces done (.keep c :: ps) := by
  by_cases hq : isQuote c = true
  · exact advances_of_none (hl.find?_quote hq _) (hl.find?_quote hq _)
  by_cases hbreak : c = '\n'
  · subst hbreak
    exact advances_of_none (hl.find?_break _) (hl.find?_break _)
  have hlast : (sourceOf done).getLast? = (targetOf done).getLast? := by
    refine (hf.getLast?_align he).resolve_right fun h => ?_
    rcases h c rfl with h | h
    · exact hq h
    · exact hbreak h
  have he' : pieces = done ++ [.keep c] ++ ps := he.trans (List.append_assoc done [_] ps).symm
  obtain ⟨run, rest, rfl, hrun, hrest⟩ := hf.exists_run he' (p := (!isQuote ·)) (by simp)
  have hquiet : ∀ d ∈ c :: run, isQuote d = false := by
    simpa [hq] using hrun
  rcases hrest with rfl | ⟨quote, closer, x, x', others, rfl, hcloser, hquote⟩ |
    ⟨statement, breaks, others, rfl⟩
  · have hend : ∀ front, shape.find? front (c :: run) = none := by
      intro front
      have hfind := @Shape.find?_eq_none shape front (c :: run) [] hquiet (by rintro _ ⟨⟩)
        fun _ _ _ _ hquoted => nomatch hquoted
      rwa [List.append_nil] at hfind
    rw [List.append_nil]
    exact advances_of_none (by simpa using hend _) (by simpa using hend _)
  · have hassoc : pieces = done ++ (c :: run).map .keep ++ closer :: others := by simp [he]
    exact hf.advances_at_quote hl (by simpa using hquote) hassoc hcloser hquiet hlast
  · have hassoc : pieces = done ++ (c :: run).map .keep ++ .drop statement breaks :: others := by
      simp [he]
    have hend : (sourceOf (done ++ (c :: run).map .keep)).getLast? = some (run.getLast?.getD c) := by
      rw [sourceOf_append, sourceOf_keep, List.getLast?_append, List.getLast?_cons]
      rfl
    obtain ⟨line, rfl⟩ := exists_line hbreak (hf.line_of_drop hassoc hend)
    obtain ⟨hdrop, _⟩ := hf _ _ _ hassoc
    have hword : ∀ word ∈ keywords, ¬ word <:+: c :: line := by
      intro word hmem hin
      have halone := hdrop.alone word hmem
      rw [sourceOf_append, sourceOf_keep] at halone
      refine halone (hin.trans ?_)
      have hrun := (@mem_lastRun (sourceOf done) _ hquiet).isInfix
      exact ((List.prefix_append (c :: line) ['\n']).isInfix).trans hrun
    have hnone : ∀ {front rest}, shape.find? front (c :: (line ++ '\n' :: rest)) = none :=
      hl.find?_line (fun d hd => hquiet d (List.mem_append_left ['\n'] hd)) hword _
    refine advances_of_none ?_ ?_
    · simpa using @hnone (sourceOf done) (sourceOf (.drop statement breaks :: others))
    · simpa using @hnone (targetOf done) (targetOf (.drop statement breaks :: others))

/-- Whatever piece comes next, both scans go on behind it. -/
theorem Fits.advances (hf : Fits markup sites pieces) (hs : shape ∈ shapes) {p : Piece}
    (he : pieces = done ++ p :: ps) : Advances shape pieces done (p :: ps) := by
  have hl := lawful_of_mem_shapes hs
  cases p with
  | keep c => exact hf.advances_keep hl he
  | swap quote old new =>
    obtain ⟨hold, hnew, hq, _⟩ := hf _ _ _ he
    obtain ⟨closing, closer, _, _, others, rfl, hcloser, hclosing⟩ := hf.closed he
    obtain ⟨hsource, htarget⟩ := hcloser.atQuote hclosing others
    have hplain : ∀ {front cs rest : List Char}, Plain cs → AtQuote rest →
        shape.scan front (quote :: cs ++ rest) = shape.scan (front ++ quote :: cs) rest := by
      intro front cs rest hcs hrest
      have hne : quote ≠ '\n' := by
        rintro rfl
        cases hq
      calc shape.scan front (quote :: cs ++ rest)
          = shape.scan (front ++ [quote]) (cs ++ rest) := Shape.scan_of_none (hl.find?_quote hq _)
        _ = shape.scan (front ++ [quote] ++ cs) rest :=
            hl.scan_inert (.of_plain hcs List.suffix_rfl) ⟨quote, List.getLast?_concat, hne⟩ hrest
        _ = shape.scan (front ++ quote :: cs) rest := by
            rw [List.append_assoc]
            rfl
    refine ⟨[.swap quote old new], _, [], [], rfl, List.cons_ne_nil _ _, ?_, ?_, by simp⟩
    · rw [List.nil_append, sourceOf_append, sourceOf_singleton]
      exact hplain hold.plain hsource
    · rw [List.nil_append, targetOf_append, targetOf_singleton]
      exact hplain hnew htarget
  | drop statement breaks =>
    obtain ⟨_, _, _, hfound⟩ := hf _ _ _ he
    obtain ⟨found, hfound⟩ := hfound shape hs
    refine ⟨[.drop statement breaks], ps, found, [], rfl, List.cons_ne_nil _ _, ?_, ?_, by simp⟩
    · rw [sourceOf_append, sourceOf_singleton]
      exact hfound
    · rw [List.nil_append, targetOf_append, targetOf_singleton]
      exact hl.scan_breaks _ breaks _

/-! ### Whole scans -/

/-- Every match of the target is accounted for by the scan of the source. -/
theorem Fits.accounted (hf : Fits markup sites pieces) (hs : shape ∈ shapes)
    (he : pieces = done ++ ps)
    (hsub : shape.scan (sourceOf done) (sourceOf ps) ⊆ shape.scan [] (sourceOf pieces)) :
    ∀ m ∈ shape.scan (targetOf done) (targetOf ps),
      Accounted pieces (shape.scan [] (sourceOf pieces)) m := by
  -- Each time both scans advance, fewer pieces are left.
  induction hn : ps.length using Nat.strong_induction_on generalizing done ps with
  | _ n ih =>
    cases ps with
    | nil => simp
    | cons p ps =>
      obtain ⟨front, rest, found, found', hps, hne, hsource, htarget, hfound⟩ := hf.advances hs he
      rw [hsource] at hsub
      rw [htarget]
      have hlength := congrArg List.length hps
      rw [List.length_append, hn] at hlength
      have hpos := List.length_pos_iff.mpr hne
      intro m hm
      rcases List.mem_append.mp hm with hm | hm
      · rcases hfound m hm with h | ⟨n, hmem, h⟩
        · exact .inl h
        · exact .inr ⟨n, hsub (List.mem_append_left _ hmem), h⟩
      · refine ih rest.length (by omega) ?_ ?_ rfl m hm
        · rw [he, hps, List.append_assoc]
        · exact fun n hmem => hsub (List.mem_append_right _ hmem)

/-- The import sites of the target have the specifiers that were put in. -/
theorem Fits.mem_of_site {dialect : Dialect}
    (hf : Fits dialect.allowsMarkup (importSites (String.ofList (sourceOf pieces)) dialect) pieces)
    {site : ImportSite} (hsite : site ∈ importSites (String.ofList (targetOf pieces)) dialect) :
    ∃ quote old, .swap quote old site.specifier.toList ∈ pieces := by
  obtain ⟨shape, hs, m, hm, hsite⟩ := mem_importSites.mp hsite
  rw [String.toList_ofList] at hm hsite
  obtain ⟨hcode, kind, hkind, rfl⟩ := Match.site?_eq_some_iff.mp hsite
  rcases hf.accounted hs (List.nil_append pieces).symm (fun _ h => h) m hm with ⟨quote, old, h⟩ |
    ⟨n, hn, hkind', ⟨done, c, rest, he, hc, hn', hm'⟩, done', c', rest', he', hat⟩
  · exact ⟨quote, old, by simpa using h⟩
  · -- The match of the source would be a site, but there is none at a kept character.
    exfalso
    have hiscode := hf.isCode_eq he hc
    rw [← hm', ← hn'] at hiscode
    have hsource := Match.site?_eq_some_iff.mpr
      ⟨hiscode.symm.trans hcode, kind, hkind'.trans hkind, rfl⟩
    rw [← String.toList_ofList (l := sourceOf pieces)] at hn hsource
    exact hf _ _ _ he' _ (mem_importSites.mpr ⟨shape, hs, n, hn, hsource⟩) hat

end LivePreview.Source
