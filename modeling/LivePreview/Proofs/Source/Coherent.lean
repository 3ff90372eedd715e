import LivePreview.Proofs.Source.Located

/-!
# Specifiers that are apart

The span of an import site has its specifier, and the statement around it. A specifier stands
between two quotes and has none in it, so specifiers have no character in common. That holds of a
statement and a call too that share a quote, where the one begins in the specifier of the other.
-/
namespace LivePreview.Source

open LivePreview.Text

/-- The spans of a site and what the source has there. -/
structure ImportSite.Coherent (source : List Char) (site : ImportSite) : Prop where
  span : site.span.Covers source site.specifier.toList
  statement : ∃ text, site.statement.Covers source text
  ne_empty : site.specifier ≠ ""
  inline : ∀ c ∈ site.specifier.toList, c ∉ ['\'', '"', '\r', '\n']
  start_le : site.statement.start ≤ site.span.start
  stop_le : site.span.stop ≤ site.statement.stop

theorem not_mem_of_isInline {c : Char} (h : isInline c = true) : c ∉ ['\'', '"', '\r', '\n'] := by
  simp only [isInline, isQuote, Bool.and_eq_true, bne_iff_ne, Bool.not_eq_true',
    Bool.or_eq_false_iff, beq_eq_false_iff_ne] at h
  simp [h]

/-! ### One site -/

namespace Shape

variable {shape : Shape} {front : List Char} {m : Match}

theorem specifier_ne_nil_of_find? {cs : List Char} (h : shape.find? front cs = some m) :
    m.specifier ≠ [] := by
  rw [find?, recognise] at h
  split at h
  · obtain ⟨_, _, h⟩ := Option.bind_eq_some_iff.mp h
    obtain ⟨_, hquoted, h⟩ := Option.bind_eq_some_iff.mp h
    obtain ⟨_, _, rfl⟩ := Option.map_eq_some_iff.mp h
    obtain ⟨_, _, _, _, _, hne, _⟩ := quoted?_eq_some hquoted
    exact hne
  · cases h

/-- The specifier of a match begins in it. -/
theorem Lawful.bounds_of_mem_scan (hl : shape.Lawful) {cs : List Char}
    (h : m ∈ shape.scan front cs) :
    m.whole.start < m.specifierAt ∧ m.specifierAt < m.whole.stop := by
  obtain ⟨lead, rest, _, hfind⟩ := mem_scan h
  obtain ⟨run, opening, closing, tail, after, indent, _, _, _, _, ho, hc, _, _, hm⟩ :=
    hl.exists_of_find? hfind
  have ho := utf8Size_of_isQuote ho
  have hc := utf8Size_of_isQuote hc
  rw [hm]
  simp only [foundAt, byteLength_append, byteLength_cons]
  omega

/-- One scan finds specifiers from left to right. -/
theorem Lawful.pairwise_scan (hl : shape.Lawful) (cs : List Char) :
    (shape.scan front cs).Pairwise fun m n => m.specifierAt < n.specifierAt := by
  refine List.Pairwise.imp_of_mem ?_ (pairwise_matchesFrom start_of_recognise cs)
  intro m n hm hn hle
  have hfirst := hl.bounds_of_mem_scan hm
  have hsecond := hl.bounds_of_mem_scan hn
  omega

end Shape

theorem specifier_ne_empty {source : String} {dialect : Dialect} {site : ImportSite}
    (h : site ∈ importSites source dialect) : site.specifier ≠ "" := by
  obtain ⟨shape, _, m, hm, hsite⟩ := mem_importSites.mp h
  obtain ⟨_, _, _, hfind⟩ := mem_scan hm
  obtain ⟨_, kind, _, rfl⟩ := Match.site?_eq_some_iff.mp hsite
  intro he
  exact Shape.specifier_ne_nil_of_find? hfind (String.ofList_eq_empty_iff.mp he)

theorem Located.coherent {shape : Shape} {source : List Char} {site : ImportSite}
    (loc : Located shape source site) (hne : site.specifier ≠ "") : site.Coherent source where
  span := by
    have ho := utf8Size_of_isQuote loc.isQuote_opening
    refine ⟨loc.front ++ loc.run ++ [loc.opening], loc.closing :: (loc.tail ++ loc.after),
      loc.text.trans (by simp), ?_⟩
    rw [loc.span]
    simp only [byteLength_append, byteLength_cons, byteLength_nil, ho]
  statement := by
    refine ⟨loc.run ++ loc.opening :: (site.specifier.toList ++ loc.closing :: loc.tail), loc.front,
      loc.after, loc.text.trans (by simp), ?_⟩
    rw [loc.statement, byteLength_append]
  ne_empty := hne
  inline := fun c hc => not_mem_of_isInline (loc.inline c hc)
  start_le := Nat.le_of_lt loc.statement_lt_span
  stop_le := by
    rw [loc.stop_statement]
    omega

/-! ### Two sites -/

/-- Both keywords have a letter, so they are no white space. -/
theorem mem_of_statement {run indent : List Char} {kind : Option ImportKind}
    (h : Shape.statement.head? run = some (indent, kind)) : 'p' ∈ run := by
  obtain ⟨_, word, hw, hrun⟩ := Shape.lawful_statement.keyword h
  have hletter : ∀ word ∈ keywords, 'p' ∈ word := by decide
  exact hrun.mem (List.mem_append_right indent (hletter word hw))

/-- The quote that a statement opens is not the one that a call opens: no parenthesis stands in front
of the one, and a parenthesis with only white space behind it in front of the other. -/
theorem byteLength_ne_of_call {front run rest front' run' rest' indent indent' : List Char}
    {kind : ImportKind} {kind' : Option ImportKind}
    (htext : front ++ run ++ rest = front' ++ run' ++ rest')
    (hrun : Shape.statement.head? run = some (indent, some kind))
    (hcall : Shape.call.head? run' = some (indent', kind')) :
    byteLength (front ++ run) ≠ byteLength (front' ++ run') := by
  intro hlength
  obtain ⟨_, _, outside, inside, rfl, _, hinside⟩ := exists_of_call hcall
  have hsame : front ++ run = front' ++ ("import".toList ++ outside) ++ '(' :: inside := by
    simpa using (append_inj_of_byteLength_eq htext hlength).1
  have hparenthesis := not_mem_of_statement hrun
  rcases List.append_eq_append_iff.mp hsame with ⟨middle, _, hmiddle⟩ | ⟨middle, _, hmiddle⟩
  · exact hparenthesis (by simp [hmiddle])
  · have hletter : 'p' ∈ '(' :: inside :=
      hmiddle ▸ List.mem_append_right middle (mem_of_statement hrun)
    rcases List.mem_cons.mp hletter with he | hm
    · cases he
    · exact absurd (hinside _ hm) (by decide)

/-- A statement and a call have different specifiers. -/
theorem specifierAt_ne {cs : List Char} {m n : Match} {kind : ImportKind}
    (hm : m ∈ Shape.statement.scan [] cs) (hk : m.kind = some kind)
    (hn : n ∈ Shape.call.scan [] cs) :
    m.specifierAt ≠ n.specifierAt := by
  obtain ⟨front, rest, hfront, hfind⟩ := mem_scan hm
  obtain ⟨front', rest', hfront', hfind'⟩ := mem_scan hn
  obtain ⟨run, _, _, _, _, _, rfl, _, _, hhead, _, _, _, _, hmatch⟩ :=
    Shape.lawful_statement.exists_of_find? hfind
  obtain ⟨run', _, _, _, _, _, rfl, _, _, hhead', _, _, _, _, hmatch'⟩ :=
    Shape.lawful_call.exists_of_find? hfind'
  rw [hk] at hhead
  have htext := hfront.symm.trans hfront'
  rw [← List.append_assoc, ← List.append_assoc] at htext
  have hne := byteLength_ne_of_call htext hhead hhead'
  rw [hmatch, hmatch']
  exact fun he => hne (Nat.succ.inj he)

/-- The specifiers of a source begin one behind the other. -/
theorem pairwise_start_importSites (source : String) (dialect : Dialect) :
    (importSites source dialect).Pairwise (·.span.start < ·.span.start) := by
  let map := CodeMap.ofSource source.toList dialect.allowsMarkup
  have hsite : ∀ {m : Match} {site : ImportSite}, m.site? map = some site →
      m.kind = some site.kind ∧ m.specifierAt = site.span.start := by
    intro m site h
    obtain ⟨_, kind, hk, rfl⟩ := Match.site?_eq_some_iff.mp h
    exact ⟨hk, rfl⟩
  have hscan : ∀ shape ∈ shapes, (shape.scan [] source.toList).Pairwise fun m n =>
      ∀ a, m.site? map = some a → ∀ b, n.site? map = some b → a.span.start ≠ b.span.start := by
    intro shape hs
    refine ((lawful_of_mem_shapes hs).pairwise_scan _).imp fun hlt a ha b hb => ?_
    rw [← (hsite ha).2, ← (hsite hb).2]
    exact Nat.ne_of_lt hlt
  -- Sorting alone leaves open whether a statement and a call begin their specifiers at one place.
  have hne : ((Shape.statement.scan [] source.toList ++ Shape.call.scan [] source.toList).filterMap
      (·.site? map)).Pairwise fun a b => a.span.start ≠ b.span.start := by
    rw [List.pairwise_filterMap, List.pairwise_append]
    refine ⟨hscan _ (by simp [shapes]), hscan _ (by simp [shapes]), fun m hm n hn a ha b hb => ?_⟩
    rw [← (hsite ha).2, ← (hsite hb).2]
    exact specifierAt_ne hm (hsite ha).1 hn
  rw [importSites_eq]
  refine ((pairwise_sortOn _ _).and (((sortOn_perm _ _).pairwise_iff Ne.symm).mpr hne)).imp ?_
  rintro a b ⟨hle, hne⟩
  exact Nat.lt_of_le_of_ne hle hne

/-- The sites of a source have their specifiers where their spans say, each within its statement, and
one specifier begins behind the end of the other. -/
theorem importSites_coherent (source : String) (dialect : Dialect) :
    (∀ site ∈ importSites source dialect, site.Coherent source.toList) ∧
      (importSites source dialect).Pairwise fun earlier later =>
        earlier.span.start < later.span.start ∧ earlier.span.stop < later.span.start := by
  refine ⟨fun site h => ?_, List.Pairwise.imp_of_mem ?_ (pairwise_start_importSites source dialect)⟩
  · obtain ⟨_, _, ⟨loc⟩⟩ := exists_located h
    exact loc.coherent (specifier_ne_empty h)
  · intro earlier later hearlier hlater hlt
    obtain ⟨_, _, ⟨loc⟩⟩ := exists_located hearlier
    obtain ⟨_, _, ⟨loc'⟩⟩ := exists_located hlater
    have hstop := (loc.eq_or_stop_lt loc' (Nat.le_of_lt hlt)).resolve_left (Nat.ne_of_lt hlt)
    exact ⟨hlt, hstop⟩

/-- The statement has the call's keyword in its specifier, and its closing quote opens the call's. -/
example : (importSites "import /* from './*/import('./b')" .jsx).map
    (fun site => (site.kind, site.span, site.statement)) =
      [(.static, ⟨16, 27⟩, ⟨0, 28⟩), (.dynamic, ⟨28, 31⟩, ⟨20, 33⟩)] := by
  decide +kernel

end LivePreview.Source
