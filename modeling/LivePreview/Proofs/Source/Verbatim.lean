import LivePreview.Proofs.Source.Exit

/-!
# Specifiers read back

The import statement and the call of a specifier are found as one site. Both quotes end a specifier,
so the specifier of that site is the one written exactly when it has neither of them.
-/
namespace LivePreview.Source

open LivePreview.Text

/-- The statement that binds the default export of a module. -/
def importStatement (binding : String) (quote : Char) (specifier : String) : String :=
  s!"import {binding} from {quote}{specifier}{quote};"

/-- The call that loads a module. -/
def importCall (quote : Char) (specifier : String) : String :=
  s!"import({quote}{specifier}{quote});"

theorem toList_importStatement (binding specifier : String) (quote : Char) :
    (importStatement binding quote specifier).toList =
      ("import".toList ++ (' ' :: (binding.toList ++ " from ".toList))) ++
        (quote :: (specifier.toList ++ [quote, ';']) ++ []) := by
  simp [importStatement, ToString.toString]

theorem toList_importCall (specifier : String) (quote : Char) :
    (importCall quote specifier).toList =
      "import(".toList ++ (quote :: (specifier.toList ++ [quote, ')']) ++ [';']) := by
  simp [importCall, ToString.toString]

/-! ### Texts with two quotes -/

section Quotes

variable {front specifier back : List Char} {opening closing : Char}

/-- A text with two quotes has one part in front of a quote that another quote follows. -/
theorem eq_front_of_quotes {lead inner tail : List Char} {first second : Char}
    (h : lead ++ first :: (inner ++ second :: tail) =
      front ++ opening :: (specifier ++ closing :: back))
    (hfirst : isQuote first = true) (hsecond : isQuote second = true)
    (hopening : isQuote opening = true) (hf : ∀ c ∈ front, isQuote c = false)
    (hs : ∀ c ∈ specifier, isQuote c = false) (hb : ∀ c ∈ back, isQuote c = false) :
    lead = front := by
  have hnone : ∀ {cs : List Char}, (∀ c ∈ cs, isQuote c = false) → cs.countP isQuote = 0 :=
    fun h => List.countP_eq_zero.mpr fun c hc => by simp [h c hc]
  have hcount := congrArg (List.countP isQuote) h
  simp only [List.countP_append, List.countP_cons_of_pos hfirst, List.countP_cons_of_pos hsecond,
    List.countP_cons_of_pos hopening, List.countP_cons, hnone hf, hnone hs, hnone hb] at hcount
  have hlead : lead.countP isQuote = 0 := by
    split at hcount <;> omega
  refine (append_inj_of_atQuote h (fun c hc => ?_) hf ?_ ?_).1
  · simpa using List.countP_eq_zero.mp hlead c hc
  · rintro c ⟨⟩
    exact hfirst
  · rintro c ⟨⟩
    exact hopening

/-- Whatever is found in a text with two quotes begins in front of the first one. -/
theorem Shape.Lawful.exists_of_mem_scan {shape : Shape} (hl : shape.Lawful) {m : Match}
    (h : m ∈ shape.scan [] (front ++ opening :: (specifier ++ closing :: back)))
    (hopening : isQuote opening = true) (hf : ∀ c ∈ front, isQuote c = false)
    (hs : ∀ c ∈ specifier, isQuote c = false) (hb : ∀ c ∈ back, isQuote c = false) :
    ∃ lead run indent, lead ++ run = front ∧ shape.before lead.getLast? = true ∧
      shape.head? run = some (indent, m.kind) := by
  obtain ⟨lead, rest, htext, hfind⟩ := mem_scan h
  obtain ⟨run, first, second, tail, after, indent, rfl, hbefore, _, hhead, hfirst, hsecond, _⟩ :=
    hl.exists_of_find? hfind
  rw [← List.append_assoc] at htext
  exact ⟨lead, run, indent, eq_front_of_quotes htext.symm hfirst hsecond hopening hf hs hb, hbefore,
    hhead⟩

theorem scan_call_of_not_mem (hparenthesis : '(' ∉ front) (hopening : isQuote opening = true)
    (hf : ∀ c ∈ front, isQuote c = false) (hs : ∀ c ∈ specifier, isQuote c = false)
    (hb : ∀ c ∈ back, isQuote c = false) :
    Shape.call.scan [] (front ++ opening :: (specifier ++ closing :: back)) = [] := by
  refine List.eq_nil_iff_forall_not_mem.mpr fun m hm => ?_
  obtain ⟨lead, run, indent, rfl, _, hhead⟩ :=
    Shape.lawful_call.exists_of_mem_scan hm hopening hf hs hb
  exact hparenthesis (List.mem_append_right _ (mem_of_call hhead).2.2)

/-- On the first line a statement begins nowhere but at the start of the source. -/
theorem scan_statement_of_head? (hbreak : '\n' ∉ front) (hhead : Shape.statement.head? front = none)
    (hopening : isQuote opening = true) (hf : ∀ c ∈ front, isQuote c = false)
    (hs : ∀ c ∈ specifier, isQuote c = false) (hb : ∀ c ∈ back, isQuote c = false) :
    Shape.statement.scan [] (front ++ opening :: (specifier ++ closing :: back)) = [] := by
  refine List.eq_nil_iff_forall_not_mem.mpr fun m hm => ?_
  obtain ⟨lead, run, indent, rfl, hbefore, hrun⟩ :=
    Shape.lawful_statement.exists_of_mem_scan hm hopening hf hs hb
  cases hlast : lead.getLast? with
  | some c =>
    rw [hlast] at hbefore
    obtain rfl : c = '\n' := by simpa [Shape.statement] using hbefore
    exact hbreak (List.mem_append_left _ (List.mem_of_getLast? hlast))
  | none =>
    rw [List.getLast?_eq_none_iff.mp hlast, List.nil_append, hrun] at hhead
    cases hhead

end Quotes

/-! ### The two shapes -/

/-- Names between the keyword and the word `from` make a clause. -/
theorem isFromClause_append {names : List Char} (h : ∀ c ∈ names, c ∉ separators) :
    isFromClause (' ' :: (names ++ " from ".toList)) = true := by
  have hreverse : (' ' :: (names ++ " from ".toList)).reverse.dropWhile isBlank =
      "morf".toList ++ ' ' :: (names.reverse ++ [' ']) := by
    simp [isBlank, inRanges]
  have hseparators : (' ' :: (names.reverse ++ [' '])).all (· ∉ [';', '(', ')', '=', '<', '>']) = true := by
    simpa [separators] using h
  rw [isFromClause, hreverse, dropWord?_append]
  obtain ⟨second, others, hrest⟩ : ∃ second others, names.reverse ++ [' '] = second :: others :=
    List.exists_cons_of_ne_nil (by simp)
  have hlast : (' ' :: (names.reverse ++ [' '])).getLast? = some ' ' := by
    rw [← List.cons_append, List.getLast?_concat]
  rw [hrest] at hseparators hlast ⊢
  dsimp only
  rw [hlast, hseparators]
  rfl

theorem head?_statement_of_isFromClause {clause : List Char} (h : isFromClause clause = true) :
    Shape.statement.head? ("import".toList ++ clause) = some ([], some .static) := by
  have hbare : clause.all isBlank = false := by
    refine Bool.eq_false_iff.mpr fun hall => ?_
    have hnil : clause.reverse.dropWhile isBlank = [] :=
      List.dropWhile_eq_nil_iff.mpr fun c hc => List.all_eq_true.mp hall c (List.mem_reverse.mp hc)
    rw [isFromClause, hnil] at h
    cases h
  have hkind : statementKind? ("import".toList ++ clause) = some (some .static) := by
    rw [statementKind?, dropWord?_append]
    simp [hbare, h]
  simpa [Shape.statement, isIndent] using hkind

/-! ### The sites of the two texts -/

/-- A source begins with code. -/
theorem isCode_zero {source : List Char} (h : source ≠ []) (markup : Bool) :
    (CodeMap.ofSource source markup).isCode 0 = true := by
  obtain ⟨c, rest, rfl⟩ := List.exists_cons_of_ne_nil h
  exact @isCode_of_inCode markup [] c rest ⟨rfl, rfl⟩

/-- The only match of a source is its only site if it begins the source. -/
theorem importSites_of_scan {source : String} {dialect : Dialect} {m : Match} {kind : ImportKind}
    (hm : Shape.statement.scan [] source.toList ++ Shape.call.scan [] source.toList = [m])
    (hkind : m.kind = some kind) (hkeyword : m.keywordAt = 0) :
    (importSites source dialect).map (fun site => (site.kind, site.specifier)) =
      [(kind, String.ofList m.specifier)] := by
  have hne : source.toList ≠ [] := by
    intro hnil
    rw [hnil] at hm
    cases hm
  have hcode : (CodeMap.ofSource source.toList dialect.allowsMarkup).isCode m.keywordAt = true := by
    rw [hkeyword, isCode_zero hne]
  have hsite := Match.site?_eq_some_iff.mpr ⟨hcode, kind, hkind, rfl⟩
  rw [importSites_eq, hm, List.filterMap_cons_some hsite]
  rfl

section Written

variable {binding specifier : String} {quote : Char} {dialect : Dialect}

/-- The statement is found from its first character on, and nothing else is. -/
theorem importSites_importStatement (hb : ∀ c ∈ binding.toList, isQuote c = false ∧ c ∉ separators)
    (hq : isQuote quote = true) (hne : specifier.toList ≠ [])
    (hs : ∀ c ∈ specifier.toList, isInline c = true) :
    (importSites (importStatement binding quote specifier) dialect).map
      (fun site => (site.kind, site.specifier)) = [(.static, specifier)] := by
  let clause := ' ' :: (binding.toList ++ " from ".toList)
  have hclause : isFromClause clause = true := isFromClause_append fun c hc => (hb c hc).2
  have hquiet : ∀ c ∈ "import".toList ++ clause, isQuote c = false := by
    have hletters : ∀ c ∈ "import from ".toList, isQuote c = false := by simp [isQuote]
    intro c hc
    simp only [clause, List.mem_append, List.mem_cons] at hc
    rcases hc with hc | rfl | hc | hc
    · exact hletters c (List.mem_append_left " from ".toList hc)
    · decide
    · exact (hb c hc).1
    · exact hletters c (List.mem_append_right "import".toList hc)
  let found := Shape.foundAt [] ("import".toList ++ clause) (quote :: (specifier.toList ++ [quote, ';']))
    [] specifier.toList (some .static)
  have hstatement : Shape.statement.scan [] ("import".toList ++ clause ++
      (quote :: (specifier.toList ++ [quote, ';']) ++ [])) = [found] := by
    have hquoted := quoted?_of_inline hq hne hs [';']
    rw [← List.append_nil (quote :: _)] at hquoted
    exact Shape.scan_of_tail? hquiet rfl (head?_statement_of_isFromClause hclause) hquoted rfl (by simp)
  have hcall : Shape.call.scan [] ("import".toList ++ clause ++
      (quote :: (specifier.toList ++ [quote, ';']) ++ [])) = [] := by
    rw [List.append_nil (quote :: _)]
    exact scan_call_of_not_mem ((Statement.static hclause).not_mem (by decide)) hq hquiet
      (fun c hc => not_isQuote_of_isInline (hs c hc)) (by simp [isQuote])
  have hscan : Shape.statement.scan [] (importStatement binding quote specifier).toList ++
      Shape.call.scan [] (importStatement binding quote specifier).toList = [found] := by
    rw [toList_importStatement, hstatement, hcall]
    rfl
  rw [importSites_of_scan hscan rfl rfl]
  simp only [found, Shape.foundAt, String.ofList_toList]

/-- The call is found from its first character on, and nothing else is. -/
theorem importSites_importCall (hq : isQuote quote = true) (hne : specifier.toList ≠ [])
    (hs : ∀ c ∈ specifier.toList, isInline c = true) :
    (importSites (importCall quote specifier) dialect).map
      (fun site => (site.kind, site.specifier)) = [(.dynamic, specifier)] := by
  have hquiet : ∀ c ∈ "import(".toList, isQuote c = false := by simp [isQuote]
  let found := Shape.foundAt [] "import(".toList (quote :: (specifier.toList ++ [quote, ')'])) []
    specifier.toList (some .dynamic)
  have htext : quote :: (specifier.toList ++ [quote, ')']) ++ [';'] =
      quote :: (specifier.toList ++ [quote, ')', ';']) := by simp
  have hbehind : ∀ front, Shape.call.scan front [';'] = [] := fun front => by
    rw [Shape.scan_of_none (find?_call_of_ne (by decide) []), Shape.scan_nil]
  have hcall : Shape.call.scan [] ("import(".toList ++
      (quote :: (specifier.toList ++ [quote, ')']) ++ [';'])) = [found] := by
    have hhead : Shape.call.head? "import(".toList = some ([], some .dynamic) := by decide
    have hquoted := quoted?_of_inline hq hne hs [')', ';']
    rw [← htext] at hquoted
    have hfound := @Shape.scan_of_tail? .call [] _ _ _ _ _ _ _ hquiet rfl hhead hquoted (by decide)
      (by simp)
    rw [hfound, hbehind]
  have hstatement : Shape.statement.scan [] ("import(".toList ++
      (quote :: (specifier.toList ++ [quote, ')']) ++ [';'])) = [] := by
    rw [htext]
    exact scan_statement_of_head? (by decide) (by decide) hq hquiet
      (fun c hc => not_isQuote_of_isInline (hs c hc)) (by simp [isQuote])
  have hscan : Shape.statement.scan [] (importCall quote specifier).toList ++
      Shape.call.scan [] (importCall quote specifier).toList = [found] := by
    rw [toList_importCall, hstatement, hcall]
    rfl
  rw [importSites_of_scan hscan rfl rfl]
  simp only [found, Shape.foundAt, String.ofList_toList]

/-- A site that reads back a specifier shows that no quote is in it. -/
theorem not_isQuote_of_map_eq {source : String} {kind : ImportKind}
    (h : (importSites source dialect).map (fun site => (site.kind, site.specifier)) =
      [(kind, specifier)]) : ∀ c ∈ specifier.toList, isQuote c = false := by
  obtain ⟨site, hsite, hfound⟩ := List.map_eq_singleton_iff.mp h
  obtain ⟨_, _, ⟨loc⟩⟩ := exists_located (hsite ▸ List.mem_singleton_self site)
  obtain ⟨_, rfl⟩ := Prod.mk.inj hfound
  exact fun c hc => not_isQuote_of_isInline (loc.inline c hc)

/-- The statement and the call of a specifier on one line have one site, which reads the specifier
back, exactly if it has neither quote. -/
theorem importSites_verbatim_iff (hb : ∀ c ∈ binding.toList, c.isAlpha = true)
    (hq : isQuote quote = true) (hne : specifier ≠ "") (hr : '\r' ∉ specifier.toList)
    (hn : '\n' ∉ specifier.toList) (dialect : Dialect) :
    ((importSites (importStatement binding quote specifier) dialect).map
        (fun site => (site.kind, site.specifier)) = [(.static, specifier)] ↔
      ∀ c ∈ specifier.toList, isQuote c = false) ∧
    ((importSites (importCall quote specifier) dialect).map
        (fun site => (site.kind, site.specifier)) = [(.dynamic, specifier)] ↔
      ∀ c ∈ specifier.toList, isQuote c = false) := by
  have hinline : (∀ c ∈ specifier.toList, isQuote c = false) →
      ∀ c ∈ specifier.toList, isInline c = true := by
    intro hs c hc
    have hbreak : c ≠ '\r' ∧ c ≠ '\n' :=
      ⟨fun he => hr (he ▸ hc), fun he => hn (he ▸ hc)⟩
    simp [isInline, hs c hc, hbreak]
  have hbinding : ∀ c ∈ binding.toList, isQuote c = false ∧ c ∉ separators := by
    have hseparators : ∀ c ∈ separators, c.isAlpha = false := by simp [separators]
    intro c hc
    have hletter := hb c hc
    refine ⟨Bool.eq_false_iff.mpr fun hquote => ?_, fun hsep => ?_⟩
    · rcases isQuote_iff.mp hquote with rfl | rfl <;> cases hletter
    · rw [hseparators c hsep] at hletter
      cases hletter
  have hne' : specifier.toList ≠ [] := fun he => hne (String.toList_eq_nil_iff.mp he)
  exact ⟨⟨not_isQuote_of_map_eq, fun hs => importSites_importStatement hbinding hq hne' (hinline hs)⟩,
    ⟨not_isQuote_of_map_eq, fun hs => importSites_importCall hq hne' (hinline hs)⟩⟩

end Written

/-- A specifier that opens a comment, closes a call and names the keyword. -/
theorem importSites_verbatim_of_keyword :
    (importSites (importStatement "App" '"' "import/*)") .tsx).map
        (fun site => (site.kind, site.specifier)) = [(.static, "import/*)")] ∧
      (importSites (importCall '"' "import/*)") .tsx).map
        (fun site => (site.kind, site.specifier)) = [(.dynamic, "import/*)")] := by
  obtain ⟨hstatement, hcall⟩ := @importSites_verbatim_iff "App" "import/*)" '"'
    (by simp) (by decide) (by decide) (by decide) (by decide) .tsx
  have hquiet : ∀ c ∈ "import/*)".toList, isQuote c = false := by simp [isQuote]
  exact ⟨hstatement.mpr hquiet, hcall.mpr hquiet⟩

/-- The other quote ends a specifier too. -/
theorem importSites_of_apostrophe :
    (importSites (importStatement "x" '"' "it's") .jsx).map
        (fun site => (site.kind, site.specifier)) = [(.static, "it")] ∧
      importSites (importCall '"' "it's") .jsx = [] := by
  decide +kernel

end LivePreview.Source
