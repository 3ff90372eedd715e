import LivePreview.Proofs.Source.Located

/-!
# Statements within clauses

A clause runs over line breaks, so a further line within it may begin with a keyword. No quote and no
separator stands between the two keywords, and nothing begins behind the opening quote.
-/
namespace LivePreview.Source

open LivePreview.Text

/-- White space bounds words. -/
theorem not_isWordChar_of_isBlank {c : Char} (h : isBlank c = true) : isWordChar c = false := by
  let points := [0x9, 0xA, 0xB, 0xC, 0xD, 0x20, 0x85, 0xA0, 0x1680, 0x2000, 0x2001, 0x2002, 0x2003,
    0x2004, 0x2005, 0x2006, 0x2007, 0x2008, 0x2009, 0x200A, 0x2028, 0x2029, 0x202F, 0x205F, 0x3000]
  have hall : ∀ n ∈ points, isWordChar (Char.ofNat n) = false := by decide +kernel
  have hmem : c.toNat ∈ points := by
    simp only [isBlank, inRanges, List.any_cons, List.any_nil, Bool.or_eq_true, Bool.and_eq_true,
      decide_eq_true_eq, Bool.or_false] at h
    simp only [points, List.mem_cons, List.not_mem_nil, or_false]
    omega
  have hc := hall _ hmem
  rwa [Char.ofNat_toNat] at hc

theorem not_isWordChar_of_isQuote {c : Char} (h : isQuote c = true) : isWordChar c = false := by
  rcases isQuote_iff.mp h with rfl | rfl <;> rfl

/-- The keyword begins a line of the source, behind spaces and tabs at most, and is code. -/
structure Begins (source : List Char) (map : CodeMap) (word : List Char) (n : Nat) : Prop where
  keyword : word ∈ keywords
  line : ∃ front indent rest, source = front ++ (indent ++ (word ++ rest)) ∧
    (∀ c, front.getLast? = some c → c = '\n') ∧ (∀ c ∈ indent, isIndent c = true) ∧
    (∀ c, rest.head? = some c → isWordChar c = false) ∧ n = byteLength (front ++ indent)
  isCode : map.isCode n = true

/-- Neither a quote nor a separator stands between the two positions. -/
def Unended (source : List Char) (start stop : Nat) : Prop :=
  ∀ n c, At source n c → start ≤ n → n < stop → isQuote c = false ∧ c ∉ separators

section Begins

variable {source word : List Char} {map : CodeMap} {n : Nat}

/-- The first letter of a keyword. -/
theorem Begins.exists_at (h : Begins source map word n) :
    ∃ c, isWordChar c = true ∧ At source n c := by
  obtain ⟨front, indent, rest, hsource, _, _, _, rfl⟩ := h.line
  have hfirst : ∀ word ∈ keywords, ∃ c others, word = c :: others ∧ isWordChar c = true := by
    simp [keywords, isWordChar, isAscii]
  obtain ⟨c, others, rfl, hc⟩ := hfirst word h.keyword
  exact ⟨c, hc, front ++ indent, others ++ rest, by simpa using hsource, rfl⟩

/-- Whatever is no indentation in front of a keyword is on an earlier line. -/
theorem Begins.exists_break (h : Begins source map word n) {k : Nat} {c : Char} (hc : At source k c)
    (hi : isIndent c = false) (hlt : k < n) : ∃ m, k ≤ m ∧ m < n ∧ At source m '\n' := by
  obtain ⟨front, indent, rest, hsource, hbreak, hindent, _, rfl⟩ := h.line
  by_cases hle : byteLength front ≤ k
  · rw [hindent c (hc.mem hsource hle hlt)] at hi
    cases hi
  · cases hlast : front.getLast? with
    | none => simp [List.getLast?_eq_none_iff.mp hlast] at hle
    | some d =>
      obtain rfl := hbreak d hlast
      obtain ⟨m, hm, hat⟩ := At.exists_of_getLast? hsource hlast
      have hd : ('\n').utf8Size = 1 := rfl
      rw [byteLength_append] at *
      exact ⟨m, by omega, by omega, hat⟩

end Begins

namespace Located

variable {source word rest : List Char} {site : ImportSite} {map : CodeMap} {n m : Nat}

/-- The statement ends on the line of its opening quote. -/
theorem not_at_break (loc : Located .statement source site)
    (hle : byteLength (loc.front ++ loc.run) ≤ n) (hlt : n < site.statement.stop) :
    ¬ At source n '\n' := by
  intro h
  rw [congrArg Span.stop loc.statement, ← List.append_assoc] at hlt
  have hsource : source = loc.front ++ loc.run ++
      (loc.opening :: (site.specifier.toList ++ loc.closing :: loc.tail) ++ loc.after) :=
    loc.text.trans (by simp)
  have hmem := h.mem hsource hle hlt
  have hquote : isQuote '\n' = false := by decide
  simp only [List.mem_cons, List.mem_append] at hmem
  rcases hmem with ho | hs | hc | ht
  · rw [ho, loc.isQuote_opening] at hquote
    cases hquote
  · exact absurd (loc.inline _ hs) (by decide)
  · rw [hc, loc.isQuote_closing] at hquote
    cases hquote
  · exact (tail_of_statement loc.ends _ ht).elim (by decide) (by decide)

/-- A line that begins with a keyword within the statement begins in the clause. -/
theorem lt_opening_of_begins (loc : Located .statement source site) (h : Begins source map word m)
    (hlt : m < site.statement.stop) : m < byteLength (loc.front ++ loc.run) := by
  obtain ⟨c, hc, hat⟩ := h.exists_at
  refine Nat.lt_of_not_le fun hle => ?_
  rcases Nat.lt_or_eq_of_le hle with hbehind | rfl
  · obtain ⟨k, hk, hkm, hbreak⟩ :=
      h.exists_break loc.at_opening (not_isQuote_of_isIndent loc.isQuote_opening) hbehind
    exact loc.not_at_break hk (hkm.trans hlt) hbreak
  · rw [hat.unique loc.at_opening, not_isWordChar_of_isQuote loc.isQuote_opening] at hc
    cases hc

/-- No line that begins with a keyword begins in front of the statement's own one. -/
theorem le_of_begins (loc : Located .statement source site) (h : Begins source map word m)
    (hindent : ∀ c ∈ loc.indent, isIndent c = true)
    (hrun : loc.run = loc.indent ++ rest) (hle : site.statement.start ≤ m) :
    byteLength (loc.front ++ loc.indent) ≤ m := by
  obtain ⟨c, hc, hat⟩ := h.exists_at
  rw [loc.start_statement] at hle
  refine Nat.le_of_not_lt fun hlt => ?_
  have hmem := hat.mem (loc.text.trans (by rw [hrun, List.append_assoc])) hle hlt
  rw [not_isWordChar_of_isBlank (isBlank_of_isIndent (hindent c hmem))] at hc
  cases hc

end Located

/-! ### Keywords of sites -/

theorem Statement.mem_keywords {word clause : List Char} {kind : ImportKind}
    (h : Statement word clause kind) : word ∈ keywords := by
  cases h <;> simp [keywords]

theorem Statement.word_eq_iff {word clause : List Char} {kind : ImportKind}
    (h : Statement word clause kind) : word = "export".toList ↔ kind = .reExport := by
  cases h <;> simp

theorem Statement.isBlank_of_head? {word clause : List Char} {kind : ImportKind}
    (h : Statement word clause kind) {c : Char} (hc : clause.head? = some c) : isBlank c = true := by
  have hfrom : isFromClause clause = true → isBlank c = true := fun hf => by
    obtain ⟨d, hd, hblank⟩ := head?_of_isFromClause hf
    rwa [Option.some.inj (hc.symm.trans hd)]
  cases h with
  | static hf => exact hfrom hf
  | reExport hf => exact hfrom hf
  | sideEffect hb => exact List.all_eq_true.mp hb c (List.mem_of_mem_head? hc)

namespace Located

variable {source word clause : List Char} {site : ImportSite} {map : CodeMap}

/-- The statement of a site begins with its keyword. -/
theorem begins (loc : Located .statement source site)
    (hindent : ∀ c ∈ loc.indent, isIndent c = true)
    (hrun : loc.run = loc.indent ++ (word ++ clause)) (hs : Statement word clause site.kind)
    (hcode : map.isCode (byteLength (loc.front ++ loc.indent)) = true) :
    Begins source map word (byteLength (loc.front ++ loc.indent)) where
  keyword := hs.mem_keywords
  line := by
    refine ⟨loc.front, loc.indent,
      clause ++ loc.opening :: (site.specifier.toList ++ loc.closing :: (loc.tail ++ loc.after)),
      loc.text.trans (by simp [hrun]), fun c hc => ?_, hindent, fun c hc => ?_, rfl⟩
    · have hbefore := loc.before
      rw [hc] at hbefore
      simpa [Shape.statement] using hbefore
    · cases hclause : clause.head? with
      | some d =>
        rw [List.head?_append, hclause] at hc
        obtain rfl := Option.some.inj hc
        exact not_isWordChar_of_isBlank (hs.isBlank_of_head? hclause)
      | none =>
        rw [List.head?_append, hclause] at hc
        obtain rfl := Option.some.inj hc
        exact not_isWordChar_of_isQuote loc.isQuote_opening
  isCode := hcode

/-- Up to its opening quote the statement has neither a quote nor a separator. -/
theorem unended (loc : Located .statement source site)
    (hrun : loc.run = loc.indent ++ (word ++ clause)) (hs : Statement word clause site.kind) :
    Unended source (byteLength (loc.front ++ loc.indent)) (byteLength (loc.front ++ loc.run)) := by
  intro n c hc hle hlt
  have hsource : source = loc.front ++ loc.indent ++ (word ++ clause ++
      loc.opening :: (site.specifier.toList ++ loc.closing :: (loc.tail ++ loc.after))) :=
    loc.text.trans (by simp [hrun])
  have hmem : c ∈ word ++ clause := hc.mem hsource hle (by rwa [List.append_assoc, ← hrun])
  exact ⟨loc.quiet c (by rw [hrun]; exact List.mem_append_right _ hmem), fun hsep =>
    hs.not_mem hsep hmem⟩

/-- Only white space stands between the word `import` and the quote of a bare import. -/
theorem not_begins_of_sideEffect (loc : Located .statement source site) {word' : List Char} {m : Nat}
    (hrun : loc.run = loc.indent ++ (word ++ clause)) (hs : Statement word clause .sideEffect)
    (hlt : byteLength (loc.front ++ loc.indent) < m) (hm : m < byteLength (loc.front ++ loc.run)) :
    ¬ Begins source map word' m := by
  intro h
  cases hs with
  | sideEffect hb =>
    have hsource : source = loc.front ++ loc.indent ++ ("import".toList ++ (clause ++
        loc.opening :: (site.specifier.toList ++ loc.closing :: (loc.tail ++ loc.after)))) :=
      loc.text.trans (by simp [hrun])
    obtain ⟨c, hc, hat⟩ := h.exists_at
    obtain ⟨k, hk, hkm, hbreak⟩ :=
      h.exists_break ⟨_, _, hsource, rfl⟩ (by decide) hlt
    have hword : byteLength (loc.front ++ loc.indent ++ "import".toList) ≤ k :=
      Nat.le_of_not_lt fun hlt => absurd (hbreak.mem hsource hk hlt) (by decide)
    have hmem : c ∈ clause :=
      hat.mem (hsource.trans (List.append_assoc _ _ _).symm) (hword.trans hkm.le)
        (by rwa [List.append_assoc, List.append_assoc, ← hrun])
    rw [not_isWordChar_of_isBlank (List.all_eq_true.mp hb c hmem)] at hc
    cases hc

end Located

/-- The statement of a site begins with its keyword. Any other keyword that begins a line of it stands
in its clause, and nothing between the two can end a statement. -/
theorem begins_with_keyword {source : String} {dialect : Dialect} {site : ImportSite}
    (h : site ∈ importSites source dialect) (hkind : site.kind ≠ .dynamic) :
    let map := CodeMap.ofSource source.toList dialect.allowsMarkup
    ∃ word n, Begins source.toList map word n ∧ (word = "export".toList ↔ site.kind = .reExport) ∧
      site.statement.start ≤ n ∧ n < site.span.start ∧
      (∀ k c, At source.toList k c → site.statement.start ≤ k → k < n → isIndent c = true) ∧
      ∀ word' m, Begins source.toList map word' m → site.statement.start ≤ m →
        m < site.statement.stop → m = n ∨
          (n < m ∧ m + 1 < site.span.start ∧ site.kind ≠ .sideEffect ∧ Unended source.toList n m) := by
  intro map
  obtain ⟨shape, hs, loc, hcode⟩ := exists_located_isCode h
  simp only [shapes, List.mem_cons, List.not_mem_nil, or_false] at hs
  obtain rfl | rfl := hs
  swap
  · exact absurd (Option.some.inj (exists_of_call loc.head).2.1) hkind
  obtain ⟨word, clause, hrun, hindent, hstatement⟩ := exists_of_statement loc.head
  refine ⟨word, byteLength (loc.front ++ loc.indent),
    loc.begins hindent hrun hstatement hcode, hstatement.word_eq_iff, ?_, ?_, ?_, ?_⟩
  · rw [loc.start_statement, byteLength_append]
    exact Nat.le_add_right _ _
  · rw [loc.start_span, hrun]
    simp only [byteLength_append]
    omega
  · intro k c hc hle hlt
    rw [loc.start_statement] at hle
    exact hindent c (hc.mem (loc.text.trans (by rw [hrun, List.append_assoc])) hle hlt)
  · intro word' m hm hle hlt
    have hopening := loc.lt_opening_of_begins hm hlt
    rcases Nat.eq_or_lt_of_le (loc.le_of_begins hm hindent hrun hle) with heq | hbehind
    · exact .inl heq.symm
    · refine .inr ⟨hbehind, by rw [loc.start_span]; omega, fun hside => ?_, fun k c hc hk hkm => ?_⟩
      · rw [hside] at hstatement
        exact loc.not_begins_of_sideEffect hrun hstatement hbehind hopening hm
      · exact loc.unended hrun hstatement k c hc hk (hkm.trans hopening)

/-- A bare import has no second keyword. -/
theorem begins_with_keyword_of_bare :
    let source := "import a from './a';\n  import './b';\n"
    let map := CodeMap.ofSource source.toList true
    (⟨"./b", .sideEffect, ⟨31, 34⟩, ⟨21, 36⟩⟩ : ImportSite) ∈ importSites source .jsx ∧
      ∃ word n, Begins source.toList map word n ∧ ∀ word' m, Begins source.toList map word' m →
        21 ≤ m → m < 36 → m = n := by
  intro source map
  have hsite : (⟨"./b", .sideEffect, ⟨31, 34⟩, ⟨21, 36⟩⟩ : ImportSite) ∈ importSites source .jsx := by
    decide +kernel
  obtain ⟨word, n, hn, _, _, _, _, hothers⟩ := begins_with_keyword hsite (by decide)
  refine ⟨hsite, word, n, hn, fun word' m hm hle hlt => ?_⟩
  exact (hothers word' m hm hle hlt).resolve_right fun h => h.2.2.1 rfl

/-- A statement without a semicolon takes the import on the next line for its own end. -/
theorem begins_with_two_keywords :
    let source := "export default App\nimport b from './b';\n"
    let map := CodeMap.ofSource source.toList true
    (⟨"./b", .reExport, ⟨34, 37⟩, ⟨0, 39⟩⟩ : ImportSite) ∈ importSites source .jsx ∧
      Begins source.toList map "export".toList 0 ∧ Begins source.toList map "import".toList 19 := by
  intro source map
  refine ⟨by decide +kernel, ⟨by decide, ?_, by decide +kernel⟩, ⟨by decide, ?_, by decide +kernel⟩⟩
  · refine ⟨[], [], " default App\nimport b from './b';\n".toList, by decide +kernel, by simp, by simp,
      ?_, by decide +kernel⟩
    simp [isWordChar, isAscii]
  · refine ⟨"export default App\n".toList, [], " b from './b';\n".toList, by decide +kernel, by simp,
      by simp, ?_, by decide +kernel⟩
    simp [isWordChar, isAscii]

end LivePreview.Source
