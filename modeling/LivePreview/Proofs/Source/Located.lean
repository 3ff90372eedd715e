import LivePreview.Proofs.Source.Scan

/-!
# Where import sites are

The text around an import site, from what it was found by, and how the places of two sites lie to each
other.
-/
namespace LivePreview.Source

open LivePreview.Text

/-- The parts of a source around an import site that a shape found. -/
structure Located (shape : Shape) (source : List Char) (site : ImportSite) where
  front : List Char
  indent : List Char
  /-- From the start of the match up to the opening quote. -/
  run : List Char
  opening : Char
  closing : Char
  /-- From the closing quote up to the end of the match. -/
  tail : List Char
  after : List Char
  text : source =
    front ++ (run ++ opening :: (site.specifier.toList ++ closing :: (tail ++ after)))
  before : shape.before front.getLast? = true
  quiet : ∀ c ∈ run, isQuote c = false
  head : shape.head? run = some (indent, some site.kind)
  isQuote_opening : isQuote opening = true
  isQuote_closing : isQuote closing = true
  inline : ∀ c ∈ site.specifier.toList, isInline c = true
  ends : shape.tail? (tail ++ after) = some after
  span : site.span = ⟨byteLength (front ++ run) + 1,
    byteLength (front ++ run) + 1 + byteLength site.specifier.toList⟩
  statement : site.statement = ⟨byteLength front,
    byteLength (front ++ (run ++ opening :: (site.specifier.toList ++ closing :: tail)))⟩

variable {shape : Shape} {front : List Char} {m : Match}

/-- Each match was found somewhere, and not before the scan resumed. -/
theorem mem_matchesFrom {recognise : Option Char → Nat → List Char → Option Match}
    {previous : Option Char} {resume offset : Nat} {cs : List Char}
    (h : m ∈ matchesFrom recognise resume previous offset cs) :
    ∃ lead rest, cs = lead ++ rest ∧ resume ≤ offset + byteLength lead ∧
      recognise (lead.getLast?.or previous) (offset + byteLength lead) rest = some m := by
  induction cs generalizing previous resume offset with
  | nil => cases h
  | cons c rest ih =>
    have hfurther : ∀ {resume'}, m ∈ matchesFrom recognise resume' (some c) (offset + c.utf8Size) rest →
        ∃ lead rest', c :: rest = lead ++ rest' ∧ resume' ≤ offset + byteLength lead ∧
          offset ≤ offset + byteLength lead ∧
          recognise (lead.getLast?.or previous) (offset + byteLength lead) rest' = some m := by
      intro resume' hm
      obtain ⟨lead, rest', rfl, hresume, hr⟩ := ih hm
      refine ⟨c :: lead, rest', rfl, ?_, ?_, ?_⟩
      · rw [byteLength_cons]
        omega
      · omega
      · rw [byteLength_cons, List.getLast?_cons, ← Nat.add_assoc]
        cases hlast : lead.getLast? <;> simpa [hlast] using hr
    rw [matchesFrom] at h
    by_cases hlt : offset < resume
    · rw [if_pos hlt] at h
      obtain ⟨lead, rest', he, hresume, _, hr⟩ := hfurther h
      exact ⟨lead, rest', he, hresume, hr⟩
    · rw [if_neg hlt] at h
      cases hr : recognise previous offset (c :: rest) with
      | none =>
        rw [hr] at h
        obtain ⟨lead, rest', he, hresume, _, hr⟩ := hfurther h
        exact ⟨lead, rest', he, hresume, hr⟩
      | some first =>
        rw [hr] at h
        rcases List.mem_cons.mp h with rfl | h
        · exact ⟨[], c :: rest, rfl, by simpa using Nat.le_of_not_lt hlt, hr⟩
        · obtain ⟨lead, rest', he, _, hoffset, hr⟩ := hfurther h
          exact ⟨lead, rest', he, by omega, hr⟩

/-- The matches come one behind the other. -/
theorem pairwise_matchesFrom {recognise : Option Char → Nat → List Char → Option Match}
    (hr : ∀ {previous offset cs m}, recognise previous offset cs = some m → m.whole.start = offset)
    {previous : Option Char} {resume offset : Nat} (cs : List Char) :
    (matchesFrom recognise resume previous offset cs).Pairwise (·.whole.stop ≤ ·.whole.start) := by
  induction cs generalizing previous resume offset with
  | nil => exact .nil
  | cons c rest ih =>
    rw [matchesFrom]
    split
    · refine List.pairwise_cons.mpr ⟨fun later hm => ?_, ih⟩
      obtain ⟨lead, _, _, hresume, hfound⟩ := mem_matchesFrom hm
      rw [hr hfound]
      exact hresume
    · exact ih

theorem Shape.start_of_recognise {previous : Option Char} {offset : Nat} {cs : List Char}
    (h : shape.recognise previous offset cs = some m) : m.whole.start = offset := by
  rw [recognise] at h
  split at h
  · obtain ⟨_, _, h⟩ := Option.bind_eq_some_iff.mp h
    obtain ⟨_, _, h⟩ := Option.bind_eq_some_iff.mp h
    obtain ⟨_, _, rfl⟩ := Option.map_eq_some_iff.mp h
    rfl
  · cases h

theorem mem_scan {cs : List Char} (h : m ∈ shape.scan front cs) :
    ∃ lead rest, cs = lead ++ rest ∧ shape.find? (front ++ lead) rest = some m := by
  obtain ⟨lead, rest, rfl, _, hr⟩ := mem_matchesFrom h
  refine ⟨lead, rest, rfl, ?_⟩
  rwa [Shape.find?, List.getLast?_append, byteLength_append]

/-- The text around a match. -/
theorem Shape.Lawful.exists_of_find? (hl : shape.Lawful) {cs : List Char}
    (h : shape.find? front cs = some m) : ∃ run opening closing tail after indent,
      cs = run ++ opening :: (m.specifier ++ closing :: (tail ++ after)) ∧
      shape.before front.getLast? = true ∧ (∀ c ∈ run, isQuote c = false) ∧
      shape.head? run = some (indent, m.kind) ∧ isQuote opening = true ∧ isQuote closing = true ∧
      (∀ c ∈ m.specifier, isInline c = true) ∧ shape.tail? (tail ++ after) = some after ∧
      m = Shape.foundAt front run (opening :: (m.specifier ++ closing :: tail)) indent m.specifier
        m.kind := by
  obtain ⟨run, back, rfl, hrun, hback⟩ := exists_atQuote cs
  rw [Shape.find?, Shape.recognise_append shape hrun hback] at h
  split at h
  swap
  · cases h
  rename_i hbefore
  obtain ⟨⟨indent, kind⟩, hhead, h⟩ := Option.bind_eq_some_iff.mp h
  obtain ⟨⟨specifier, rest⟩, hquoted, h⟩ := Option.bind_eq_some_iff.mp h
  obtain ⟨after, htail, rfl⟩ := Option.map_eq_some_iff.mp h
  obtain ⟨opening, closing, rfl, ho, hc, _, hinline⟩ := quoted?_eq_some hquoted
  obtain ⟨tail, rfl⟩ := hl.suffix htail
  refine ⟨run, opening, closing, tail, after, indent, rfl, hbefore, hrun, hhead, ho, hc, hinline,
    htail, ?_⟩
  simp only [Shape.foundAt, byteLength_append, byteLength_cons, Match.mk.injEq, Span.mk.injEq]
  refine ⟨⟨trivial, ?_⟩, trivial, trivial, trivial, trivial⟩
  omega

/-- A site stands where a shape found it, and its keyword is code. -/
theorem exists_located_isCode {source : String} {dialect : Dialect} {site : ImportSite}
    (h : site ∈ importSites source dialect) :
    ∃ shape ∈ shapes, ∃ loc : Located shape source.toList site,
      (CodeMap.ofSource source.toList dialect.allowsMarkup).isCode
        (byteLength (loc.front ++ loc.indent)) = true := by
  obtain ⟨shape, hs, m, hm, hsite⟩ := mem_importSites.mp h
  obtain ⟨lead, rest, htext, hfind⟩ := mem_scan hm
  obtain ⟨run, opening, closing, tail, after, indent, rfl, hbefore, hquiet, hhead, ho, hc, hinline,
    htail, hmatch⟩ := (lawful_of_mem_shapes hs).exists_of_find? hfind
  obtain ⟨hcode, kind, hkind, rfl⟩ := Match.site?_eq_some_iff.mp hsite
  have hkeyword : m.keywordAt = byteLength (lead ++ indent) := by rw [hmatch]; rfl
  refine ⟨shape, hs, ⟨lead, indent, run, opening, closing, tail, after, ?_, hbefore, hquiet, ?_, ho, hc,
    ?_, htail, ?_, ?_⟩, ?_⟩
  · rw [String.toList_ofList]
    exact htext
  · rw [hhead, hkind]
  · rwa [String.toList_ofList]
  · rw [hmatch, String.toList_ofList]
    simp [Shape.foundAt]
  · rw [hmatch, String.toList_ofList]
    simp [Shape.foundAt]
  · rwa [hkeyword] at hcode

theorem exists_located {source : String} {dialect : Dialect} {site : ImportSite}
    (h : site ∈ importSites source dialect) :
    ∃ shape ∈ shapes, Nonempty (Located shape source.toList site) := by
  obtain ⟨shape, hs, loc, _⟩ := exists_located_isCode h
  exact ⟨shape, hs, ⟨loc⟩⟩

/-! ### Characters at positions -/

/-- The character stands at a position of the text. -/
def At (source : List Char) (n : Nat) (c : Char) : Prop :=
  ∃ a b, source = a ++ c :: b ∧ byteLength a = n

theorem At.unique {source : List Char} {n : Nat} {c d : Char} (h : At source n c)
    (h' : At source n d) : c = d := by
  obtain ⟨a, b, he, hn⟩ := h
  obtain ⟨a', b', he', hn'⟩ := h'
  exact (List.cons.inj (append_inj_of_byteLength_eq (he.symm.trans he') (hn.trans hn'.symm)).2).1

/-- A character at a position within a part of the text cuts the part there. -/
theorem At.exists_append {source a middle b : List Char} {n : Nat} {c : Char} (h : At source n c)
    (he : source = a ++ (middle ++ b)) (hle : byteLength a ≤ n)
    (hlt : n < byteLength (a ++ middle)) :
    ∃ lead others, middle = lead ++ c :: others ∧ n = byteLength (a ++ lead) := by
  obtain ⟨a', b', he', rfl⟩ := h
  obtain ⟨lead, rfl, hrest⟩ := exists_of_byteLength_le (he.symm.trans he') hle
  rw [byteLength_append, byteLength_append, Nat.add_lt_add_iff_left] at hlt
  obtain ⟨others, rfl, hothers⟩ := exists_of_byteLength_le hrest.symm (Nat.le_of_lt hlt)
  cases others with
  | nil => simp at hlt
  | cons d others =>
    obtain ⟨rfl, _⟩ := List.cons.inj hothers
    exact ⟨lead, others, rfl, rfl⟩

theorem At.mem {source a middle b : List Char} {n : Nat} {c : Char} (h : At source n c)
    (he : source = a ++ (middle ++ b)) (hle : byteLength a ≤ n)
    (hlt : n < byteLength (a ++ middle)) : c ∈ middle := by
  obtain ⟨lead, others, rfl, _⟩ := h.exists_append he hle hlt
  simp

/-- The last character in front of a position. -/
theorem At.exists_of_getLast? {source front rest : List Char} {c : Char} (he : source = front ++ rest)
    (h : front.getLast? = some c) : ∃ n, n + c.utf8Size = byteLength front ∧ At source n c := by
  obtain ⟨init, rfl⟩ := List.getLast?_eq_some_iff.mp h
  exact ⟨byteLength init, by simp, init, rest, by simpa using he, rfl⟩

namespace Located

variable {source : List Char} {site site' : ImportSite} {shape' : Shape}

theorem at_opening (loc : Located shape source site) :
    At source (byteLength (loc.front ++ loc.run)) loc.opening :=
  ⟨_, _, loc.text.trans (List.append_assoc _ _ _).symm, rfl⟩

/-- What opens with the quote behind a specifier begins within it, since there is a quote in front
of it. -/
theorem exists_lead (loc : Located shape source site) (loc' : Located shape' source site')
    (he : byteLength (loc'.front ++ loc'.run) =
      byteLength (loc.front ++ (loc.run ++ loc.opening :: site.specifier.toList))) :
    ∃ lead, loc'.front = loc.front ++ loc.run ++ [loc.opening] ++ lead ∧
      site.specifier.toList = lead ++ loc'.run := by
  have htext : loc'.front ++ loc'.run ++
      loc'.opening :: (site'.specifier.toList ++ loc'.closing :: (loc'.tail ++ loc'.after)) =
      loc.front ++ (loc.run ++ loc.opening :: site.specifier.toList) ++
        loc.closing :: (loc.tail ++ loc.after) :=
    ((List.append_assoc _ _ _).trans loc'.text.symm).trans (loc.text.trans (by simp))
  have hfront : loc'.front ++ loc'.run =
      loc.front ++ loc.run ++ [loc.opening] ++ site.specifier.toList :=
    (append_inj_of_byteLength_eq htext he).1.trans (by simp)
  rcases List.append_eq_append_iff.mp hfront with ⟨middle, hf, hr⟩ | ⟨middle, hf, hr⟩
  · cases List.eq_nil_or_concat middle with
    | inl hnil =>
      subst hnil
      exact ⟨[], by simpa using hf.symm, by simpa using hr.symm⟩
    | inr hconcat =>
      obtain ⟨init, c, rfl⟩ := hconcat
      rw [List.concat_eq_append, ← List.append_assoc] at hf
      obtain ⟨_, hc⟩ := List.append_inj' hf rfl
      obtain rfl := (List.cons.inj hc).1
      have hquiet := loc'.quiet loc.opening (by simp [hr])
      rw [loc.isQuote_opening] at hquiet
      cases hquiet
  · exact ⟨middle, hf, hr⟩

/-- No site begins in a specifier and opens with the quote behind it, unless the specifier ends like
the keyword of a call. -/
theorem opening_ne_closing (hl' : shape'.Lawful) (loc : Located shape source site)
    (loc' : Located shape' source site')
    (hlast : site.specifier.toList.getLast?.any (fun c => c != '(' && !isBlank c) = true) :
    byteLength (loc'.front ++ loc'.run) ≠
      byteLength (loc.front ++ (loc.run ++ loc.opening :: site.specifier.toList)) := by
  intro he
  obtain ⟨lead, hlead, hspecifier⟩ := loc.exists_lead loc' he
  have hbefore := loc'.before
  have hprevious : loc'.front.getLast? = some (lead.getLast?.getD loc.opening) := by
    rw [hlead, List.append_assoc, List.getLast?_append]
    simp [List.getLast?_cons]
  rw [hprevious] at hbefore
  have hinline : ∀ c ∈ lead, isInline c = true := fun c hc =>
    loc.inline c (by rw [hspecifier]; exact List.mem_append_left _ hc)
  have hrunLast : loc'.run.getLast?.any (fun c => c != '(' && !isBlank c) = true := by
    rw [hspecifier, List.getLast?_append] at hlast
    cases hrun : loc'.run.getLast? with
    | some c => rwa [hrun, Option.some_or] at hlast
    | none =>
      have hnil := loc'.head
      rw [List.getLast?_eq_none_iff.mp hrun, hl'.head?_nil] at hnil
      cases hnil
  have hhead := hl'.plain hbefore (ne_break_of_inline loc.isQuote_opening hinline) hrunLast
  rw [loc'.head] at hhead
  cases hhead

end Located

/-! ### Statements -/

/-- The characters that no clause has. -/
def separators : List Char := [';', '(', ')', '=', '<', '>']

theorem not_isBlank_of_mem_separators {c : Char} (h : c ∈ separators) : isBlank c = false := by
  have hall : separators.all (!isBlank ·) = true := by decide
  simpa using List.all_eq_true.mp hall c h

theorem not_mem_of_isFromClause {clause : List Char} (h : isFromClause clause = true) {c : Char}
    (hc : c ∈ separators) : c ∉ clause := by
  rw [isFromClause] at h
  split at h
  · cases h
  rename_i reversed hword
  split at h
  · simp only [Bool.and_eq_true] at h
    intro hm
    have hreverse := List.takeWhile_append_dropWhile (p := isBlank) (l := clause.reverse)
    rw [eq_append_of_dropWord? hword] at hreverse
    have hmem : c ∈ clause.reverse := List.mem_reverse.mpr hm
    rw [← hreverse] at hmem
    rcases List.mem_append.mp hmem with hmem | hmem
    · have hblank := List.mem_takeWhile_imp hmem
      rw [not_isBlank_of_mem_separators hc] at hblank
      cases hblank
    · rcases List.mem_append.mp hmem with hmem | hmem
      · have hletters : ∀ c ∈ separators, c ∉ "morf".toList := by simp [separators]
        exact hletters c hc hmem
      · exact of_decide_eq_true (List.all_eq_true.mp h.2 _ hmem) hc
  · cases h

theorem head?_of_isFromClause {clause : List Char} (h : isFromClause clause = true) :
    ∃ c, clause.head? = some c ∧ isBlank c = true := by
  rw [isFromClause] at h
  split at h
  · cases h
  rename_i reversed hword
  split at h
  · rename_i last _ _ first hfirst
    simp only [Bool.and_eq_true] at h
    refine ⟨first, ?_, h.1.2⟩
    have hreverse := List.takeWhile_append_dropWhile (p := isBlank) (l := clause.reverse)
    rw [eq_append_of_dropWord? hword] at hreverse
    rw [← List.getLast?_reverse, ← hreverse, List.getLast?_append, List.getLast?_append, hfirst]
    rfl
  · cases h

/-- The keyword of a statement that names a module, the clause between it and the opening quote, and
the kind that they give the statement. -/
inductive Statement : List Char → List Char → ImportKind → Prop
  | static {clause : List Char} (hf : isFromClause clause = true) :
      Statement "import".toList clause .static
  | sideEffect {clause : List Char} (hb : clause.all isBlank = true) :
      Statement "import".toList clause .sideEffect
  | reExport {clause : List Char} (hf : isFromClause clause = true) :
      Statement "export".toList clause .reExport

theorem Statement.not_mem {word clause : List Char} {kind : ImportKind}
    (h : Statement word clause kind) {c : Char} (hc : c ∈ separators) : c ∉ word ++ clause := by
  have hkeywords : ∀ c ∈ separators, ∀ word ∈ keywords, c ∉ word := by simp [separators, keywords]
  rw [List.mem_append, not_or]
  constructor
  · cases h with
    | reExport _ => exact hkeywords c hc _ (List.mem_cons_of_mem _ List.mem_cons_self)
    | _ => exact hkeywords c hc _ List.mem_cons_self
  · cases h with
    | static hf => exact not_mem_of_isFromClause hf hc
    | reExport hf => exact not_mem_of_isFromClause hf hc
    | sideEffect hb =>
      intro hm
      have hblank := List.all_eq_true.mp hb c hm
      rw [not_isBlank_of_mem_separators hc] at hblank
      cases hblank

/-- What stands in front of the opening quote of a statement. -/
theorem exists_of_statement {run indent : List Char} {kind : ImportKind}
    (h : Shape.statement.head? run = some (indent, some kind)) :
    ∃ word clause, run = indent ++ (word ++ clause) ∧ (∀ c ∈ indent, isIndent c = true) ∧
      Statement word clause kind := by
  simp only [Shape.statement, Option.map_eq_some_iff, Prod.mk.injEq] at h
  obtain ⟨_, hk, rfl, rfl⟩ := h
  have hrun := List.takeWhile_append_dropWhile (p := isIndent) (l := run)
  have hindent : ∀ c ∈ run.takeWhile isIndent, isIndent c = true :=
    fun c hc => List.mem_takeWhile_imp hc
  rw [statementKind?] at hk
  cases himported : dropWord? "import".toList (run.dropWhile isIndent) with
  | some clause =>
    rw [himported, Option.some_or] at hk
    rw [eq_append_of_dropWord? himported] at hrun
    refine ⟨_, clause, hrun.symm, hindent, ?_⟩
    cases hb : clause.all isBlank with
    | true =>
      obtain rfl : kind = .sideEffect := by simpa [hb] using hk.symm
      exact .sideEffect hb
    | false =>
      cases hf : isFromClause clause with
      | true =>
        obtain rfl : kind = .static := by simpa [hb, hf] using hk.symm
        exact .static hf
      | false => simp [hb, hf] at hk
  | none =>
    rw [himported, Option.none_or] at hk
    cases hexported : dropWord? "export".toList (run.dropWhile isIndent) with
    | none =>
      rw [hexported] at hk
      cases hk
    | some clause =>
      rw [hexported] at hk
      rw [eq_append_of_dropWord? hexported] at hrun
      refine ⟨_, clause, hrun.symm, hindent, ?_⟩
      cases hf : isFromClause clause with
      | true =>
        obtain rfl : kind = .reExport := by
          cases hb : clause.all isBlank <;> simp [hb, hf] at hk
          exact hk.symm
        exact .reExport hf
      | false => cases hb : clause.all isBlank <;> simp [hb, hf] at hk

/-- No call begins in a statement that names a module. -/
theorem not_mem_of_statement {run indent : List Char} {kind : ImportKind}
    (h : Shape.statement.head? run = some (indent, some kind)) : '(' ∉ run := by
  obtain ⟨word, clause, rfl, hindent, hstatement⟩ := exists_of_statement h
  intro hm
  rcases List.mem_append.mp hm with hm | hm
  · exact absurd (hindent _ hm) (by decide)
  · exact hstatement.not_mem (by decide) hm

/-- What stands in front of the opening quote of a call. -/
theorem exists_of_call {run indent : List Char} {kind : Option ImportKind}
    (h : Shape.call.head? run = some (indent, kind)) :
    indent = [] ∧ kind = some .dynamic ∧ ∃ outside inside, run =
      "import".toList ++ (outside ++ '(' :: inside) ∧ (∀ c ∈ outside, isBlank c = true) ∧
        ∀ c ∈ inside, isBlank c = true := by
  simp only [Shape.call] at h
  split at h
  · cases h
  rename_i behindKeyword hword
  split at h
  · cases h
  rename_i inside hopen
  split at h
  swap
  · cases h
  rename_i hinside
  cases h
  have hrun := List.takeWhile_append_dropWhile (p := isBlank) (l := behindKeyword)
  rw [eq_append_of_dropWord? hopen] at hrun
  refine ⟨rfl, rfl, behindKeyword.takeWhile isBlank, inside, ?_, fun c hc => List.mem_takeWhile_imp hc,
    List.all_eq_true.mp hinside⟩
  exact (eq_append_of_dropWord? hword).trans (congrArg ("import".toList ++ ·) hrun.symm)

theorem mem_of_call {run indent : List Char} {kind : Option ImportKind}
    (h : Shape.call.head? run = some (indent, kind)) :
    kind = some .dynamic ∧ run.head? = some 'i' ∧ '(' ∈ run := by
  obtain ⟨_, hkind, outside, inside, rfl, _, _⟩ := exists_of_call h
  exact ⟨hkind, rfl, by simp⟩

/-- Only spaces, tabs and a semicolon follow the closing quote of a statement. -/
theorem tail_of_statement {tail after : List Char}
    (h : Shape.statement.tail? (tail ++ after) = some after) : ∀ c ∈ tail, isIndent c = true ∨ c = ';' := by
  have hrest := List.takeWhile_append_dropWhile (p := isIndent) (l := tail ++ after)
  have hindent : ∀ c ∈ (tail ++ after).takeWhile isIndent, isIndent c = true :=
    fun c hc => List.mem_takeWhile_imp hc
  have hafter := Option.some.inj h
  split at hafter
  · rename_i hsemicolon
    obtain ⟨others, he⟩ := List.head?_eq_some_iff.mp hsemicolon
    rw [he, List.tail_cons] at hafter
    rw [he, hafter] at hrest
    have htail : (tail ++ after).takeWhile isIndent ++ [';'] = tail :=
      List.append_cancel_right (by simpa using hrest)
    intro c hc
    rw [← htail] at hc
    rcases List.mem_append.mp hc with hc | hc
    · exact .inl (hindent c hc)
    · exact .inr (List.mem_singleton.mp hc)
  · rw [hafter] at hrest
    rw [List.append_cancel_right hrest] at hindent
    exact fun c hc => .inl (hindent c hc)

/-- A scan for calls finds none where it can take no step into one. -/
theorem scan_of_all_none {shape : Shape} {front middle rest : List Char}
    (h : ∀ a c b, middle = a ++ c :: b → shape.find? (front ++ a) (c :: (b ++ rest)) = none) :
    shape.scan front (middle ++ rest) = shape.scan (front ++ middle) rest := by
  induction middle generalizing front with
  | nil => simp
  | cons c middle ih =>
    calc shape.scan front (c :: (middle ++ rest))
        = shape.scan (front ++ [c]) (middle ++ rest) :=
          Shape.scan_of_none (by simpa using h [] c middle rfl)
      _ = shape.scan (front ++ [c] ++ middle) rest :=
          ih fun a d b he => by simpa using h (c :: a) d b (by simp [he])
      _ = shape.scan (front ++ c :: middle) rest := by simp

theorem find?_call_of_ne {front : List Char} {c : Char} (hc : c ≠ 'i') (rest : List Char) :
    Shape.call.find? front (c :: rest) = none := by
  obtain ⟨run, back, he, hrun, hback⟩ := exists_atQuote (c :: rest)
  rw [he]
  refine Shape.find?_of_head? hrun hback fun _ => ?_
  cases hhead : Shape.call.head? run with
  | none => rfl
  | some found =>
    have hfirst := (mem_of_call hhead).2.1
    obtain ⟨others, rfl⟩ := List.head?_eq_some_iff.mp hfirst
    exact absurd (List.cons.inj he).1 hc

/-- There is no call within a statement with a plain specifier. -/
theorem Located.scan_call {source : List Char} {site : ImportSite}
    (loc : Located Shape.statement source site) (hp : Plain site.specifier.toList) :
    Shape.call.scan loc.front
        (loc.run ++ loc.opening :: (site.specifier.toList ++ loc.closing :: (loc.tail ++ loc.after))) =
      Shape.call.scan
        (loc.front ++ (loc.run ++ loc.opening :: (site.specifier.toList ++ loc.closing :: loc.tail)))
        loc.after := by
  have hl := Shape.lawful_call
  have hback : ∀ rest, AtQuote (loc.opening :: rest) := by
    rintro rest c ⟨⟩
    exact loc.isQuote_opening
  have hback' : ∀ rest, AtQuote (loc.closing :: rest) := by
    rintro rest c ⟨⟩
    exact loc.isQuote_closing
  have hrun : ∀ rest a c b, loc.run = a ++ c :: b →
      Shape.call.find? (loc.front ++ a) (c :: (b ++ loc.opening :: rest)) = none := by
    intro rest a c b he
    have hquiet : ∀ d ∈ c :: b, isQuote d = false := fun d hd =>
      loc.quiet d (by rw [he]; exact List.mem_append_right a hd)
    refine @Shape.find?_of_head? _ _ (c :: b) _ hquiet (hback rest) fun _ => ?_
    cases hhead : Shape.call.head? (c :: b) with
    | none => rfl
    | some found =>
      have hmem := List.mem_append_right a (mem_of_call hhead).2.2
      rw [← he] at hmem
      exact absurd hmem (not_mem_of_statement loc.head)
  have htail : ∀ front a c b, loc.tail = a ++ c :: b →
      Shape.call.find? (front ++ a) (c :: (b ++ loc.after)) = none := by
    intro front a c b he
    refine find?_call_of_ne ?_ _
    rintro rfl
    rcases tail_of_statement loc.ends 'i' (by simp [he]) with h | h
    · cases h
    · cases h
  have hne : loc.opening ≠ '\n' := by
    intro he
    have hq := loc.isQuote_opening
    rw [he] at hq
    cases hq
  rw [scan_of_all_none (hrun _), Shape.scan_of_none (hl.find?_quote loc.isQuote_opening _),
    hl.scan_inert (.of_plain hp List.suffix_rfl) ⟨_, List.getLast?_concat, hne⟩ (hback' _),
    Shape.scan_of_none (hl.find?_quote loc.isQuote_closing _), scan_of_all_none (htail _)]
  simp

/-! ### The places of two sites -/

theorem utf8Size_of_isQuote {c : Char} (h : isQuote c = true) : c.utf8Size = 1 := by
  rcases isQuote_iff.mp h with rfl | rfl <;> rfl

theorem not_isInline_break : isInline '\n' = false := by decide

namespace Located

variable {source : List Char} {site site' : ImportSite} {shape' : Shape}

theorem start_span (loc : Located shape source site) :
    site.span.start = byteLength (loc.front ++ loc.run) + 1 :=
  congrArg Span.start loc.span

theorem stop_span (loc : Located shape source site) :
    site.span.stop = site.span.start + byteLength site.specifier.toList := by
  rw [loc.start_span]
  exact congrArg Span.stop loc.span

theorem start_statement (loc : Located shape source site) :
    site.statement.start = byteLength loc.front :=
  congrArg Span.start loc.statement

/-- The closing quote and what follows it end the statement. -/
theorem stop_statement (loc : Located shape source site) :
    site.statement.stop = site.span.stop + 1 + byteLength loc.tail := by
  have hstop := congrArg Span.stop loc.statement
  have ho := utf8Size_of_isQuote loc.isQuote_opening
  have hc := utf8Size_of_isQuote loc.isQuote_closing
  rw [hstop, loc.stop_span, loc.start_span]
  simp only [byteLength_append, byteLength_cons]
  omega

theorem statement_lt_span (loc : Located shape source site) :
    site.statement.start < site.span.start := by
  rw [loc.start_statement, loc.start_span, byteLength_append]
  omega

/-- The line of a statement begins behind a line break. -/
theorem at_break (loc : Located .statement source site) {n : Nat}
    (h : site.statement.start = n + 1) : At source n '\n' := by
  rw [loc.start_statement] at h
  have hbefore := loc.before
  cases hlast : loc.front.getLast? with
  | none =>
    rw [List.getLast?_eq_none_iff.mp hlast] at h
    cases h
  | some c =>
    rw [hlast] at hbefore
    obtain rfl : c = '\n' := by simpa [Shape.statement] using hbefore
    obtain ⟨k, hk, hat⟩ := At.exists_of_getLast? loc.text hlast
    obtain rfl : k = n := Nat.succ.inj (hk.trans h)
    exact hat

/-- Between the opening and the closing quote there is neither a quote nor a line break. -/
theorem isInline_of_at (loc : Located shape source site) {n : Nat} {c : Char} (h : At source n c)
    (hle : site.span.start ≤ n) (hlt : n < site.span.stop) : isInline c = true := by
  have ho := utf8Size_of_isQuote loc.isQuote_opening
  have hstart : byteLength (loc.front ++ loc.run ++ [loc.opening]) = site.span.start := by
    rw [loc.start_span, byteLength_append, byteLength_cons, ho]
    rfl
  refine loc.inline c (h.mem (a := loc.front ++ loc.run ++ [loc.opening])
    (b := loc.closing :: (loc.tail ++ loc.after)) (loc.text.trans (by simp)) ?_ ?_)
  · rwa [hstart]
  · rwa [byteLength_append, hstart, ← loc.stop_span]

/-- Two specifiers begin at the same place, or the one is behind the other. -/
theorem eq_or_stop_lt (loc : Located shape source site) (loc' : Located shape' source site')
    (h : site.span.start ≤ site'.span.start) :
    site.span.start = site'.span.start ∨ site.span.stop < site'.span.start := by
  rw [loc'.start_span] at h ⊢
  by_cases hlt : site.span.start ≤ byteLength (loc'.front ++ loc'.run)
  · by_cases hstop : site.span.stop ≤ byteLength (loc'.front ++ loc'.run)
    · exact .inr (Nat.lt_succ_of_le hstop)
    · have hinline := loc.isInline_of_at loc'.at_opening hlt (Nat.lt_of_not_le hstop)
      rw [not_isInline_of_isQuote loc'.isQuote_opening] at hinline
      cases hinline
  · exact .inl (by omega)

/-- No statement begins in a specifier. -/
theorem stop_le_statement (loc : Located shape source site) (loc' : Located .statement source site')
    (h : site.span.start ≤ site'.statement.start) : site.span.stop ≤ site'.statement.start := by
  obtain ⟨n, hn⟩ : ∃ n, site'.statement.start = n + 1 := by
    rw [loc.start_span] at h
    exact ⟨_, (Nat.succ_pred_eq_of_pos (by omega)).symm⟩
  have hbreak := loc'.at_break hn
  rw [hn] at h ⊢
  by_cases hstop : site.span.stop ≤ n + 1
  · exact hstop
  · rcases Nat.lt_or_ge n site.span.start with hlt | hle
    · -- The line break stands where the opening quote is.
      obtain rfl : n = byteLength (loc.front ++ loc.run) := by
        rw [loc.start_span] at h hlt
        omega
      have hq := loc.isQuote_opening
      rw [loc.at_opening.unique hbreak] at hq
      cases hq
    · have hinline := loc.isInline_of_at hbreak hle (by omega)
      rw [not_isInline_break] at hinline
      cases hinline

/-- A quote within a statement is one of the two around its specifier. -/
theorem eq_of_isQuote (loc : Located .statement source site) {n : Nat} {c : Char}
    (h : At source n c) (hq : isQuote c = true) (hle : site.statement.start ≤ n)
    (hlt : n < site.statement.stop) : n + 1 = site.span.start ∨ n = site.span.stop := by
  have ho := utf8Size_of_isQuote loc.isQuote_opening
  have hc := utf8Size_of_isQuote loc.isQuote_closing
  have hstart := loc.start_span
  have hstop := loc.stop_span
  have hend := loc.stop_statement
  rw [loc.start_statement] at hle
  by_cases hrun : n < byteLength (loc.front ++ loc.run)
  · have hquiet := loc.quiet c (h.mem (loc.text.trans rfl) hle hrun)
    rw [hq] at hquiet
    cases hquiet
  by_cases hspecifier : site.span.start ≤ n ∧ n < site.span.stop
  · have hinline := loc.isInline_of_at h hspecifier.1 hspecifier.2
    rw [not_isInline_of_isQuote hq] at hinline
    cases hinline
  by_cases htail : site.span.stop < n
  · have hlength : byteLength (loc.front ++ (loc.run ++ loc.opening ::
        (site.specifier.toList ++ [loc.closing]))) = site.span.stop + 1 := by
      rw [hstop, hstart]
      simp only [byteLength_append, byteLength_cons, byteLength_nil]
      omega
    have hmem : c ∈ loc.tail := by
      refine h.mem
        (a := loc.front ++ (loc.run ++ loc.opening :: (site.specifier.toList ++ [loc.closing])))
        (b := loc.after) (loc.text.trans (by simp)) (by omega) ?_
      rw [byteLength_append _ loc.tail, hlength]
      omega
    rcases tail_of_statement loc.ends _ hmem with hi | he
    · rw [not_isQuote_of_isIndent hq] at hi
      cases hi
    · rw [he] at hq
      cases hq
  · omega

/-- Another specifier behind the start of a statement is behind its end. -/
theorem statement_stop_lt (loc : Located .statement source site)
    (hlast : site.specifier.toList.getLast?.any (fun c => c != '(' && !isBlank c) = true)
    (hl' : shape'.Lawful) (loc' : Located shape' source site')
    (hne : site.span.start ≠ site'.span.start) (h : site.statement.start ≤ site'.span.start) :
    site.statement.stop < site'.span.start := by
  have hquote := loc'.at_opening
  have hstart := loc'.start_span
  have hbreak : site.statement.start ≠ byteLength (loc'.front ++ loc'.run) + 1 := by
    intro he
    have hq := loc'.isQuote_opening
    rw [hquote.unique (loc.at_break he)] at hq
    cases hq
  by_contra hlt
  rcases loc.eq_of_isQuote hquote loc'.isQuote_opening (by omega) (by omega) with he | he
  · omega
  · have hclosing := loc.opening_ne_closing hl' loc' hlast
    have ho := utf8Size_of_isQuote loc.isQuote_opening
    have hspecifier := loc.stop_span
    have hopening := loc.start_span
    simp only [byteLength_append, byteLength_cons] at hclosing hopening he
    omega

/-- A specifier behind the start of a statement is in it or behind it. -/
theorem within_or_behind (loc : Located .statement source site)
    (hlast : site.specifier.toList.getLast?.any (fun c => c != '(' && !isBlank c) = true)
    (hl' : shape'.Lawful) (loc' : Located shape' source site')
    (h : site.statement.start ≤ site'.span.start) :
    site.statement.start < site'.span.start ∧ site'.span.start < site.statement.stop ∨
      site.statement.stop < site'.span.start := by
  by_cases he : site.span.start = site'.span.start
  · have hlt := loc.statement_lt_span
    have hstop := loc.stop_span
    have hend := loc.stop_statement
    omega
  · exact .inr (loc.statement_stop_lt hlast hl' loc' he h)

/-- A statement has no part of another specifier. -/
theorem statement_apart (loc : Located .statement source site)
    (hlast : site.specifier.toList.getLast?.any (fun c => c != '(' && !isBlank c) = true)
    (hl' : shape'.Lawful) (loc' : Located shape' source site')
    (hne : site.span.start ≠ site'.span.start) :
    site'.span.stop ≤ site.statement.start ∨ site.statement.stop < site'.span.start := by
  rcases Nat.le_total site'.span.start site.statement.start with hle | hle
  · exact .inl (loc'.stop_le_statement loc hle)
  · exact .inr (loc.statement_stop_lt hlast hl' loc' hne hle)

end Located

/-- The statements of two sites that can be dropped have nothing in common. -/
def ImportSite.Disjoint (site site' : ImportSite) : Prop :=
  site.isRemovable = true → site'.isRemovable = true →
    site.statement.stop ≤ site'.statement.start ∨ site'.statement.stop ≤ site.statement.start

theorem ImportSite.Disjoint.symm {site site' : ImportSite} (h : site.Disjoint site') :
    site'.Disjoint site := fun h' hsite => (h hsite h').symm

theorem pairwise_importSites (source : String) (dialect : Dialect) :
    (importSites source dialect).Pairwise ImportSite.Disjoint := by
  rw [importSites_eq, (sortOn_perm _ _).pairwise_iff ImportSite.Disjoint.symm, List.pairwise_filterMap]
  have hcall : ∀ m ∈ Shape.call.scan [] source.toList, ∀ map site,
      m.site? map = some site → site.isRemovable = false := by
    intro m hm map site hsite
    obtain ⟨lead, rest, _, hfind⟩ := mem_scan hm
    obtain ⟨run, _, _, _, _, indent, _, _, _, hhead, _⟩ := Shape.lawful_call.exists_of_find? hfind
    obtain ⟨_, kind, hkind, rfl⟩ := Match.site?_eq_some_iff.mp hsite
    obtain rfl := Option.some.inj (hkind.symm.trans (mem_of_call hhead).1)
    rfl
  refine List.pairwise_append.mpr ⟨?_, ?_, ?_⟩
  · refine (pairwise_matchesFrom Shape.start_of_recognise _).imp ?_
    intro m n hle site hsite site' hsite' _ _
    have hstatement : ∀ {map} {m : Match} {site : ImportSite}, m.site? map = some site →
        site.statement = m.whole := by
      intro map m site h
      obtain ⟨_, _, _, rfl⟩ := Match.site?_eq_some_iff.mp h
      rfl
    rw [hstatement hsite, hstatement hsite']
    exact .inl hle
  · refine List.pairwise_of_forall_mem_list fun m hm n _ site hsite site' _ h => ?_
    rw [hcall m hm _ site hsite] at h
    cases h
  · intro m _ n hn site _ site' hsite' _ h
    rw [hcall n hn _ site' hsite'] at h
    cases h

end LivePreview.Source
