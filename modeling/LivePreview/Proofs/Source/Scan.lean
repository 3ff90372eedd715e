import LivePreview.Proofs.Source.Shape

/-!
# Scans

A scan looks for a shape from left to right and goes on behind what it finds. It finds nothing at a
quote, at a line break, in a line without keywords and in plain text.
-/
namespace LivePreview.Source

open LivePreview.Text

/-! ### Specifiers in quotes -/

theorem isQuote_iff {c : Char} : isQuote c = true ↔ c = '\'' ∨ c = '"' := by
  simp [isQuote]

/-- A character that a specifier may have. -/
def isInline (c : Char) : Bool := !isQuote c && c != '\r' && c != '\n'

theorem span_isInline {cs rest : List Char} (hcs : ∀ c ∈ cs, isInline c = true)
    (hr : ∀ c, rest.head? = some c → isInline c = false) :
    (cs ++ rest).span isInline = (cs, rest) := by
  rw [List.span_eq_takeWhile_dropWhile, List.takeWhile_append_of_pos hcs,
    List.dropWhile_append_of_pos hcs]
  cases rest with
  | nil => simp
  | cons c rest => simp [hr c rfl]

theorem quoted?_end {opening : Char} {cs : List Char} (hcs : ∀ c ∈ cs, isInline c = true) :
    quoted? (opening :: cs) = none := by
  have hspan : cs.span isInline = (cs, []) := by
    have hspan := @span_isInline cs [] hcs (by simp)
    rwa [List.append_nil] at hspan
  simp only [quoted?]
  split
  · rfl
  · rw [show (fun c => !isQuote c && c != '\r' && c != '\n') = isInline from rfl, hspan]

/-- A specifier reaches up to the first character that it may not have. -/
theorem quoted?_append {opening c : Char} {cs rest : List Char} (ho : isQuote opening = true)
    (hcs : ∀ c ∈ cs, isInline c = true) (hc : isInline c = false) :
    quoted? (opening :: (cs ++ c :: rest)) =
      if cs.isEmpty || !isQuote c then none else some (cs, rest) := by
  have hspan : (cs ++ c :: rest).span isInline = (cs, c :: rest) :=
    span_isInline hcs (by rintro d ⟨⟩; exact hc)
  simp only [quoted?, ho, Bool.not_true, Bool.false_eq_true, if_false]
  rw [show (fun c => !isQuote c && c != '\r' && c != '\n') = isInline from rfl, hspan]

theorem not_isInline_of_isQuote {c : Char} (h : isQuote c = true) : isInline c = false := by
  simp [isInline, h]

theorem not_isQuote_of_isInline {c : Char} (h : isInline c = true) : isQuote c = false := by
  cases hc : isQuote c with
  | false => rfl
  | true =>
    rw [not_isInline_of_isQuote hc] at h
    cases h

/-- What is in quotes is read back up to the closing one. -/
theorem quoted?_of_inline {quote : Char} {specifier : List Char} (hq : isQuote quote = true)
    (hne : specifier ≠ []) (hs : ∀ c ∈ specifier, isInline c = true) (rest : List Char) :
    quoted? (quote :: (specifier ++ quote :: rest)) = some (specifier, rest) := by
  rw [quoted?_append hq hs (not_isInline_of_isQuote hq), if_neg (by simp [hq, hne])]

/-- The specifier stands between two quotes. -/
theorem quoted?_eq_some {cs specifier rest : List Char} (h : quoted? cs = some (specifier, rest)) :
    ∃ opening closing, cs = opening :: (specifier ++ closing :: rest) ∧ isQuote opening = true ∧
      isQuote closing = true ∧ specifier ≠ [] ∧ ∀ c ∈ specifier, isInline c = true := by
  cases cs with
  | nil => cases h
  | cons opening cs =>
    cases ho : isQuote opening with
    | false => simp [quoted?, ho] at h
    | true =>
      obtain ⟨front, back, rfl, hf, hb⟩ : ∃ front back, cs = front ++ back ∧
          (∀ c ∈ front, isInline c = true) ∧ ∀ c, back.head? = some c → isInline c = false := by
        refine ⟨_, _, (List.takeWhile_append_dropWhile (p := isInline)).symm,
          fun c hc => List.mem_takeWhile_imp hc, fun c hc => ?_⟩
        have hn := List.head?_dropWhile_not isInline cs
        rw [hc] at hn
        simpa using hn
      cases back with
      | nil =>
        rw [List.append_nil, quoted?_end hf] at h
        cases h
      | cons closing back =>
        rw [quoted?_append ho hf (hb closing rfl)] at h
        split at h
        · cases h
        · rename_i hne
          cases h
          simp only [Bool.or_eq_true, List.isEmpty_iff, Bool.not_eq_true', not_or,
            Bool.not_eq_false] at hne
          exact ⟨opening, closing, rfl, ho, hne.2, hne.1, hf⟩

theorem Plain.inline {cs : List Char} (h : Plain cs) : ∀ c ∈ cs, isInline c = true := by
  intro c hc
  have hquiet := h.quiet c hc
  simp only [List.mem_cons, List.not_mem_nil, or_false, not_or] at hquiet
  simp [isInline, isQuote, hquiet]

theorem Plain.ne_nil {cs : List Char} (h : Plain cs) : cs ≠ [] := by
  rintro rfl
  exact absurd h.first (by simp)

/-- No line ends within a specifier. -/
theorem ne_break_of_inline {quote : Char} {run : List Char} (hq : isQuote quote = true)
    (hrun : ∀ c ∈ run, isInline c = true) : run.getLast?.getD quote ≠ '\n' := by
  cases hlast : run.getLast? with
  | none =>
    rintro rfl
    cases hq
  | some c =>
    rintro rfl
    cases hrun _ (List.mem_of_getLast? hlast)

/-! ### Scans -/

namespace Shape

variable {shape : Shape} {front : List Char}

/-- What the shape finds between the two parts of a text. -/
def find? (shape : Shape) (front rest : List Char) : Option Match :=
  shape.recognise front.getLast? (byteLength front) rest

/-- The matches behind the front of a text. -/
def scan (shape : Shape) (front rest : List Char) : List Match :=
  matchesFrom shape.recognise 0 front.getLast? (byteLength front) rest

theorem matchesFrom_eq {recognise : Option Char → Nat → List Char → Option Match}
    {previous : Option Char} {resume offset : Nat} (h : resume ≤ offset) (cs : List Char) :
    matchesFrom recognise resume previous offset cs = matchesFrom recognise 0 previous offset cs := by
  induction cs generalizing previous offset with
  | nil => rfl
  | cons c rest ih =>
    rw [matchesFrom, matchesFrom, if_neg (by omega), if_neg (by omega)]
    cases recognise previous offset (c :: rest) with
    | some m => rfl
    | none => exact ih (by omega)

/-- Nothing begins in front of the end of the match before it. -/
theorem matchesFrom_append {recognise : Option Char → Nat → List Char → Option Match}
    {previous : Option Char} {resume offset : Nat} {middle rest : List Char}
    (h : offset + byteLength middle ≤ resume) :
    matchesFrom recognise resume previous offset (middle ++ rest) =
      matchesFrom recognise resume (middle.getLast?.or previous) (offset + byteLength middle) rest := by
  induction middle generalizing previous offset with
  | nil => rfl
  | cons c middle ih =>
    have hc := c.utf8Size_pos
    rw [byteLength_cons] at h
    rw [List.cons_append, matchesFrom, if_pos (by omega), ih (by omega), List.getLast?_cons,
      byteLength_cons, Nat.add_assoc]
    cases middle.getLast? <;> rfl

@[simp] theorem scan_nil : shape.scan front [] = [] := rfl

theorem scan_of_none {c : Char} {rest : List Char} (h : shape.find? front (c :: rest) = none) :
    shape.scan front (c :: rest) = shape.scan (front ++ [c]) rest := by
  rw [find?] at h
  rw [scan, matchesFrom, if_neg (Nat.not_lt_zero _), h, scan]
  simp

theorem scan_of_some {middle rest : List Char} {m : Match}
    (h : shape.find? front (middle ++ rest) = some m) (hne : middle ≠ [])
    (hm : m.whole.stop = byteLength (front ++ middle)) :
    shape.scan front (middle ++ rest) = m :: shape.scan (front ++ middle) rest := by
  obtain ⟨c, middle, rfl⟩ := List.exists_cons_of_ne_nil hne
  rw [find?, List.cons_append] at h
  rw [byteLength_append, byteLength_cons] at hm
  rw [scan, List.cons_append, matchesFrom, if_neg (Nat.not_lt_zero _), h]
  dsimp only
  rw [matchesFrom_append (by omega), matchesFrom_eq (by omega), scan, List.getLast?_append,
    List.getLast?_cons, byteLength_append, byteLength_cons, Nat.add_assoc]
  cases middle.getLast? <;> rfl

/-- The match of a shape in `middle` and, from the opening quote on, in `lead`. -/
def foundAt (front middle lead indent specifier : List Char) (kind : Option ImportKind) : Match where
  whole := ⟨byteLength front, byteLength (front ++ middle ++ lead)⟩
  keywordAt := byteLength (front ++ indent)
  kind
  specifier
  specifierAt := byteLength (front ++ middle) + 1

theorem find?_of_tail? {middle lead after indent specifier rest : List Char}
    {kind : Option ImportKind} (hf : ∀ c ∈ middle, isQuote c = false)
    (hbefore : shape.before front.getLast? = true)
    (hhead : shape.head? middle = some (indent, kind))
    (hquoted : quoted? (lead ++ after) = some (specifier, rest))
    (htail : shape.tail? rest = some after) :
    shape.find? front (middle ++ (lead ++ after)) =
      some (foundAt front middle lead indent specifier kind) := by
  have hb : AtQuote (lead ++ after) := by
    obtain ⟨opening, closing, he, ho, _⟩ := quoted?_eq_some hquoted
    rintro c hc
    rw [he] at hc
    obtain rfl := Option.some.inj hc
    exact ho
  have hstop : byteLength front + byteLength (middle ++ (lead ++ after)) - byteLength after =
      byteLength (front ++ middle ++ lead) := by
    simp only [byteLength_append]
    omega
  rw [find?, recognise_append shape hf hb, if_pos hbefore, hhead, hquoted]
  simp only [Option.bind_some, htail, Option.map_some, hstop]
  simp only [foundAt, byteLength_append]

/-- A match is found, and the scan goes on behind it. -/
theorem scan_of_tail? {middle lead after indent specifier rest : List Char}
    {kind : Option ImportKind} (hf : ∀ c ∈ middle, isQuote c = false)
    (hbefore : shape.before front.getLast? = true)
    (hhead : shape.head? middle = some (indent, kind))
    (hquoted : quoted? (lead ++ after) = some (specifier, rest))
    (htail : shape.tail? rest = some after) (hne : lead ≠ []) :
    shape.scan front (middle ++ (lead ++ after)) =
      foundAt front middle lead indent specifier kind ::
        shape.scan (front ++ middle ++ lead) after := by
  have hfind := find?_of_tail? hf hbefore hhead hquoted htail
  rw [← List.append_assoc] at hfind ⊢
  rw [List.append_assoc front]
  exact scan_of_some hfind (by simp [hne]) (by rw [foundAt, List.append_assoc front])

/-! ### Where nothing is found -/

theorem find?_eq_none {middle back : List Char} (hf : ∀ c ∈ middle, isQuote c = false)
    (hb : AtQuote back)
    (h : shape.before front.getLast? = true → shape.head? middle ≠ none →
      ∀ specifier rest, quoted? back = some (specifier, rest) → shape.tail? rest = none) :
    shape.find? front (middle ++ back) = none := by
  rw [find?, recognise_append shape hf hb]
  split
  · rename_i hp
    cases hhead : shape.head? middle with
    | none => rfl
    | some found =>
      cases hquoted : quoted? back with
      | none => rfl
      | some quoted =>
        have htail := h hp (by simp [hhead]) _ _ hquoted
        simp [htail]
  · rfl

theorem find?_of_head? {middle back : List Char} (hf : ∀ c ∈ middle, isQuote c = false)
    (hb : AtQuote back) (h : shape.before front.getLast? = true → shape.head? middle = none) :
    shape.find? front (middle ++ back) = none :=
  find?_eq_none hf hb fun hbefore hhead => absurd (h hbefore) hhead

theorem Lawful.find?_quote (hl : shape.Lawful) {quote : Char} (hq : isQuote quote = true)
    (rest : List Char) : shape.find? front (quote :: rest) = none :=
  @find?_of_head? shape _ [] (quote :: rest) (by simp) (by rintro c ⟨⟩; exact hq)
    fun _ => hl.head?_nil

/-- Without a keyword in front of a line break, nothing begins there. -/
theorem Lawful.find?_line (hl : shape.Lawful) {line : List Char}
    (hf : ∀ c ∈ line, isQuote c = false) (hw : ∀ word ∈ keywords, ¬ word <:+: line)
    (rest : List Char) : shape.find? front (line ++ '\n' :: rest) = none := by
  obtain ⟨middle, back, rfl, hm, hb⟩ := exists_atQuote rest
  have hquiet : ∀ c ∈ line ++ '\n' :: middle, isQuote c = false := by
    simp only [List.mem_append, List.mem_cons]
    rintro c (hc | rfl | hc)
    · exact hf c hc
    · decide
    · exact hm c hc
  have hnone : shape.head? (line ++ '\n' :: middle) = none := by
    cases h : shape.head? (line ++ '\n' :: middle) with
    | none => rfl
    | some found =>
      obtain ⟨word, hmem, hword⟩ := hl.infix_of_line h
      exact absurd hword (hw word hmem)
  have happend : line ++ '\n' :: (middle ++ back) = line ++ '\n' :: middle ++ back := by simp
  rw [happend]
  exact find?_of_head? hquiet hb fun _ => hnone

theorem Lawful.find?_break (hl : shape.Lawful) (rest : List Char) :
    shape.find? front ('\n' :: rest) = none :=
  @Lawful.find?_line shape front hl [] (by simp) (by decide) rest

/-- A part of a line that no call begins in when a quote follows. -/
structure Inert (cs : List Char) : Prop where
  inline : ∀ c ∈ cs, isInline c = true
  last : cs.getLast?.all (fun c => c != '(' && !isBlank c) = true

theorem Inert.tail {c : Char} {cs : List Char} (h : Inert (c :: cs)) : Inert cs := by
  refine ⟨fun d hd => h.inline d (List.mem_cons_of_mem _ hd), ?_⟩
  have hlast := h.last
  rw [List.getLast?_cons] at hlast
  cases hcs : cs.getLast? with
  | none => rfl
  | some d => rwa [hcs] at hlast

theorem Inert.of_plain {cs after : List Char} (h : Plain cs) (hs : after <:+ cs) :
    Inert after := by
  obtain ⟨lead, rfl⟩ := hs
  refine ⟨fun c hc => h.inline c (List.mem_append_right lead hc), ?_⟩
  have hlast := h.last
  rw [List.getLast?_append] at hlast
  cases hafter : after.getLast? with
  | none => rfl
  | some c => rwa [hafter, Option.some_or] at hlast

/-- Nothing begins in inert text. -/
theorem Lawful.scan_inert (hl : shape.Lawful) {cs back : List Char} (h : Inert cs)
    (hp : ∃ p, front.getLast? = some p ∧ p ≠ '\n') (hb : AtQuote back) :
    shape.scan front (cs ++ back) = shape.scan (front ++ cs) back := by
  induction cs generalizing front with
  | nil => rw [List.append_nil, List.nil_append]
  | cons c cs ih =>
    obtain ⟨p, hp, hne⟩ := hp
    have hinline := h.inline
    simp only [isInline, Bool.and_eq_true, bne_iff_ne, ne_eq, Bool.not_eq_true'] at hinline
    have hnone : shape.find? front (c :: cs ++ back) = none := by
      refine find?_of_head? (fun d hd => (hinline d hd).1.1) hb fun hbefore => ?_
      rw [hp] at hbefore
      refine hl.plain hbefore hne ?_
      have hlast := h.last
      rwa [List.getLast?_cons] at hlast ⊢
    have hc := (hinline c List.mem_cons_self).2
    calc shape.scan front (c :: cs ++ back)
        = shape.scan (front ++ [c]) (cs ++ back) := scan_of_none hnone
      _ = shape.scan (front ++ [c] ++ cs) back := ih h.tail ⟨c, List.getLast?_concat, hc⟩
      _ = shape.scan (front ++ c :: cs) back := by rw [List.append_assoc]; rfl

end Shape

/-! ### The scans of a script -/

def shapes : List Shape := [.statement, .call]

theorem lawful_of_mem_shapes {shape : Shape} (h : shape ∈ shapes) : shape.Lawful := by
  simp only [shapes, List.mem_cons, List.not_mem_nil, or_false] at h
  rcases h with rfl | rfl
  · exact Shape.lawful_statement
  · exact Shape.lawful_call

theorem importSites_eq (source : String) (dialect : Dialect) :
    importSites source dialect = sortOn (·.span.start)
      ((Shape.statement.scan [] source.toList ++ Shape.call.scan [] source.toList).filterMap
        (·.site? (CodeMap.ofSource source.toList dialect.allowsMarkup))) := by
  rw [importSites, statementAt?_eq, callAt?_eq]
  rfl

/-- A match that names a module is a site when its keyword is code. -/
theorem Match.site?_eq_some_iff {map : CodeMap} {m : Match} {site : ImportSite} :
    m.site? map = some site ↔ map.isCode m.keywordAt = true ∧ ∃ kind, m.kind = some kind ∧
      ⟨String.ofList m.specifier, kind,
        ⟨m.specifierAt, m.specifierAt + byteLength m.specifier⟩, m.whole⟩ = site := by
  rw [Match.site?]
  cases map.isCode m.keywordAt with
  | false => simp
  | true => simp

/-- The import sites are the matches of both shapes whose keyword is code. -/
theorem mem_importSites {source : String} {dialect : Dialect} {site : ImportSite} :
    site ∈ importSites source dialect ↔ ∃ shape ∈ shapes, ∃ m ∈ shape.scan [] source.toList,
      m.site? (CodeMap.ofSource source.toList dialect.allowsMarkup) = some site := by
  rw [importSites_eq, (sortOn_perm _ _).mem_iff, List.mem_filterMap]
  simp only [List.mem_append, shapes, List.mem_cons, List.not_mem_nil, or_false]
  constructor
  · rintro ⟨m, hm | hm, hsite⟩
    · exact ⟨_, .inl rfl, m, hm, hsite⟩
    · exact ⟨_, .inr rfl, m, hm, hsite⟩
  · rintro ⟨shape, rfl | rfl, m, hm, hsite⟩
    · exact ⟨m, .inl hm, hsite⟩
    · exact ⟨m, .inr hm, hsite⟩

end LivePreview.Source
