import Mathlib.Data.List.TakeDrop
import Mathlib.Data.List.TakeWhile
import LivePreview.Proofs.Source.Mark
import LivePreview.Source.ImportSite

/-!
# Shapes of imports

Both recognisers look at what stands in front of the first quote, at the specifier between the
first two quotes, and at what follows. A `Shape` says what they ask of the first and the last part.
-/
namespace LivePreview.Source

open LivePreview.Text

/-- What a recogniser asks of the text around a specifier. -/
structure Shape where
  /-- What may stand in front of a match. -/
  before : Option Char → Bool
  /-- The indentation and the kind, from all that stands in front of the opening quote. -/
  head? : List Char → Option (List Char × Option ImportKind)
  /-- What is left behind the match, from all that stands behind the closing quote. -/
  tail? : List Char → Option (List Char)

def Shape.recognise (shape : Shape) (previous : Option Char) (offset : Nat) (cs : List Char) :
    Option Match :=
  if shape.before previous then
    (shape.head? (cs.takeWhile (!isQuote ·))).bind fun (indent, kind) =>
      (quoted? (cs.dropWhile (!isQuote ·))).bind fun (specifier, rest) =>
        (shape.tail? rest).map fun after =>
          { whole := ⟨offset, offset + byteLength cs - byteLength after⟩
            keywordAt := offset + byteLength indent
            kind
            specifier
            specifierAt := offset + byteLength (cs.takeWhile (!isQuote ·)) + 1 }
  else none

/-- The kind of a statement that leads from its keyword up to the opening quote. -/
def statementKind? (lead : List Char) : Option (Option ImportKind) :=
  let imported := dropWord? "import".toList lead
  match imported.or (dropWord? "export".toList lead) with
  | none => none
  | some clause =>
    let bare := clause.all isBlank
    if !bare && !isFromClause clause then none
    else
      match imported, bare with
      | some _, true => some (some .sideEffect)
      | some _, false => some (some .static)
      | none, true => some none
      | none, false => some (some .reExport)

def Shape.statement : Shape where
  before previous := previous.all (· == '\n')
  head? front := (statementKind? (front.dropWhile isIndent)).map (front.takeWhile isIndent, ·)
  tail? rest :=
    let afterPadding := rest.dropWhile isIndent
    some (if afterPadding.head? = some ';' then afterPadding.tail else afterPadding)

def Shape.call : Shape where
  before previous := previous.all (!isWordChar ·)
  head? front :=
    match dropWord? "import".toList front with
    | none => none
    | some behindKeyword =>
      match dropWord? ['('] (behindKeyword.dropWhile isBlank) with
      | none => none
      | some behind => if behind.all isBlank then some ([], some .dynamic) else none
  tail? rest := dropWord? [')'] (rest.dropWhile isBlank)

/-! ### The recognisers as shapes -/

/-- The text goes on with a quote, or ends. -/
def AtQuote (back : List Char) : Prop := ∀ c, back.head? = some c → isQuote c = true

theorem atQuote_dropWhile (cs : List Char) : AtQuote (cs.dropWhile (!isQuote ·)) := by
  intro c hc
  have hn := List.head?_dropWhile_not (!isQuote ·) cs
  rw [hc] at hn
  simpa using hn

section AtQuote

variable {p : Char → Bool} {front back : List Char}

theorem takeWhile_atQuote (hp : ∀ c, isQuote c = true → p c = false) (hb : AtQuote back) :
    (front ++ back).takeWhile p = front.takeWhile p := by
  induction front with
  | nil =>
    cases back with
    | nil => rfl
    | cons c rest => simp [hp c (hb c rfl)]
  | cons c front ih => simp only [List.cons_append, List.takeWhile_cons, ih]

theorem dropWhile_atQuote (hp : ∀ c, isQuote c = true → p c = false) (hb : AtQuote back) :
    (front ++ back).dropWhile p = front.dropWhile p ++ back := by
  induction front with
  | nil =>
    cases back with
    | nil => rfl
    | cons c rest => simp [hp c (hb c rfl)]
  | cons c front ih =>
    simp only [List.cons_append, List.dropWhile_cons, ih]
    split <;> rfl

/-- Words and quotes have nothing in common. -/
theorem dropWord?_atQuote {word : List Char} (hw : word.all (!isQuote ·) = true)
    (hb : AtQuote back) : dropWord? word (front ++ back) = (dropWord? word front).map (· ++ back) := by
  have hprefix : word.isPrefixOf (front ++ back) = word.isPrefixOf front := by
    induction word generalizing front with
    | nil => simp
    | cons w word ih =>
      obtain ⟨hc, hrest⟩ := Bool.and_eq_true_iff.mp hw
      cases front with
      | nil =>
        cases back with
        | nil => rfl
        | cons c rest =>
          have hne : w ≠ c := fun he => by
            have hquote : isQuote w = true := he ▸ hb c rfl
            simp [hquote] at hc
          simp [List.isPrefixOf, hne]
      | cons c front => simp only [List.cons_append, List.isPrefixOf, ih hrest]
  rw [dropWord?, dropWord?, hprefix]
  split
  · rename_i hle
    have hlen := (List.isPrefixOf_iff_prefix.mp hle).length_le
    rw [List.drop_append_of_le_length hlen]
    rfl
  · rfl

end AtQuote

theorem not_isQuote_of_isIndent {c : Char} (h : isQuote c = true) : isIndent c = false := by
  simp only [isQuote, Bool.or_eq_true, beq_iff_eq] at h
  rcases h with rfl | rfl <;> decide

theorem not_isQuote_of_isBlank {c : Char} (h : isQuote c = true) : isBlank c = false := by
  simp only [isQuote, Bool.or_eq_true, beq_iff_eq] at h
  rcases h with rfl | rfl <;> decide

theorem isBlank_of_isIndent {c : Char} (h : isIndent c = true) : isBlank c = true := by
  simp only [isIndent, Bool.or_eq_true, beq_iff_eq] at h
  rcases h with rfl | rfl <;> decide

theorem span_isIndent {front back : List Char} (hb : AtQuote back) :
    (front ++ back).span isIndent = (front.takeWhile isIndent, front.dropWhile isIndent ++ back) := by
  rw [List.span_eq_takeWhile_dropWhile,
    takeWhile_atQuote (fun _ => not_isQuote_of_isIndent) hb,
    dropWhile_atQuote (fun _ => not_isQuote_of_isIndent) hb]

theorem span_isQuote {front back : List Char} (hf : ∀ c ∈ front, isQuote c = false)
    (hb : AtQuote back) : (front ++ back).span (!isQuote ·) = (front, back) := by
  have hall : ∀ c ∈ front, (!isQuote c) = true := fun c hc => by simp [hf c hc]
  rw [List.span_eq_takeWhile_dropWhile, takeWhile_atQuote (by simp) hb,
    dropWhile_atQuote (by simp) hb, List.takeWhile_eq_self_iff.mpr hall,
    List.dropWhile_eq_nil_iff.mpr hall, List.nil_append]

/-- A text has one first quote. -/
theorem append_inj_of_atQuote {front front' back back' : List Char}
    (h : front ++ back = front' ++ back') (hf : ∀ c ∈ front, isQuote c = false)
    (hf' : ∀ c ∈ front', isQuote c = false) (hb : AtQuote back) (hb' : AtQuote back') :
    front = front' ∧ back = back' := by
  have hspan := span_isQuote hf hb
  rw [h, span_isQuote hf' hb'] at hspan
  cases hspan
  exact ⟨rfl, rfl⟩

theorem mem_of_dropWord? {word cs rest : List Char} (h : dropWord? word cs = some rest) {c : Char}
    (hc : c ∈ rest) : c ∈ cs := by
  rw [dropWord?] at h
  split at h
  · obtain rfl := Option.some.inj h
    exact List.mem_of_mem_drop hc
  · cases h

theorem Shape.recognise_append (shape : Shape) {front back : List Char}
    (hf : ∀ c ∈ front, isQuote c = false) (hb : AtQuote back) (previous : Option Char)
    (offset : Nat) :
    shape.recognise previous offset (front ++ back) =
      if shape.before previous then
        (shape.head? front).bind fun (indent, kind) =>
          (quoted? back).bind fun (specifier, rest) =>
            (shape.tail? rest).map fun after =>
              { whole := ⟨offset, offset + byteLength (front ++ back) - byteLength after⟩
                keywordAt := offset + byteLength indent
                kind
                specifier
                specifierAt := offset + byteLength front + 1 }
      else none := by
  have hspan := span_isQuote hf hb
  rw [List.span_eq_takeWhile_dropWhile, Prod.mk.injEq] at hspan
  rw [recognise, hspan.1, hspan.2]

theorem statementAt?_append {front back : List Char} (hf : ∀ c ∈ front, isQuote c = false)
    (hb : AtQuote back) (previous : Option Char) (offset : Nat) :
    statementAt? previous offset (front ++ back) =
      Shape.statement.recognise previous offset (front ++ back) := by
  have hword : ∀ word : List Char, word.all (!isQuote ·) = true →
      dropWord? word (front.dropWhile isIndent ++ back) =
        (dropWord? word (front.dropWhile isIndent)).map (· ++ back) :=
    fun word hw => dropWord?_atQuote hw hb
  have hclause : ∀ {word clause}, dropWord? word (front.dropWhile isIndent) = some clause →
      (clause ++ back).span (!isQuote ·) = (clause, back) := fun h =>
    span_isQuote (fun c hc => hf c ((List.dropWhile_sublist _).mem (mem_of_dropWord? h hc))) hb
  have hprevious : previous.any (· != '\n') = !Shape.statement.before previous := by
    cases previous <;> simp [bne, Shape.statement]
  have hat : ∀ n, offset + byteLength (front ++ back) - byteLength back + n =
      offset + byteLength front + n := by
    intro n
    rw [byteLength_append]
    omega
  rw [Shape.recognise_append _ hf hb, statementAt?, span_isIndent hb, hprevious]
  by_cases hp : Shape.statement.before previous = true
  · rw [if_pos hp, hp]
    dsimp only [Shape.statement]
    rw [hword _ (by decide), hword _ (by decide), statementKind?]
    cases himported : dropWord? "import".toList (front.dropWhile isIndent) with
    | some clause =>
      simp only [Option.map_some, Option.some_or, hclause himported, hat]
      cases hbare : clause.all isBlank with
      | true => cases quoted? back <;> simp
      | false =>
        cases hfrom : isFromClause clause with
        | true => cases quoted? back <;> simp
        | false => simp
    | none =>
      cases hexported : dropWord? "export".toList (front.dropWhile isIndent) with
      | none => simp
      | some clause =>
        simp only [Option.map_some, Option.map_none, Option.none_or, hclause hexported, hat]
        cases hbare : clause.all isBlank with
        | true => cases quoted? back <;> simp
        | false =>
          cases hfrom : isFromClause clause with
          | true => cases quoted? back <;> simp
          | false => simp
  · rw [if_neg hp, Bool.eq_false_iff.mpr hp]
    rfl

/-- Every text is one without quotes in front of one that begins with a quote. -/
theorem exists_atQuote (cs : List Char) : ∃ front back, cs = front ++ back ∧
    (∀ c ∈ front, isQuote c = false) ∧ AtQuote back := by
  refine ⟨_, _, (List.takeWhile_append_dropWhile (p := (!isQuote ·)) (l := cs)).symm, ?_,
    atQuote_dropWhile cs⟩
  intro c hc
  simpa using List.all_eq_true.mp List.all_takeWhile c hc

theorem statementAt?_eq : statementAt? = Shape.statement.recognise := by
  funext previous offset cs
  obtain ⟨front, back, rfl, hf, hb⟩ := exists_atQuote cs
  exact statementAt?_append hf hb previous offset

theorem callAt?_append {front back : List Char} (hf : ∀ c ∈ front, isQuote c = false)
    (hb : AtQuote back) (previous : Option Char) (offset : Nat) :
    callAt? previous offset (front ++ back) =
      Shape.call.recognise previous offset (front ++ back) := by
  have hprevious : previous.any isWordChar = !Shape.call.before previous := by
    cases previous <;> simp [Shape.call]
  have hat : offset + (byteLength front + byteLength back) - byteLength back =
      offset + byteLength front := by omega
  rw [Shape.recognise_append _ hf hb, callAt?, hprevious]
  by_cases hp : Shape.call.before previous = true
  · rw [if_pos hp, hp]
    dsimp only [Shape.call]
    rw [dropWord?_atQuote (by decide) hb]
    cases hword : dropWord? "import".toList front with
    | none => rfl
    | some behindKeyword =>
      have hparenthesis : ∀ front, dropWord? ['('] (front ++ back) =
          (dropWord? ['('] front).map (· ++ back) := fun _ => dropWord?_atQuote (by decide) hb
      simp only [Option.map_some, dropWhile_atQuote (fun _ => not_isQuote_of_isBlank) hb,
        hparenthesis]
      cases hopen : dropWord? ['('] (behindKeyword.dropWhile isBlank) with
      | none => rfl
      | some behind =>
        have hmem : ∀ c ∈ behind.dropWhile isBlank, isQuote c = false := fun c hc =>
          hf c (mem_of_dropWord? hword ((List.dropWhile_sublist _).mem
            (mem_of_dropWord? hopen ((List.dropWhile_sublist _).mem hc))))
        simp only [Option.map_some, dropWhile_atQuote (fun _ => not_isQuote_of_isBlank) hb]
        by_cases hblank : behind.all isBlank = true
        · rw [if_pos hblank, List.dropWhile_eq_nil_iff.mpr (List.all_eq_true.mp hblank),
            List.nil_append]
          cases quoted? back with
          | none => rfl
          | some found =>
            cases htail : dropWord? [')'] (found.2.dropWhile isBlank) with
            | none => simp [htail]
            | some after => simp [htail, hat]
        · rw [if_neg hblank]
          cases hne : behind.dropWhile isBlank with
          | nil => exact absurd (List.all_eq_true.mpr (List.dropWhile_eq_nil_iff.mp hne)) hblank
          | cons c rest =>
            have hc := hmem c (hne ▸ List.mem_cons_self)
            simp [quoted?, hc]
  · rw [if_neg hp, Bool.eq_false_iff.mpr hp]
    rfl

theorem callAt?_eq : callAt? = Shape.call.recognise := by
  funext previous offset cs
  obtain ⟨front, back, rfl, hf, hb⟩ := exists_atQuote cs
  exact callAt?_append hf hb previous offset

/-! ### Laws of the shapes -/

/-- The words that an import begins with. -/
def keywords : List (List Char) := ["import".toList, "export".toList]

/-- The text can be a specifier in a script that is changed: it ends no string, and it is no part of
a call. -/
structure Plain (cs : List Char) : Prop where
  quiet : ∀ c ∈ cs, c ∉ ['\'', '"', '\\', '\r', '\n']
  first : cs.head?.any (fun c => c != ')' && !isBlank c) = true
  last : cs.getLast?.any (fun c => c != '(' && !isBlank c) = true

instance (cs : List Char) : Decidable (Plain cs) :=
  decidable_of_iff
    (cs.all (fun c => c ∉ ['\'', '"', '\\', '\r', '\n']) = true ∧
      cs.head?.any (fun c => c != ')' && !isBlank c) = true ∧
      cs.getLast?.any (fun c => c != '(' && !isBlank c) = true)
    ⟨fun ⟨hq, hf, hl⟩ => ⟨fun c hm => of_decide_eq_true (List.all_eq_true.mp hq c hm), hf, hl⟩,
      fun h => ⟨List.all_eq_true.mpr fun c hm => decide_eq_true (h.quiet c hm), h.first, h.last⟩⟩

/-- What the two shapes have in common. -/
structure Shape.Lawful (shape : Shape) : Prop where
  keyword : ∀ {front indent kind}, shape.head? front = some (indent, kind) →
    (∀ c ∈ indent, isIndent c = true) ∧ ∃ word ∈ keywords, indent ++ word <+: front
  /-- No import begins within a line and ends at a quote behind plain text. -/
  plain : ∀ {previous front}, shape.before (some previous) = true → previous ≠ '\n' →
    front.getLast?.any (fun c => c != '(' && !isBlank c) = true → shape.head? front = none
  suffix : ∀ {rest after}, shape.tail? rest = some after → after <:+ rest
  tail_atQuote : ∀ {front back}, (∀ c ∈ front, isQuote c = false) → AtQuote back →
    shape.tail? (front ++ back) = (shape.tail? front).map (· ++ back)
  tail_line : ∀ {front back}, (back.dropWhile isBlank).head? ≠ some ')' →
    shape.tail? (front ++ '\n' :: back) = (shape.tail? (front ++ ['\n'])).map (· ++ back)
  tail_plain : (∀ {cs back}, Plain cs → shape.tail? (cs ++ back) = none) ∨
    ∀ {cs back}, Plain cs → ∃ after, after <:+ cs ∧ shape.tail? (cs ++ back) = some (after ++ back)

namespace Shape.Lawful

variable {shape : Shape} {front back indent : List Char} {kind : Option ImportKind}

/-- A keyword has no line break, so it stands on one line. -/
theorem infix_of_line (hl : shape.Lawful) (h : shape.head? (front ++ '\n' :: back) = some (indent, kind)) :
    ∃ word ∈ keywords, word <:+: front := by
  obtain ⟨hi, word, hw, hp⟩ := hl.keyword h
  have hletters : ∀ word ∈ keywords, '\n' ∉ word := by decide
  have hline : '\n' ∉ indent ++ word := by
    intro hm
    rcases List.mem_append.mp hm with hm | hm
    · cases hi _ hm
    · exact hletters word hw hm
  refine ⟨word, hw, (List.suffix_append indent word).isInfix.trans ?_⟩
  obtain ⟨rest, hrest⟩ := hp
  rcases List.append_eq_append_iff.mp hrest with ⟨middle, hf, _⟩ | ⟨middle, he, hb⟩
  · exact hf ▸ (List.prefix_append _ _).isInfix
  · cases middle with
    | nil => exact he ▸ (List.append_nil front).symm ▸ List.infix_rfl
    | cons c middle =>
      obtain ⟨rfl, _⟩ := List.cons.inj hb
      exact absurd (he ▸ List.mem_append_right front List.mem_cons_self) hline

theorem head?_nil (hl : shape.Lawful) : shape.head? [] = none := by
  cases h : shape.head? [] with
  | none => rfl
  | some found =>
    obtain ⟨_, word, hw, hp⟩ := hl.keyword h
    have hletters : ∀ word ∈ keywords, word ≠ [] := by decide
    exact absurd (List.append_eq_nil_iff.mp (List.prefix_nil.mp hp)).2 (hletters word hw)

/-- A keyword begins with a letter. -/
theorem exists_decisive (hl : shape.Lawful) (h : shape.head? front = some (indent, kind)) :
    ∃ c rest, front = indent ++ c :: rest ∧ Reader.Decisive c := by
  obtain ⟨_, word, hw, rest, rfl⟩ := hl.keyword h
  have hword : ∃ c letters, word = c :: letters ∧ Reader.Decisive c := by
    simp only [keywords, List.mem_cons, List.not_mem_nil, or_false] at hw
    rcases hw with rfl | rfl
    · exact ⟨'i', _, rfl, .inl (by decide)⟩
    · exact ⟨'e', _, rfl, .inl (by decide)⟩
  obtain ⟨c, letters, rfl, hc⟩ := hword
  exact ⟨c, letters ++ rest, by simp, hc⟩

end Shape.Lawful

theorem eq_append_of_dropWord? {word cs rest : List Char} (h : dropWord? word cs = some rest) :
    cs = word ++ rest := by
  rw [dropWord?] at h
  split at h
  · rename_i hp
    obtain ⟨behind, rfl⟩ := List.isPrefixOf_iff_prefix.mp hp
    rw [List.drop_left] at h
    rw [Option.some.inj h]
  · cases h

theorem dropWord?_append (word rest : List Char) : dropWord? word (word ++ rest) = some rest := by
  have hprefix : word.isPrefixOf (word ++ rest) = true :=
    List.isPrefixOf_iff_prefix.mpr (List.prefix_append _ _)
  rw [dropWord?, if_pos hprefix, List.drop_left]

theorem dropWord?_singleton (c : Char) (cs : List Char) :
    dropWord? [c] cs = if cs.head? = some c then some cs.tail else none := by
  cases cs with
  | nil => rfl
  | cons d rest =>
    by_cases hd : d = c
    · simp [dropWord?, List.isPrefixOf, hd]
    · simp [dropWord?, List.isPrefixOf, hd, Ne.symm hd]

theorem Shape.lawful_statement : Shape.statement.Lawful where
  keyword := by
    intro front indent kind h
    simp only [Shape.statement, Option.map_eq_some_iff, Prod.mk.injEq] at h
    obtain ⟨_, hk, rfl, _⟩ := h
    refine ⟨fun c hc => List.mem_takeWhile_imp hc, ?_⟩
    have hfront := List.takeWhile_append_dropWhile (p := isIndent) (l := front)
    rw [statementKind?] at hk
    cases himported : dropWord? "import".toList (front.dropWhile isIndent) with
    | some clause =>
      rw [eq_append_of_dropWord? himported, ← List.append_assoc] at hfront
      exact ⟨_, List.mem_cons_self, clause, hfront⟩
    | none =>
      cases hexported : dropWord? "export".toList (front.dropWhile isIndent) with
      | some clause =>
        rw [eq_append_of_dropWord? hexported, ← List.append_assoc] at hfront
        exact ⟨_, List.mem_cons_of_mem _ List.mem_cons_self, clause, hfront⟩
      | none =>
        rw [himported, hexported] at hk
        cases hk
  plain := by
    intro previous front hb hne
    simp [Shape.statement, hne] at hb
  suffix := by
    intro rest after h
    obtain rfl := Option.some.inj h
    have hpad := List.dropWhile_suffix (l := rest) isIndent
    split
    · exact (List.tail_suffix _).trans hpad
    · exact hpad
  tail_atQuote := by
    intro front back hf hb
    simp only [Shape.statement, dropWhile_atQuote (fun _ => not_isQuote_of_isIndent) hb,
      Option.map_some]
    cases front.dropWhile isIndent with
    | nil =>
      have hne : back.head? ≠ some ';' := fun he => by cases hb _ he
      simp [hne]
    | cons c rest => by_cases hc : c = ';' <;> simp [hc]
  tail_line := by
    intro front back _
    simp only [Shape.statement, List.dropWhile_append, Option.map_some]
    cases front.dropWhile isIndent with
    | nil => simp [isIndent]
    | cons c rest => by_cases hc : c = ';' <;> simp [hc]
  tail_plain := by
    refine .inr fun {cs back} h => ?_
    obtain ⟨_, hfirst, _⟩ := h
    cases cs with
    | nil => cases hfirst
    | cons c rest =>
      have hblank : isBlank c = false := by simp_all
      have hindent : isIndent c = false :=
        Bool.eq_false_iff.mpr fun hi => Bool.eq_false_iff.mp hblank (isBlank_of_isIndent hi)
      by_cases hc : c = ';'
      · exact ⟨rest, List.suffix_cons _ _, by simp [Shape.statement, hc, isIndent]⟩
      · exact ⟨c :: rest, List.suffix_refl _, by simp [Shape.statement, hindent, hc]⟩

theorem Shape.lawful_call : Shape.call.Lawful where
  keyword := by
    intro front indent kind h
    simp only [Shape.call] at h
    split at h
    · cases h
    · rename_i behindKeyword hword
      split at h
      · cases h
      · split at h
        · cases h
          exact ⟨by simp, _, List.mem_cons_self, _, (eq_append_of_dropWord? hword).symm⟩
        · cases h
  plain := by
    intro previous front _ _ hlast
    simp only [Shape.call]
    split
    · rfl
    · rename_i behindKeyword hword
      split
      · rfl
      · rename_i behind hopen
        refine if_neg fun hblank => ?_
        obtain ⟨c, hc, hplain⟩ := (Option.any_eq_true _ _).mp hlast
        have hsuffix : '(' :: behind <:+ front := by
          rw [eq_append_of_dropWord? hword]
          have hdrop := List.dropWhile_suffix (l := behindKeyword) isBlank
          rw [eq_append_of_dropWord? hopen] at hdrop
          exact hdrop.trans (List.suffix_append _ _)
        obtain ⟨lead, rfl⟩ := hsuffix
        rw [List.getLast?_append, List.getLast?_cons, Option.some_or] at hc
        have hmem : c ∈ '(' :: behind := List.mem_of_getLast? (List.getLast?_cons.trans hc)
        rcases List.mem_cons.mp hmem with rfl | hm
        · simp at hplain
        · simp [List.all_eq_true.mp hblank c hm] at hplain
  suffix := by
    intro rest after h
    obtain hrest := eq_append_of_dropWord? h
    exact (List.suffix_cons _ _).trans (hrest ▸ List.dropWhile_suffix (l := rest) isBlank)
  tail_atQuote := by
    intro front back hf hb
    simp only [Shape.call, dropWhile_atQuote (fun _ => not_isQuote_of_isBlank) hb]
    exact dropWord?_atQuote (by decide) hb
  tail_line := by
    intro front back hb
    have hn : isBlank '\n' = true := by decide
    simp only [Shape.call, List.dropWhile_append, dropWord?_singleton]
    cases front.dropWhile isBlank with
    | nil => simp [hb, hn]
    | cons c rest => by_cases hc : c = ')' <;> simp [hc]
  tail_plain := by
    refine .inl fun {cs back} h => ?_
    obtain ⟨_, hfirst, _⟩ := h
    cases cs with
    | nil => cases hfirst
    | cons c rest =>
      have hc : c ≠ ')' ∧ isBlank c = false := by simp_all
      simp [Shape.call, dropWord?_singleton, hc]

end LivePreview.Source
