import Mathlib.Data.List.Induction
import LivePreview.Proofs.Source.Located
import LivePreview.Proofs.Source.Fault

/-!
# Leaving code

A reader leaves code only at a character that may open a literal, a comment or an element, and at a
brace, which may close the code within a template or within markup. So the quote that opens the
specifier of an import is code unless such a character stands between it and the keyword, and nothing
behind that one is code any more.
-/
namespace LivePreview.Source

open LivePreview.Text

namespace Reader

variable {r : Reader} {c : Char}

/-- The characters at which a reader may leave code. -/
def exits : List Char := '}' :: ambiguous

theorem inCode_fail (h : r.InCode) (defect : Defect) (location : Option Location) :
    (r.fail defect location).InCode := by
  rw [fail]
  split <;> exact h

/-- Only a brace takes the reader back into a template or into markup. -/
theorem inCode_close (h : r.InCode) {bracket : Bracket} (hb : bracket ≠ .curly) :
    (r.close bracket).InCode := by
  rw [close]
  split
  · exact inCode_fail h _ _
  · rename_i top rest _
    have hfail : ∀ defect location, (fail { r with stack := rest } defect location).InCode :=
      inCode_fail (r := { r with stack := rest }) h
    dsimp only
    split
    · exact absurd rfl hb
    · exact absurd rfl hb
    · exact absurd rfl hb
    · split
      · exact h
      · exact hfail _ _
    · exact hfail _ _

theorem inCode_readOther (h : r.InCode) (hc : c ≠ '}') (continuesWord : Bool) :
    (r.readOther c continuesWord).InCode := by
  rw [readOther]
  split
  · exact h
  · split
    · rename_i bracket hbracket
      refine inCode_close h ?_
      rintro rfl
      exact hc (eq_closer_of_ofCloser? hbracket)
    · rw [plain]
      repeat' split
      all_goals exact h

theorem inCode_readCode (h : r.InCode) (hc : c ∉ exits) (next : Option Char)
    (continuesWord : Bool) : (r.readCode c next continuesWord).InCode := by
  obtain ⟨code, hm⟩ := r.markCode_eq c
  rw [readCode_of_not_ambiguous (List.not_mem_of_not_mem_cons hc), hm]
  exact inCode_readOther (r := { r with code }) h (List.ne_of_not_mem_cons hc) _

/-- Behind any other character the reader is in code, or it marked nothing. -/
theorem code_readTag_of_not_mem_exits (hs : r.skip = false) (hc : c ∉ exits) (tag : Tag)
    (next : Option Char) :
    (r.readTag tag c next).InCode ∨ (r.readTag tag c next).code = r.code := by
  rw [readTag]
  repeat' split
  case isTrue => exact .inr (code_endTag _ _)
  case' isFalse.isFalse.isFalse.isFalse.isFalse.isFalse.isTrue =>
    exact .inl (inCode_readCode (r := { r with mode := .code, previous := some '<' }) ⟨hs, rfl⟩ hc _ _)
  all_goals exact .inr rfl

theorem code_readMode_of_not_mem_exits (hs : r.skip = false) (hc : c ∉ exits)
    (next : Option Char) (continuesWord : Bool) :
    (r.readMode c next continuesWord).InCode ∨ (r.readMode c next continuesWord).code = r.code := by
  rw [readMode]
  cases hm : r.mode with
  | code => exact .inl (inCode_readCode ⟨hs, hm⟩ hc _ _)
  | tag tag => exact code_readTag_of_not_mem_exits hs hc tag next
  | _ =>
    right
    dsimp only
    repeat' split
    all_goals rfl

theorem code_step_of_not_mem_exits (r : Reader) (hc : c ∉ exits) (next : Option Char) :
    (r.step c next).InCode ∨ (r.step c next).code = r.code := by
  cases hs : r.skip with
  | true =>
    right
    rw [step, hs]
    rfl
  | false =>
    obtain ⟨offset, location, he⟩ := step_eq hs c next
    rw [he]
    exact code_readMode_of_not_mem_exits (r := { r with inWord := false }) hs hc next r.inWord

end Reader

/-! ### Marks in a source -/

variable {markup : Bool} {front : List Char} {c : Char} {rest : List Char}

/-- Whatever a reader meets in code is code. -/
theorem isCode_of_inCode (h : (({ markup } : Reader).through front (c :: rest)).InCode) :
    (CodeMap.ofSource (front ++ c :: rest) markup).isCode (byteLength front) = true := by
  let r := ({ markup } : Reader).through front (c :: rest)
  have hr : Reader.Ordered r.code r.offset := Reader.ordered_through ⟨.nil, by simp⟩ front _
  have ho : r.offset = byteLength front := (Reader.offset_through _ _ _).trans (Nat.zero_add _)
  have hc := c.utf8Size_pos
  rw [isCode_ofSource_iff]
  rcases r.code_step c rest.head? with ⟨_, hcode⟩ | ⟨hn, _⟩
  · rw [hcode, Reader.covers_extend hr]
    exact .inr ⟨by omega, by omega⟩
  · exact absurd h hn

/-- Behind a character of code at which no reader leaves code stands code. -/
theorem isCode_concat {source : List Char} {d : Char} (hs : source = front ++ c :: d :: rest)
    (hc : c ∉ Reader.exits)
    (h : (CodeMap.ofSource source markup).isCode (byteLength front) = true) :
    (CodeMap.ofSource source markup).isCode (byteLength (front ++ [c])) = true := by
  let r := ({ markup } : Reader).through front (c :: d :: rest)
  have hr : Reader.Ordered r.code r.offset := Reader.ordered_through ⟨.nil, by simp⟩ front _
  have ho : r.offset = byteLength front := (Reader.offset_through _ _ _).trans (Nat.zero_add _)
  have hin : (r.step c (some d)).InCode := by
    refine (r.code_step_of_not_mem_exits hc (some d)).resolve_right fun hcode => ?_
    rw [hs, isCode_ofSource_iff] at h
    change Reader.Covers (r.step c (some d)).code (byteLength front) at h
    rw [hcode, ← ho] at h
    exact hr.not_covers h
  have hsplit : source = front ++ [c] ++ d :: rest := by simp [hs]
  rw [hsplit]
  refine isCode_of_inCode ?_
  rw [Reader.through_append]
  exact hin

/-- No character begins within another. -/
theorem At.le_of_lt {source a b : List Char} {n : Nat} {c d : Char} (h : At source n d)
    (hs : source = a ++ c :: b) (hlt : byteLength a < n) : byteLength (a ++ [c]) ≤ n := by
  refine Nat.le_of_not_lt fun hn => ?_
  have hcut : source = a ++ ([c] ++ b) := hs
  obtain ⟨lead, others, hsplit, rfl⟩ := h.exists_append hcut (Nat.le_of_lt hlt) hn
  obtain rfl := List.append_eq_singleton_iff.mp hsplit.symm |>.resolve_right (by simp) |>.1
  simp at hlt

/-- The last character of code in front of one that is none is where the reader left code. -/
theorem exists_exit {source run : List Char} {d : Char} (hs : source = front ++ (run ++ d :: rest))
    (hne : run ≠ []) (h : (CodeMap.ofSource source markup).isCode (byteLength front) = true)
    (hd : (CodeMap.ofSource source markup).isCode (byteLength (front ++ run)) = false) :
    ∃ n, byteLength front ≤ n ∧ n < byteLength (front ++ run) ∧
      (∃ c ∈ run, c ∈ Reader.exits ∧ At source n c) ∧
      (CodeMap.ofSource source markup).isCode n = true ∧
      ∀ m e, At source m e → n < m → m ≤ byteLength (front ++ run) →
        (CodeMap.ofSource source markup).isCode m = false := by
  -- From the end of the run backwards, up to the first character that is code.
  induction run using List.reverseRecOn generalizing d rest with
  | nil => exact absurd rfl hne
  | append_singleton run c ih =>
    have hrest : source = front ++ run ++ c :: d :: rest := hs.trans (by simp)
    have hc := c.utf8Size_pos
    rw [← List.append_assoc] at hd ⊢
    cases hcode : (CodeMap.ofSource source markup).isCode (byteLength (front ++ run)) with
    | true =>
      have hexit : c ∈ Reader.exits := Decidable.byContradiction fun hexit => by
        rw [isCode_concat hrest hexit hcode] at hd
        cases hd
      refine ⟨byteLength (front ++ run), by simp, by simpa using hc,
        ⟨c, by simp, hexit, _, _, hrest, rfl⟩, hcode, fun m e he hlt hle => ?_⟩
      rwa [Nat.le_antisymm hle (he.le_of_lt hrest hlt)]
    | false =>
      have hrun : run ≠ [] := by
        rintro rfl
        rw [List.append_nil, h] at hcode
        cases hcode
      have hagain : source = front ++ (run ++ c :: d :: rest) := hs.trans (by simp)
      obtain ⟨n, hfront, hn, ⟨e, hmem, hexit, he⟩, hen, hbehind⟩ := ih hagain hrun hcode
      refine ⟨n, hfront, hn.trans (by simpa using hc),
        ⟨e, List.mem_append_left _ hmem, hexit, he⟩, hen, fun m e he hlt hle => ?_⟩
      rcases Nat.lt_or_ge (byteLength (front ++ run)) m with hm | hm
      · rwa [Nat.le_antisymm hle (he.le_of_lt hrest hm)]
      · exact hbehind m e he hlt hm

/-! ### The quotes of imports -/

theorem not_mem_exits_of_isBlank (h : isBlank c = true) : c ∉ Reader.exits := by
  refine List.not_mem_cons_of_ne_of_not_mem ?_ (Reader.not_ambiguous_of_isBlank h)
  rintro rfl
  cases h

/-- No reader leaves code between the keyword of a call and its opening quote. -/
theorem not_mem_exits_of_call {run indent : List Char} {kind : Option ImportKind}
    (h : Shape.call.head? run = some (indent, kind)) (hc : c ∈ run) : c ∉ Reader.exits := by
  obtain ⟨_, _, outside, inside, rfl, houtside, hinside⟩ := exists_of_call h
  have hletters : ∀ c ∈ "import(".toList, c ∉ Reader.exits := by
    simp [Reader.exits, Reader.ambiguous]
  simp only [List.mem_append, List.mem_cons] at hc
  rcases hc with hc | hc | rfl | hc
  · exact hletters c (List.mem_append_left ['('] hc)
  · exact not_mem_exits_of_isBlank (houtside c hc)
  · exact hletters _ (by decide)
  · exact not_mem_exits_of_isBlank (hinside c hc)

/-- The characters at which a reader may leave code in a clause. -/
def clauseExits : List Char := ['/', '\x60', '}']

/-- A clause has neither quotes nor separators. -/
theorem Statement.mem_clauseExits {word clause : List Char} {kind : ImportKind}
    (h : Statement word clause kind) (hq : isQuote c = false) (hc : c ∈ word ++ clause)
    (he : c ∈ Reader.exits) : c ∈ clauseExits := by
  simp only [Reader.exits, Reader.ambiguous, List.mem_cons, List.not_mem_nil, or_false] at he
  rcases he with rfl | rfl | rfl | rfl | rfl | rfl | rfl
  · decide
  · decide
  · cases hq
  · cases hq
  · decide
  · exact absurd hc (h.not_mem (by decide))
  · exact absurd hc (h.not_mem (by decide))

theorem Statement.not_mem_exits_of_sideEffect {word clause : List Char}
    (h : Statement word clause .sideEffect) (hc : c ∈ word ++ clause) : c ∉ Reader.exits := by
  have hletters : ∀ c ∈ "import".toList, c ∉ Reader.exits := by
    simp [Reader.exits, Reader.ambiguous]
  cases h with
  | sideEffect hb =>
    rcases List.mem_append.mp hc with hc | hc
    · exact hletters c hc
    · exact not_mem_exits_of_isBlank (List.all_eq_true.mp hb c hc)

/-- The characters between the keyword of an import and its opening quote. -/
theorem Located.mem_clauseExits {shape : Shape} {source : List Char} {site : ImportSite}
    (hs : shape ∈ shapes) (loc : Located shape source site) {lead : List Char}
    (hrun : loc.run = loc.indent ++ lead) (hc : c ∈ lead) (he : c ∈ Reader.exits) :
    c ∈ clauseExits ∧ site.kind ≠ .sideEffect ∧ site.kind ≠ .dynamic := by
  have hrunc : c ∈ loc.run := by rw [hrun]; exact List.mem_append_right _ hc
  simp only [shapes, List.mem_cons, List.not_mem_nil, or_false] at hs
  rcases hs with rfl | rfl
  · obtain ⟨word, clause, hstatement, _, hkind⟩ := exists_of_statement loc.head
    obtain rfl : lead = word ++ clause := List.append_cancel_left (hrun.symm.trans hstatement)
    refine ⟨hkind.mem_clauseExits (loc.quiet c hrunc) hc he, ?_, ?_⟩
    · intro hside
      rw [hside] at hkind
      exact hkind.not_mem_exits_of_sideEffect hc he
    · intro hdynamic
      rw [hdynamic] at hkind
      cases hkind
  · exact absurd he (not_mem_exits_of_call loc.head hrunc)

/-- A comment, a regex literal or a template begins at `start`, or the code within a template or
within markup ends there, and up to `stop` no code follows. -/
structure Escape (source : List Char) (map : CodeMap) (start stop : Nat) : Prop where
  exists_at : ∃ c ∈ clauseExits, At source start c
  isCode : map.isCode start = true
  escapes : ∀ n c, At source n c → start < n → n ≤ stop → map.isCode n = false

/-- In front of an opening quote that is not code the reader left code for good. -/
theorem Located.exists_escape {shape : Shape} {source : List Char} {site : ImportSite}
    {markup : Bool} (hs : shape ∈ shapes) (loc : Located shape source site)
    (hkeyword : (CodeMap.ofSource source markup).isCode (byteLength (loc.front ++ loc.indent)) = true)
    (hopening : (CodeMap.ofSource source markup).isCode (byteLength (loc.front ++ loc.run)) = false) :
    site.kind ≠ .sideEffect ∧ site.kind ≠ .dynamic ∧
      ∃ n, byteLength loc.front ≤ n ∧ n < byteLength (loc.front ++ loc.run) ∧
        Escape source (CodeMap.ofSource source markup) n (byteLength (loc.front ++ loc.run)) := by
  obtain ⟨first, others, hrun, _⟩ := (lawful_of_mem_shapes hs).exists_decisive loc.head
  have hfront : loc.front ++ loc.run = loc.front ++ loc.indent ++ first :: others := by
    rw [hrun, List.append_assoc]
  have hsource : source = loc.front ++ loc.indent ++ (first :: others ++
      loc.opening :: (site.specifier.toList ++ loc.closing :: (loc.tail ++ loc.after))) :=
    loc.text.trans (by rw [hrun]; simp)
  rw [hfront] at hopening ⊢
  obtain ⟨n, hle, hlt, ⟨c, hmem, hexit, hc⟩, hcode, hbehind⟩ :=
    exists_exit hsource (List.cons_ne_nil _ _) hkeyword hopening
  obtain ⟨hclause, hside, hdynamic⟩ := loc.mem_clauseExits hs hrun hmem hexit
  rw [byteLength_append] at hle
  exact ⟨hside, hdynamic, n, by omega, hlt, ⟨c, hclause, hc⟩, hcode, hbehind⟩

/-- The quote that opens the specifier of an import is code unless the reader left code in the clause
in front of it, which it does in none of a bare import or a call. -/
theorem isCode_opening_iff {source : String} {dialect : Dialect} {site : ImportSite}
    (h : site ∈ importSites source dialect) :
    let map := CodeMap.ofSource source.toList dialect.allowsMarkup
    ∃ opening quote, opening + 1 = site.span.start ∧ isQuote quote = true ∧
      At source.toList opening quote ∧
      (map.isCode opening = true ↔
        ∀ n, site.statement.start ≤ n → n < opening → ¬ Escape source.toList map n opening) ∧
      (site.kind = .sideEffect ∨ site.kind = .dynamic → map.isCode opening = true) := by
  intro map
  obtain ⟨shape, hs, loc, hkeyword⟩ := exists_located_isCode h
  have hescape : map.isCode (byteLength (loc.front ++ loc.run)) = false → _ :=
    loc.exists_escape hs hkeyword
  refine ⟨byteLength (loc.front ++ loc.run), loc.opening, loc.start_span.symm, loc.isQuote_opening,
    loc.at_opening, ⟨fun hcode n _ hlt hn => ?_, fun hnone => ?_⟩, fun hkind => ?_⟩
  · have hnot := hn.escapes _ _ loc.at_opening hlt (Nat.le_refl _)
    rw [hcode] at hnot
    cases hnot
  · refine Decidable.byContradiction fun hcode => ?_
    obtain ⟨_, _, n, hle, hlt, hn⟩ := hescape (Bool.eq_false_iff.mpr hcode)
    exact hnone n (loc.start_statement ▸ hle) hlt hn
  · refine Decidable.byContradiction fun hcode => ?_
    obtain ⟨hside, hdynamic, _⟩ := hescape (Bool.eq_false_iff.mpr hcode)
    exact hkind.elim hside hdynamic

/-- A clause that reaches over a comment: the comment ends in front of the quote. -/
theorem isCode_opening_behind_comment :
    let source := "import a /* b */ from './a';\n"
    let map := CodeMap.ofSource source.toList true
    ∃ site ∈ importSites source .jsx, map.isCode 22 = true ∧
      ∀ n < 22, ¬ Escape source.toList map n 22 := by
  intro source map
  refine ⟨⟨"./a", .static, ⟨23, 26⟩, ⟨0, 28⟩⟩, by decide +kernel, by decide +kernel, fun n hn => ?_⟩
  obtain ⟨opening, quote, hopening, _, _, hiff, _⟩ :=
    isCode_opening_iff (by decide +kernel :
      (⟨"./a", .static, ⟨23, 26⟩, ⟨0, 28⟩⟩ : ImportSite) ∈ importSites source .jsx)
  obtain rfl : opening = 22 := Nat.succ.inj hopening
  exact hiff.mp (by decide +kernel) n (Nat.zero_le _) hn

/-- An import that stands in a comment is found behind an unfinished statement. -/
theorem not_isCode_opening_in_comment :
    let source := "export default App\n// import Fake from './Fake'\n"
    let map := CodeMap.ofSource source.toList true
    (⟨"./Fake", .reExport, ⟨40, 46⟩, ⟨0, 47⟩⟩ : ImportSite) ∈ importSites source .jsx ∧
      map.isCode 39 = false := by
  decide +kernel

end LivePreview.Source
