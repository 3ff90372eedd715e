import LivePreview.Proofs.Source.Moved
import LivePreview.Proofs.Source.Reading

/-!
# Brackets

Text whose brackets balance leaves a reader of code as it was. Without quotes, backticks, slashes
and markup a whole source is code, and its fault is where its brackets stop to be the beginning of a
balanced word, or at a bracket that they leave open.
-/
namespace LivePreview.Source

open LivePreview.Text

/-! ### Balanced words -/

/-- One of the six brackets. -/
def isBracket (c : Char) : Bool :=
  (Bracket.ofOpener? c).isSome || (Bracket.ofCloser? c).isSome

/-- The brackets of a text. -/
def brackets (cs : List Char) : List Char := cs.filter isBracket

/-- The words of brackets in which every bracket is closed by its own closer. -/
inductive Balanced : List Char → Prop
  | nil : Balanced []
  | enclosed (bracket : Bracket) {word : List Char} (h : Balanced word) :
      Balanced (bracket.opener :: (word ++ [bracket.closer]))
  | append {word word' : List Char} (h : Balanced word) (h' : Balanced word') :
      Balanced (word ++ word')

@[simp] theorem isBracket_opener (bracket : Bracket) : isBracket bracket.opener = true := by
  simp [isBracket]

@[simp] theorem isBracket_closer (bracket : Bracket) : isBracket bracket.closer = true := by
  simp [isBracket]

theorem brackets_append (cs cs' : List Char) : brackets (cs ++ cs') = brackets cs ++ brackets cs' :=
  List.filter_append cs cs'

theorem brackets_enclosed (bracket : Bracket) (cs : List Char) :
    brackets (bracket.opener :: (cs ++ [bracket.closer])) =
      bracket.opener :: (brackets cs ++ [bracket.closer]) := by
  simp [brackets]

theorem brackets_eq_nil_iff {cs : List Char} :
    brackets cs = [] ↔ ∀ c ∈ cs, isBracket c = false := by
  simp [brackets]

theorem ofBracket?_of_not_isBracket {c : Char} (h : isBracket c = false) :
    Bracket.ofOpener? c = none ∧ Bracket.ofCloser? c = none := by
  simpa [isBracket] using h

/-- The text around two brackets that belong together. -/
theorem exists_of_brackets_enclosed {bracket : Bracket} {cs word : List Char}
    (h : brackets cs = bracket.opener :: (word ++ [bracket.closer])) :
    ∃ front inner back, cs = front ++ (bracket.opener :: (inner ++ [bracket.closer]) ++ back) ∧
      brackets front = [] ∧ brackets inner = word ∧ brackets back = [] := by
  obtain ⟨front, rest, rfl, hfront, -, hrest⟩ := List.filter_eq_cons_iff.mp h
  obtain ⟨inner, back, rfl, hinner, hback⟩ := List.filter_eq_append_iff.mp hrest
  obtain ⟨between, back, rfl, hbetween, -, hback⟩ := List.filter_eq_cons_iff.mp hback
  refine ⟨front, inner ++ between, back, by simp, ?_, ?_, hback⟩
  · exact List.filter_eq_nil_iff.mpr hfront
  · rw [brackets_append, show brackets between = [] from List.filter_eq_nil_iff.mpr hbetween,
      List.append_nil, ← hinner, brackets]

namespace Reader

/-- Every reader that comes to the text in code goes on behind it as it was. -/
def Passes (markup : Bool) (cs : List Char) : Prop :=
  ∀ r : Reader, r.InCode → r.markup = markup → ∀ rest, Resumes r (r.through cs rest)

namespace Passes

variable {markup : Bool} {cs cs' : List Char}

theorem append (h : Passes markup cs) (h' : Passes markup cs') : Passes markup (cs ++ cs') := by
  intro r hr hm rest
  have hfirst := h r hr hm (cs' ++ rest)
  rw [through_append]
  exact hfirst.trans (h' _ (hfirst.inCode hr) (hfirst.markup.trans hm) rest)

theorem enclosed (h : Passes markup cs) (bracket : Bracket) :
    Passes markup (bracket.opener :: (cs ++ [bracket.closer])) :=
  fun _ hr hm _ => hr.resumes_enclosed bracket fun r' hr' _ hm' =>
    h r' hr' (hm'.trans hm) _

theorem of_no_brackets (hc : ∀ c ∈ cs, Harmless markup c) (hb : brackets cs = []) :
    Passes markup cs := by
  rw [brackets_eq_nil_iff] at hb
  induction cs with
  | nil => exact fun r _ _ _ => .refl r
  | cons c cs ih =>
    obtain ⟨hc, hcs⟩ := List.forall_mem_cons.mp hc
    obtain ⟨hbc, hbcs⟩ := List.forall_mem_cons.mp hb
    obtain ⟨hopen, hclose⟩ := ofBracket?_of_not_isBracket hbc
    intro r hr hm rest
    have hstep := hr.resumes_step (by rwa [hm]) hopen hclose (cs ++ rest).head?
    exact hstep.trans (ih hcs hbcs _ (hstep.inCode hr) (hstep.markup.trans hm) rest)

/-- Text whose brackets balance. -/
theorem of_balanced (hb : Balanced (brackets cs)) (hc : ∀ c ∈ cs, Harmless markup c) :
    Passes markup cs := by
  generalize hword : brackets cs = word at hb
  induction hb generalizing cs with
  | nil => exact of_no_brackets hc hword
  | enclosed bracket _ ih =>
    obtain ⟨front, inner, back, rfl, hfront, hinner, hback⟩ := exists_of_brackets_enclosed hword
    have hinside : Passes markup inner := ih (fun c hm => hc c (by simp [hm])) hinner
    exact append (of_no_brackets (fun c hm => hc c (by simp [hm])) hfront)
      (append (hinside.enclosed bracket) (of_no_brackets (fun c hm => hc c (by simp [hm])) hback))
  | append _ _ ih ih' =>
    obtain ⟨first, second, rfl, hfirst, hsecond⟩ := List.filter_eq_append_iff.mp hword
    obtain ⟨hcf, hcs⟩ := List.forall_mem_append.mp hc
    exact append (ih hcf hfirst) (ih' hcs hsecond)

end Passes

end Reader

/-! ### Brackets left open -/

/-- Each closer of the text closes the innermost bracket that is open there. The brackets that the
text leaves open are given with their offsets, the innermost first. -/
inductive Leaves : List Char → List (Bracket × Nat) → Prop
  | balanced {cs : List Char} (h : Balanced (brackets cs)) : Leaves cs []
  | opener {front cs : List Char} {opened : List (Bracket × Nat)} (bracket : Bracket)
      (hf : Leaves front opened) (h : Balanced (brackets cs)) :
      Leaves (front ++ bracket.opener :: cs) ((bracket, byteLength front) :: opened)

namespace Leaves

variable {front : List Char} {opened : List (Bracket × Nat)}

theorem append (h : Leaves front opened) {cs : List Char} (hb : Balanced (brackets cs)) :
    Leaves (front ++ cs) opened := by
  cases h with
  | balanced hf =>
    refine .balanced ?_
    rw [brackets_append]
    exact hf.append hb
  | opener bracket hf h =>
    rw [List.append_assoc, List.cons_append]
    refine .opener bracket hf ?_
    rw [brackets_append]
    exact h.append hb

theorem close {bracket : Bracket} {offset : Nat} (h : Leaves front ((bracket, offset) :: opened)) :
    Leaves (front ++ [bracket.closer]) opened := by
  cases h with
  | opener _ hf h =>
    rw [List.append_assoc, List.cons_append]
    refine hf.append ?_
    rw [brackets_enclosed]
    exact h.enclosed bracket

end Leaves

/-- The innermost open bracket is not one that the closer closes. -/
def Misfits (opened : List (Bracket × Nat)) (closing : Bracket) : Prop :=
  ∀ bracket ∈ opened.head?, bracket.1 ≠ closing

/-- Each source either leaves brackets open or has a first closer that does not fit. -/
theorem exists_leaves_or_misfits (source : List Char) :
    (∃ opened, Leaves source opened) ∨ ∃ front closing rest opened,
      source = front ++ Bracket.closer closing :: rest ∧ Leaves front opened ∧
        Misfits opened closing := by
  induction source using List.reverseRecOn with
  | nil => exact .inl ⟨[], .balanced .nil⟩
  | append_singleton source c ih =>
    rcases ih with ⟨opened, h⟩ | ⟨front, closing, rest, opened, rfl, h, hm⟩
    · cases ho : Bracket.ofOpener? c with
      | some bracket =>
        rw [eq_opener_of_ofOpener? ho]
        exact .inl ⟨_, h.opener bracket .nil⟩
      | none =>
        cases hc : Bracket.ofCloser? c with
        | none =>
          have hb : brackets [c] = [] := brackets_eq_nil_iff.mpr (by simp [isBracket, ho, hc])
          exact .inl ⟨opened, h.append (by rw [hb]; exact .nil)⟩
        | some closing =>
          obtain rfl := eq_closer_of_ofCloser? hc
          by_cases hm : Misfits opened closing
          · exact .inr ⟨source, closing, [], opened, rfl, h, hm⟩
          · -- The closer fits the innermost bracket.
            cases opened with
            | nil => exact absurd (fun bracket hb => by cases hb) hm
            | cons top opened =>
              have htop : top.1 = closing := by simpa [Misfits] using hm
              subst htop
              exact .inl ⟨opened, h.close⟩
    · exact .inr ⟨front, closing, rest ++ [c], opened, by simp, h, hm⟩

/-! ### The reader of brackets -/

/-- A bracket of the source that is open. -/
def openBracket (source : List Char) (bracket : Bracket × Nat) : OpenConstruct :=
  ⟨.bracket bracket.1, .ofOffset source bracket.2⟩

/-- The characters of a source that a reader without markup takes for code. -/
def Unquoted (source : List Char) : Prop := ∀ c ∈ source, c ∉ ['\'', '"', '\x60', '/']

instance (source : List Char) : Decidable (Unquoted source) :=
  List.decidableBAll _ source

theorem Unquoted.harmless {source : List Char} (h : Unquoted source) :
    ∀ c ∈ source, Reader.Harmless false c := by
  intro c hc
  have hn := h c hc
  simp only [List.mem_cons, List.not_mem_nil, or_false, not_or] at hn
  refine ⟨?_, fun _ => rfl⟩
  simp only [List.mem_cons, List.not_mem_nil, or_false, not_or]
  exact ⟨hn.2.2.2, hn.1, hn.2.1, hn.2.2.1⟩

/-- What the reader has on its stack behind a text is what the text leaves open. -/
theorem Leaves.readerAt {front : List Char} {opened : List (Bracket × Nat)}
    (h : Leaves front opened) (hq : Unquoted front) (rest : List Char) :
    (readerAt false front rest).InCode ∧ (readerAt false front rest).markup = false ∧
      (readerAt false front rest).fault = none ∧
      (readerAt false front rest).stack = opened.map (openBracket (front ++ rest)) := by
  induction h generalizing rest with
  | balanced hb =>
    have hr : Reader.Resumes { markup := false } (Source.readerAt false _ rest) :=
      Reader.Passes.of_balanced hb hq.harmless _ ⟨rfl, rfl⟩ rfl rest
    exact ⟨hr.inCode ⟨rfl, rfl⟩, hr.markup, hr.fault, hr.stack⟩
  | @opener front cs opened bracket _ hb ih =>
    obtain ⟨hqf, hqcs⟩ := List.forall_mem_append.mp hq
    have hqcs : Unquoted cs := (List.forall_mem_cons.mp hqcs).2
    obtain ⟨hin, hmarkup, hfault, hstack⟩ := ih hqf (bracket.opener :: cs ++ rest)
    have hlocation := location_readerAt false front (bracket.opener :: cs ++ rest)
    rw [← Location.ofOffset_append front (bracket.opener :: cs ++ rest)] at hlocation
    obtain ⟨offset, location, code, hopen⟩ := hin.step_opener bracket (cs ++ rest).head?
    have hr := Reader.Passes.of_balanced hb hqcs.harmless
      ((Source.readerAt false front (bracket.opener :: cs ++ rest)).step bracket.opener
        (cs ++ rest).head?) (by rw [hopen]; exact hin) (by rw [hopen]; exact hmarkup) rest
    rw [readerAt_append, Reader.through]
    rw [hopen] at hr ⊢
    refine ⟨hr.inCode hin, hr.markup.trans hmarkup, hr.fault.trans hfault, hr.stack.trans ?_⟩
    rw [hstack, hlocation, List.map_cons, openBracket, List.append_assoc]

/-- What is wrong with a closer that does not fit the innermost open bracket. -/
def misfit (source : List Char) (closing : Bracket) : Option (Bracket × Nat) → Defect
  | none => .unexpected closing.closer
  | some (opening, offset) =>
    .mismatched (.bracket opening) (.ofOffset source offset) closing.closer

theorem Reader.closeFault?_of_misfits {r : Reader} {source : List Char} {closing : Bracket}
    {opened : List (Bracket × Nat)} (hs : r.stack = opened.map (openBracket source))
    (hm : Misfits opened closing) :
    r.closeFault? closing = some ⟨misfit source closing opened.head?, some r.location⟩ := by
  rw [closeFault?, hs]
  cases opened with
  | nil => rfl
  | cons top opened =>
    have hfits : (Construct.bracket top.1).fits closing = false := by
      have htop : top.1 ≠ closing := hm top rfl
      revert htop
      cases top.1 <;> cases closing <;> decide
    simp only [List.map_cons, openBracket, hfits, Bool.false_eq_true, if_false]
    rfl

/-- The fault of a source is at the first closer that does not fit. -/
theorem Leaves.fault_of_misfits {source front rest : List Char} {closing : Bracket}
    {opened : List (Bracket × Nat)} (h : Leaves front opened) (hq : Unquoted source)
    (hs : source = front ++ closing.closer :: rest) (hm : Misfits opened closing) :
    (CodeMap.ofSource source false).fault =
      some ⟨misfit source closing opened.head?, some (.ofOffset source (byteLength front))⟩ := by
  subst hs
  obtain ⟨hin, -, hfault, hstack⟩ :=
    h.readerAt (List.forall_mem_append.mp hq).1 (closing.closer :: rest)
  have hcloses : (Source.readerAt false front (closing.closer :: rest)).Closes closing.closer :=
    ⟨hin.1, ⟨closing, Bracket.ofCloser?_closer closing⟩, .inl hin.2⟩
  obtain ⟨-, hstep, -, -⟩ :=
    Reader.step_of_closes hcloses (Bracket.ofCloser?_closer closing) rest.head?
  rw [hfault, Option.none_or, Reader.closeFault?_of_misfits hstack hm, location_readerAt,
    ← Location.ofOffset_append front (closing.closer :: rest), ← readerAt_concat] at hstep
  rw [← fault_ofSource hstep, List.append_assoc]
  rfl

/-- Without such a closer it is at the innermost bracket that is left open. -/
theorem Leaves.fault_ofSource {source : List Char} {opened : List (Bracket × Nat)}
    (h : Leaves source opened) (hq : Unquoted source) :
    (CodeMap.ofSource source false).fault = opened.head?.map fun bracket =>
      ⟨.unclosed (.bracket bracket.1), some (.ofOffset source bracket.2)⟩ := by
  obtain ⟨hin, -, hfault, hstack⟩ := h.readerAt hq []
  rw [ofSource_eq, Reader.fault_finish, hfault, Reader.unterminated?, hin.2, Reader.unclosed?,
    hstack, List.append_nil, List.head?_map]
  cases opened.head? <;> rfl

/-! ### Reports -/

/-- The message about the brackets of a source, and where it points: at the first closer that does
not fit the innermost open bracket, or at the innermost bracket that stays open. -/
inductive BracketReport (source : List Char) : String → Option Location → Prop
  | unexpected {front rest : List Char} (closing : Bracket)
      (hs : source = front ++ closing.closer :: rest) (hf : Leaves front []) :
      BracketReport source ("Unexpected '" ++ closing.closer.toString ++ "'")
        (some (.ofOffset source (byteLength front)))
  | mismatched {front rest : List Char} {opened : List (Bracket × Nat)} (opening closing : Bracket)
      (offset : Nat) (hs : source = front ++ closing.closer :: rest)
      (hf : Leaves front ((opening, offset) :: opened)) (hne : opening ≠ closing) :
      BracketReport source ("Expected '" ++ opening.closer.toString ++ "' to close '" ++
          opening.opener.toString ++ "' opened at " ++ (Location.ofOffset source offset).render ++
          " but found '" ++ closing.closer.toString ++ "'")
        (some (.ofOffset source (byteLength front)))
  | unclosed {opened : List (Bracket × Nat)} (opening : Bracket) (offset : Nat)
      (hf : Leaves source ((opening, offset) :: opened)) :
      BracketReport source ("Unclosed '" ++ opening.opener.toString ++ "'")
        (some (.ofOffset source offset))

/-- What is told of a fault. -/
def Fault.report (fault : Fault) : String × Option Location :=
  (fault.defect.message, fault.location)

theorem bracketReport_of_fault {source : List Char} (hq : Unquoted source) {fault : Fault}
    (h : (CodeMap.ofSource source false).fault = some fault) :
    BracketReport source fault.defect.message fault.location := by
  rcases exists_leaves_or_misfits source with
    ⟨opened, hl⟩ | ⟨front, closing, rest, opened, hs, hl, hm⟩
  · rw [hl.fault_ofSource hq] at h
    cases opened with
    | nil => cases h
    | cons top opened =>
      obtain rfl := Option.some.inj h
      exact .unclosed top.1 top.2 hl
  · rw [hl.fault_of_misfits hq hs hm] at h
    obtain rfl := Option.some.inj h
    cases opened with
    | nil => exact .unexpected closing hs hl
    | cons top opened => exact .mismatched top.1 closing top.2 hs hl (hm top rfl)

theorem BracketReport.exists_fault {source : List Char} (hq : Unquoted source) {message : String}
    {location : Option Location} (h : BracketReport source message location) :
    ∃ fault, (CodeMap.ofSource source false).fault = some fault ∧
      fault.report = (message, location) := by
  cases h with
  | unexpected closing hs hf =>
    exact ⟨_, hf.fault_of_misfits hq hs fun _ hb => (by cases hb), rfl⟩
  | mismatched opening closing offset hs hf hne =>
    refine ⟨_, hf.fault_of_misfits hq hs fun bracket hb => ?_, rfl⟩
    obtain rfl := Option.some.inj hb
    exact hne
  | unclosed opening offset hf => exact ⟨_, hf.fault_ofSource hq, rfl⟩

/-- A source that is all code has no fault exactly if its brackets are a balanced word, and
otherwise the one report that its brackets call for. -/
theorem bracket_report_iff {source : List Char} (hq : Unquoted source) :
    ((CodeMap.ofSource source false).fault = none ↔ Balanced (brackets source)) ∧
      ∀ message location, (CodeMap.ofSource source false).fault.map Fault.report =
        some (message, location) ↔ BracketReport source message location := by
  refine ⟨⟨fun h => ?_, fun h => (Leaves.balanced h).fault_ofSource hq⟩, fun message location =>
    ⟨fun h => ?_, fun h => ?_⟩⟩
  · rcases exists_leaves_or_misfits source with ⟨opened, hl⟩ | ⟨_, _, _, _, hs, hl, hm⟩
    · rw [hl.fault_ofSource hq] at h
      cases hl with
      | balanced hb => exact hb
      | opener bracket _ _ => cases h
    · rw [hl.fault_of_misfits hq hs hm] at h
      cases h
  · obtain ⟨fault, hfault, hreport⟩ := Option.map_eq_some_iff.mp h
    obtain ⟨rfl, rfl⟩ := Prod.mk.inj hreport
    exact bracketReport_of_fault hq hfault
  · obtain ⟨fault, hfault, hreport⟩ := h.exists_fault hq
    rw [hfault, Option.map_some, hreport]

/-- The report of brackets that cross tells of the first closer only. -/
theorem bracket_report_of_crossing :
    let source := "f(\x7b a: [0 )\n] \x7d".toList
    Unquoted source ∧ ¬ Balanced (brackets source) ∧
      BracketReport source "Expected ']' to close '[' opened at 1:8 but found ')'"
        (some ⟨1, 11⟩) := by
  intro source
  have hq : Unquoted source := by decide +kernel
  obtain ⟨hbalanced, hreport⟩ := bracket_report_iff hq
  refine ⟨hq, fun h => ?_, (hreport _ _).mp (by decide +kernel)⟩
  have hnone := hbalanced.mpr h
  revert hnone
  decide +kernel

end LivePreview.Source
