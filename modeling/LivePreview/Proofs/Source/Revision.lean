import Mathlib.Data.List.Induction
import LivePreview.Proofs.Source.Scan
import LivePreview.Proofs.Source.Settle

/-!
# Revisions

A revision is a script in pieces: characters that stay, specifiers that are replaced and statements
that are dropped. It has a source and a target. Where the pieces fit, a reader of the target stands
in code between two pieces whenever a reader of the source does.
-/
namespace LivePreview.Source

open LivePreview.Text

inductive Piece where
  | keep (c : Char)
  /-- A specifier before and after, with the quote in front of it. -/
  | swap (quote : Char) (old new : List Char)
  /-- A statement that leaves line breaks. -/
  | drop (statement : List Char) (breaks : Nat)

namespace Piece

def source : Piece → List Char
  | keep c => [c]
  | swap quote old _ => quote :: old
  | drop statement _ => statement

def target : Piece → List Char
  | keep c => [c]
  | swap quote _ new => quote :: new
  | drop _ breaks => List.replicate breaks '\n'

end Piece

def sourceOf (pieces : List Piece) : List Char := pieces.flatMap Piece.source

def targetOf (pieces : List Piece) : List Char := pieces.flatMap Piece.target

section Texts

variable (c : Char) (cs : List Char) (p : Piece) (ps qs : List Piece)

@[simp] theorem Piece.source_keep : (keep c).source = [c] := rfl

@[simp] theorem Piece.target_keep : (keep c).target = [c] := rfl

@[simp] theorem sourceOf_nil : sourceOf [] = [] := rfl

@[simp] theorem targetOf_nil : targetOf [] = [] := rfl

@[simp] theorem sourceOf_cons : sourceOf (p :: ps) = p.source ++ sourceOf ps := List.flatMap_cons

@[simp] theorem targetOf_cons : targetOf (p :: ps) = p.target ++ targetOf ps := List.flatMap_cons

@[simp] theorem sourceOf_singleton : sourceOf [p] = p.source := by simp

@[simp] theorem targetOf_singleton : targetOf [p] = p.target := by simp

@[simp] theorem sourceOf_append : sourceOf (ps ++ qs) = sourceOf ps ++ sourceOf qs :=
  List.flatMap_append

@[simp] theorem targetOf_append : targetOf (ps ++ qs) = targetOf ps ++ targetOf qs :=
  List.flatMap_append

@[simp] theorem sourceOf_keep : sourceOf (cs.map .keep) = cs := by
  induction cs with
  | nil => rfl
  | cons c cs ih => simp [ih, Piece.source]

@[simp] theorem targetOf_keep : targetOf (cs.map .keep) = cs := by
  induction cs with
  | nil => rfl
  | cons c cs ih => simp [ih, Piece.target]

end Texts

/-! ### Pieces that fit -/

/-- The reader between the two parts of a source. -/
def readerAt (markup : Bool) (front rest : List Char) : Reader :=
  ({ markup } : Reader).through front rest

/-- What stands behind the last quote. -/
def lastRun (front : List Char) : List Char := (front.reverse.takeWhile (!isQuote ·)).reverse

/-- A specifier that is the whole of a string literal, and that any plain text may replace. -/
structure Replaceable (markup : Bool) (front : List Char) (quote : Char) (old behind : List Char) :
    Prop where
  opens : (readerAt markup front (quote :: (old ++ behind))).InCode
  literal : ¬ (readerAt markup (front ++ [quote]) (old ++ behind)).InCode
  plain : Plain old

/-- A statement that has its lines for itself and that nothing around it depends on. -/
structure Removable (markup : Bool) (front statement behind : List Char) : Prop where
  ends : ∀ c, behind.head? = some c → c = '\n'
  /-- No import that began before goes on behind it. -/
  alone : ∀ word ∈ keywords, ¬ word <:+: lastRun front
  code : (readerAt markup front (statement ++ behind)).InCode
  near : Reader.Near (readerAt markup front (statement ++ behind))
    (readerAt markup (front ++ statement) behind)
  apart : (readerAt markup (front ++ statement) behind).inWord = false
  settles : (readerAt markup (front ++ statement) behind).settles behind = true

/-- The piece fits between two parts of a source whose import sites are given. -/
def Piece.Fits (markup : Bool) (sites : List ImportSite) (front behind : List Char) : Piece → Prop
  | keep c => ∀ site ∈ sites, site.span.start ≠ byteLength front + c.utf8Size
  | swap quote old new =>
    Replaceable markup front quote old behind ∧ Plain new ∧ isQuote quote = true ∧
      ∃ closing rest, behind = closing :: rest ∧ isQuote closing = true
  | drop statement _ =>
    Removable markup front statement behind ∧ (∀ c, front.getLast? = some c → c = '\n') ∧
      (∃ c, (statement.dropWhile isBlank).head? = some c ∧ c ≠ ')') ∧
      ∀ shape ∈ shapes, ∃ found,
        shape.scan front (statement ++ behind) = found ++ shape.scan (front ++ statement) behind

/-- Each piece fits where it is. -/
def Fits (markup : Bool) (sites : List ImportSite) (pieces : List Piece) : Prop :=
  ∀ done p rest, pieces = done ++ p :: rest → p.Fits markup sites (sourceOf done) (sourceOf rest)

variable {markup : Bool} {sites : List ImportSite} {pieces done ps : List Piece}

/-! ### Readers of both texts -/

/-- The next characters are the same, unless a statement is dropped. -/
theorem head?_targetOf (h : ∀ statement breaks rest, ps ≠ .drop statement breaks :: rest) :
    (targetOf ps).head? = (sourceOf ps).head? := by
  cases ps with
  | nil => rfl
  | cons p rest =>
    cases p with
    | drop statement breaks => exact absurd rfl (h statement breaks rest)
    | _ => rfl

theorem readerAt_append (front middle rest : List Char) :
    readerAt markup (front ++ middle) rest = (readerAt markup front (middle ++ rest)).through middle rest :=
  Reader.through_append _ _ _ _

theorem sane_readerAt (front rest : List Char) : (readerAt markup front rest).Sane :=
  Reader.sane_through (r := { markup }) (fun quote hq => by cases hq) front rest

theorem readerAt_concat (front : List Char) (c : Char) (rest : List Char) :
    readerAt markup (front ++ [c]) rest = (readerAt markup front (c :: rest)).step c rest.head? :=
  readerAt_append _ _ _

theorem Plain.quoted {cs : List Char} (h : Plain cs) {quote : Char} (hq : isQuote quote = true) :
    ∀ c ∈ cs, c ≠ '\\' ∧ c ≠ '\n' ∧ c ≠ quote := by
  intro c hc
  have hquiet := h.quiet c hc
  simp only [List.mem_cons, List.not_mem_nil, or_false, not_or] at hquiet
  refine ⟨hquiet.2.2.1, hquiet.2.2.2.2, fun he => ?_⟩
  rcases isQuote_iff.mp hq with rfl | rfl
  · exact hquiet.1 he
  · exact hquiet.2.1 he

theorem Reader.Near.mode_quoted {r r' : Reader} {quote : Char} (h : Near r r')
    (hm : r.mode = .quoted quote) : r'.mode = .quoted quote := by
  rcases Mode.eq_or_of_erase_eq h.mode with he | ⟨_, _, he, _⟩
  · rw [he, hm]
  · rw [hm] at he
    cases he

/-- A string with another text in it leaves the reader as the string does. -/
theorem Reader.Alike.through_string {r r' : Reader} {quote : Char} (h : Alike r r')
    (hs : r.skip = false) (hm : r.mode = .quoted quote) (hw : r.inWord = false)
    (hq : isQuote quote = true) {old new : List Char} (ho : Plain old) (hn : Plain new)
    (rest rest' : List Char) : Alike (r.through old rest) (r'.through new rest') := by
  obtain ⟨offset, location, he⟩ := alike_through_quoted hs hm hw (ho.quoted hq) rest
  obtain ⟨offset', location', he'⟩ := alike_through_quoted (h.skip.symm.trans hs)
    (h.mode_quoted hm) (h.inWord.symm.trans hw) (hn.quoted hq) rest'
  rw [he, he']
  exact ⟨⟨h.markup, h.mode, h.stack, h.inWord, h.word, h.skip⟩, h.start, h.comparison⟩

/-- Line breaks in code change nothing but where the reader is. -/
theorem Reader.InCode.through_breaks {r : Reader} (h : r.InCode) (hw : r.inWord = false) (n : Nat)
    (rest : List Char) : ∃ offset location code,
      r.through (List.replicate n '\n') rest = { r with offset, location, code } := by
  induction n generalizing r with
  | zero => exact ⟨r.offset, r.location, r.code, rfl⟩
  | succ n ih =>
    obtain ⟨offset, location, code, he⟩ :=
      h.step_blank (c := '\n') (by decide) (List.replicate n '\n' ++ rest).head?
    rw [← hw] at he
    obtain ⟨offset', location', code', he'⟩ := ih (r := { r with offset, location, code }) h hw
    refine ⟨offset', location', code', ?_⟩
    rw [List.replicate_succ, through, he]
    exact he'

theorem Reader.InCode.near_through_breaks {r : Reader} (h : r.InCode) (hw : r.inWord = false)
    (n : Nat) (rest : List Char) : Near r (r.through (List.replicate n '\n') rest) := by
  obtain ⟨offset, location, code, he⟩ := h.through_breaks hw n rest
  rw [he]
  exact ⟨rfl, rfl, rfl, rfl, fun _ => rfl, rfl⟩

/-- Behind the opening quote of a specifier both readers are in the same string. -/
theorem Replaceable.alike_step {front old behind : List Char} {quote : Char}
    (h : Replaceable markup front quote old behind) (hq : isQuote quote = true) {r' : Reader}
    (ht : Reader.Tracks (readerAt markup front (quote :: (old ++ behind))) r'
      (quote :: (old ++ behind))) (next : Option Char) :
    let r := (readerAt markup front (quote :: (old ++ behind))).step quote (old ++ behind).head?
    Reader.Alike r (r'.step quote next) ∧ r.mode = .quoted quote ∧ r.skip = false ∧
      r.inWord = false := by
  have halike : Reader.Alike (readerAt markup front (quote :: (old ++ behind))) r' := by
    rcases ht with h' | ⟨_, hs⟩
    · exact h'
    · rw [h.opens.settles_quote (isQuote_iff.mp hq)] at hs
      cases hs
  have hliteral := h.literal
  rw [readerAt_concat] at hliteral
  have hsingle : quote ∉ ['/', '*', '$', '<'] := by
    rcases isQuote_iff.mp hq with rfl | rfl <;> decide
  refine ⟨?_, h.opens.step_quote (isQuote_iff.mp hq) hliteral⟩
  rw [Reader.step_next hsingle r' next (old ++ behind).head?]
  exact halike.step (sane_readerAt _ _) quote _

/-- Behind a piece the readers of both texts go on in the same way. -/
theorem tracks_concat {p : Piece} (hp : p.Fits markup sites (sourceOf done) (sourceOf ps))
    (hdrop : ∀ statement breaks rest, ps = .drop statement breaks :: rest →
      ∀ c, (sourceOf (done ++ [p])).getLast? = some c → c = '\n')
    (h : Reader.Tracks (readerAt markup (sourceOf done) (sourceOf (p :: ps)))
      (readerAt markup (targetOf done) (targetOf (p :: ps))) (sourceOf (p :: ps))) :
    Reader.Tracks (readerAt markup (sourceOf (done ++ [p])) (sourceOf ps))
      (readerAt markup (targetOf (done ++ [p])) (targetOf ps)) (sourceOf ps) := by
  simp only [sourceOf_append, targetOf_append, sourceOf_cons, targetOf_cons, sourceOf_nil,
    targetOf_nil, List.append_nil] at h hdrop ⊢
  cases p with
  | keep c =>
    simp only [Piece.source, Piece.target, List.singleton_append] at h hdrop ⊢
    have hnext : ∀ r : Reader, r.step c (targetOf ps).head? = r.step c (sourceOf ps).head? := by
      intro r
      by_cases hps : ∃ statement breaks rest, ps = .drop statement breaks :: rest
      · obtain ⟨statement, breaks, rest, hps⟩ := hps
        obtain rfl := hdrop _ _ _ hps c List.getLast?_concat
        exact Reader.step_next (by decide) r _ _
      · rw [head?_targetOf fun statement breaks rest he => hps ⟨statement, breaks, rest, he⟩]
    rw [readerAt_concat, readerAt_concat, hnext]
    exact h.step (sane_readerAt _ _)
  | swap quote old new =>
    obtain ⟨hold, hnew, hq, _⟩ := hp
    simp only [Piece.source, Piece.target, List.cons_append] at h ⊢
    obtain ⟨hstep, hm, hs, hw⟩ := hold.alike_step hq h (new ++ targetOf ps).head?
    rw [readerAt_append, readerAt_append]
    exact .inl (hstep.through_string hs hm hw hq hold.plain hnew (sourceOf ps) (targetOf ps))
  | drop statement breaks =>
    obtain ⟨hdrop, _⟩ := hp
    simp only [Piece.source, Piece.target] at h ⊢
    have hnear := h.near
    have hcode := hnear.inCode_iff.mp hdrop.code
    have hword := hnear.inWord.symm.trans (hdrop.near.inWord.trans hdrop.apart)
    rw [readerAt_append (targetOf done)]
    refine .inr ⟨?_, hdrop.settles⟩
    exact hdrop.near.symm.trans (hnear.trans (hcode.near_through_breaks hword breaks _))

/-- A reader of the target tracks one of the source. -/
theorem Fits.tracks (hf : Fits markup sites pieces) (he : pieces = done ++ ps) :
    Reader.Tracks (readerAt markup (sourceOf done) (sourceOf ps))
      (readerAt markup (targetOf done) (targetOf ps)) (sourceOf ps) := by
  induction done using List.reverseRecOn generalizing ps with
  | nil => exact .inl (.refl _)
  | append_singleton done p ih =>
    rw [List.append_assoc] at he
    refine tracks_concat (hf _ _ _ he) (fun statement breaks rest hps => ?_) (ih he)
    subst hps
    exact (hf _ _ _ (he.trans (List.append_assoc done [p] _).symm)).2.1

/-- A kept character is code in the one text when it is code in the other. -/
theorem Fits.isCode_eq {rest : List Piece} {c : Char} (hf : Fits markup sites pieces)
    (he : pieces = done ++ .keep c :: rest) (hc : Reader.Decisive c) :
    (CodeMap.ofSource (targetOf pieces) markup).isCode (byteLength (targetOf done)) =
      (CodeMap.ofSource (sourceOf pieces) markup).isCode (byteLength (sourceOf done)) := by
  have hnear := (hf.tracks he).near
  rw [Bool.eq_iff_iff, he, sourceOf_append, targetOf_append, sourceOf_cons, targetOf_cons]
  exact (isCode_iff_inCode hc).trans (hnear.inCode_iff.symm.trans (isCode_iff_inCode hc).symm)

end LivePreview.Source
