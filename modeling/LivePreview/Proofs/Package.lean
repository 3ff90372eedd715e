import LivePreview.Package
import LivePreview.Proofs.Path.Canonical

/-!
# Package specifiers

A package is well-formed if its name is a word, or a scope and a word, and its subpath is a list of
segments. What is parsed are the specifiers of well-formed packages and nothing else, and each of
them as the package that it was written for.
-/
namespace LivePreview.Package

/-- A character that a word may start with, and behind it any that a word may have. -/
def IsWord (text : String) : Prop :=
  ∃ c rest, text.toList = c :: rest ∧ isWordStart c = true ∧ ∀ d ∈ rest, isWordChar d = true

inductive IsName : String → Prop
  | ofWord {word : String} (h : IsWord word) : IsName word
  | ofScope {scope word : String} (hs : IsWord scope) (hw : IsWord word) :
      IsName ("@" ++ scope ++ "/" ++ word)

/-- A piece of a subpath stays below its package: it is not `..`. -/
structure IsSegment (piece : String) : Prop where
  ne_empty : piece ≠ ""
  ne_parent : piece ≠ ".."
  free : '/' ∉ piece.toList
  solid : ∀ c ∈ piece.toList, Text.isBlank c = false

def IsSubpath (subpath : String) : Prop :=
  ∃ segments, segments ≠ [] ∧ subpath = "/".intercalate segments ∧
    ∀ segment ∈ segments, IsSegment segment

structure WellFormed (package : Package) : Prop where
  isName : IsName package.name
  isSubpath : ∀ subpath, package.subpath = some subpath → IsSubpath subpath

variable {name specifier : String} {pieces : List String} {package : Package}

/-! ### Words -/

theorem isWord_iff (text : String) : isWord text.toList = true ↔ IsWord text := by
  unfold IsWord
  cases text.toList with
  | nil =>
    constructor
    · intro h
      cases h
    · rintro ⟨_, _, he, -⟩
      cases he
  | cons c rest =>
    rw [isWord, Bool.and_eq_true, List.all_eq_true]
    constructor
    · rintro ⟨hstart, hrest⟩
      exact ⟨c, rest, rfl, hstart, hrest⟩
    · rintro ⟨_, _, he, hstart, hrest⟩
      obtain ⟨rfl, rfl⟩ := List.cons.inj he
      exact ⟨hstart, hrest⟩

theorem not_mem_of_isWord {text : String} (h : IsWord text) : '/' ∉ text.toList := by
  obtain ⟨c, rest, he, hstart, hrest⟩ := h
  rw [he]
  intro hm
  rcases List.mem_cons.mp hm with rfl | hm
  · exact absurd hstart (by decide)
  · exact absurd (hrest _ hm) (by decide)

theorem isScope_at (scope : String) : isScope ("@" ++ scope).toList = isWord scope.toList := by
  rw [String.toList_append]
  rfl

theorem not_isWord_at (scope : String) : isWord ("@" ++ scope).toList = false := by
  rw [String.toList_append]
  rfl

/-- A scope is written as an at sign and a word. -/
theorem exists_word_of_isScope {text : String} (h : isScope text.toList = true) :
    ∃ scope, text = "@" ++ scope ∧ IsWord scope := by
  unfold isScope at h
  split at h
  · rename_i rest he
    refine ⟨String.ofList rest, ?_, ?_⟩
    · apply String.toList_inj.mp
      have hrest : (String.ofList rest).toList = rest := String.toList_ofList
      rw [he, String.toList_append, hrest]
      rfl
    · rw [← isWord_iff, String.toList_ofList]
      exact h
  · cases h

/-! ### Names and the pieces behind them -/

/-- No name begins with a separator. -/
theorem IsName.head?_ne (h : IsName name) (behind : String) :
    (name ++ behind).toList.head? ≠ some '/' := by
  rw [String.toList_append]
  cases h with
  | ofWord hw =>
    obtain ⟨c, rest, he, hstart, -⟩ := hw
    rw [he]
    intro hc
    obtain rfl := Option.some.inj hc
    exact absurd hstart (by decide)
  | ofScope hs hw =>
    simp only [String.toList_append, List.append_assoc]
    exact fun hc => absurd (Option.some.inj hc) (by decide)

theorem splitNames_intercalate (hne : pieces ≠ []) (h : ∀ piece ∈ pieces, '/' ∉ piece.toList) :
    Path.splitNames ("/".intercalate pieces) = pieces :=
  Text.pieces_intercalate hne h

theorem intercalate_scoped (scope word : String) (pieces : List String) :
    "/".intercalate (("@" ++ scope ++ "/" ++ word) :: pieces) =
      "/".intercalate (("@" ++ scope) :: word :: pieces) := by
  cases pieces with
  | nil => simp only [String.intercalate_cons_cons, String.intercalate_singleton]
  | cons piece rest => simp only [String.intercalate_cons_cons, String.append_assoc]

/-- A name is taken off what is written behind it. -/
theorem parse_of_isName (hn : IsName name) (h : ∀ piece ∈ pieces, '/' ∉ piece.toList) :
    parse ("/".intercalate (name :: pieces)) = ofPieces name pieces := by
  cases hn with
  | ofWord hw =>
    have hsplit : Path.splitNames ("/".intercalate (name :: pieces)) = name :: pieces :=
      splitNames_intercalate (List.cons_ne_nil _ _)
        (List.forall_mem_cons.mpr ⟨not_mem_of_isWord hw, h⟩)
    rw [parse, hsplit]
    dsimp only
    rw [if_pos ((isWord_iff name).mpr hw)]
  | @ofScope scope word hs hw =>
    have hscope : '/' ∉ ("@" ++ scope).toList := by
      rw [String.toList_append]
      exact List.not_mem_cons_of_ne_of_not_mem (by decide) (not_mem_of_isWord hs)
    have hsplit : Path.splitNames ("/".intercalate (("@" ++ scope) :: word :: pieces)) =
        ("@" ++ scope) :: word :: pieces :=
      splitNames_intercalate (List.cons_ne_nil _ _)
        (List.forall_mem_cons.mpr
          ⟨hscope, List.forall_mem_cons.mpr ⟨not_mem_of_isWord hw, h⟩⟩)
    rw [intercalate_scoped, parse, hsplit]
    dsimp only
    rw [not_isWord_at, if_neg Bool.false_ne_true, isScope_at,
      if_pos ((isWord_iff scope).mpr hs), if_pos ((isWord_iff word).mpr hw)]

/-- Whatever is parsed has a name, and pieces behind it. -/
theorem exists_name_of_parse (h : parse specifier = some package) :
    ∃ name pieces, specifier = "/".intercalate (name :: pieces) ∧ IsName name ∧
      (∀ piece ∈ pieces, '/' ∉ piece.toList) ∧ ofPieces name pieces = some package := by
  have hwritten : "/".intercalate (Path.splitNames specifier) = specifier :=
    Text.intercalate_pieces '/' specifier
  have hfree : ∀ piece ∈ Path.splitNames specifier, '/' ∉ piece.toList :=
    fun _ => Path.not_mem_of_mem_splitNames
  unfold parse at h
  split at h
  · cases h
  · rename_i first rest hsplit
    rw [hsplit] at hwritten hfree
    split at h
    · rename_i hword
      exact ⟨first, rest, hwritten.symm, .ofWord ((isWord_iff first).mp hword),
        (List.forall_mem_cons.mp hfree).2, h⟩
    · split at h
      · rename_i hscope
        obtain ⟨scope, rfl, hs⟩ := exists_word_of_isScope hscope
        split at h
        · rename_i second rest
          split at h
          · rename_i hword
            refine ⟨_, rest, ?_, .ofScope hs ((isWord_iff second).mp hword), fun piece hm => ?_, h⟩
            · rw [intercalate_scoped, hwritten]
            · exact hfree piece (List.mem_cons_of_mem _ (List.mem_cons_of_mem _ hm))
          · cases h
        · cases h
      · cases h

/-! ### Subpaths -/

theorem isSegment_iff {piece : String} (h : '/' ∉ piece.toList) :
    isSegment piece = true ↔ IsSegment piece := by
  rw [isSegment, Bool.and_eq_true, Bool.and_eq_true, decide_eq_true_iff, decide_eq_true_iff,
    Bool.not_eq_true', List.any_eq_false]
  constructor
  · rintro ⟨⟨hne, hup⟩, hsolid⟩
    exact ⟨hne, hup, h, fun c hc => Bool.eq_false_iff.mpr (hsolid c hc)⟩
  · rintro ⟨hne, hup, -, hsolid⟩
    exact ⟨⟨hne, hup⟩, fun c hc => Bool.eq_false_iff.mp (hsolid c hc)⟩

theorem ofPieces_nil (name : String) : ofPieces name [] = some ⟨name, none⟩ := rfl

theorem ofPieces_of_ne_nil (hne : pieces ≠ []) (h : ∀ piece ∈ pieces, IsSegment piece) :
    ofPieces name pieces = some ⟨name, some ("/".intercalate pieces)⟩ := by
  have hall : pieces.all isSegment = true := by
    rw [List.all_eq_true]
    exact fun piece hm => (isSegment_iff (h piece hm).free).mpr (h piece hm)
  rw [ofPieces, if_neg (by simpa using hne), if_pos hall]

theorem ofPieces_eq_some (hfree : ∀ piece ∈ pieces, '/' ∉ piece.toList)
    (h : ofPieces name pieces = some package) :
    package.name = name ∧ package.specifier = "/".intercalate (name :: pieces) ∧
      ∀ subpath, package.subpath = some subpath → IsSubpath subpath := by
  cases pieces with
  | nil =>
    obtain rfl := Option.some.inj h
    exact ⟨rfl, (String.intercalate_singleton).symm, fun subpath hs => nomatch hs⟩
  | cons piece rest =>
    rw [ofPieces, if_neg (by simp)] at h
    split at h
    · rename_i hall
      obtain rfl := Option.some.inj h
      refine ⟨rfl, ?_, ?_⟩
      · rw [String.intercalate_cons_cons]
        rfl
      · intro subpath hs
        obtain rfl := Option.some.inj hs
        refine ⟨piece :: rest, List.cons_ne_nil _ _, rfl, fun segment hm => ?_⟩
        exact (isSegment_iff (hfree segment hm)).mp (List.all_eq_true.mp hall segment hm)
    · cases h

/-! ### Packages -/

theorem parse_specifier (h : package.WellFormed) : parse package.specifier = some package := by
  obtain ⟨name, subpath⟩ := package
  cases subpath with
  | none =>
    have hp : parse ("/".intercalate [name]) = ofPieces name [] :=
      parse_of_isName h.isName (fun _ hm => nomatch hm)
    rwa [String.intercalate_singleton, ofPieces_nil] at hp
  | some subpath =>
    obtain ⟨segments, hne, rfl, hsegments⟩ := h.isSubpath subpath rfl
    have hp := parse_of_isName h.isName (fun segment hm => (hsegments segment hm).free)
    rw [ofPieces_of_ne_nil hne hsegments] at hp
    obtain ⟨first, rest, rfl⟩ := List.exists_cons_of_ne_nil hne
    rw [String.intercalate_cons_cons] at hp
    exact hp

theorem specifier_of_parse (h : parse specifier = some package) :
    package.specifier = specifier := by
  obtain ⟨name, pieces, rfl, -, hfree, hof⟩ := exists_name_of_parse h
  exact (ofPieces_eq_some hfree hof).2.1

theorem wellFormed_of_parse (h : parse specifier = some package) : package.WellFormed := by
  obtain ⟨name, pieces, -, hn, hfree, hof⟩ := exists_name_of_parse h
  obtain ⟨rfl, -, hsubpath⟩ := ofPieces_eq_some hfree hof
  exact ⟨hn, hsubpath⟩

theorem parse_eq_some_iff :
    parse specifier = some package ↔ package.WellFormed ∧ package.specifier = specifier :=
  ⟨fun h => ⟨wellFormed_of_parse h, specifier_of_parse h⟩, fun ⟨h, he⟩ => he ▸ parse_specifier h⟩

/-- A package's specifier begins with a letter, a digit or one of `~`, `-` and `@`. -/
theorem head?_specifier_ne (h : parse specifier = some package) :
    package.specifier.toList.head? ≠ some '/' := by
  have hn := (wellFormed_of_parse h).isName
  unfold Package.specifier
  split
  · rw [String.append_assoc]
    exact hn.head?_ne _
  · have hhead := hn.head?_ne ""
    rwa [String.append_empty] at hhead

theorem WellFormed.eq_of_specifier_eq {other : Package} (h : package.WellFormed)
    (h' : other.WellFormed) (he : package.specifier = other.specifier) : package = other := by
  have hp := parse_specifier h
  rw [he, parse_specifier h'] at hp
  exact (Option.some.inj hp).symm

theorem exists_package_iff (specifier : String) :
    (∃ package, parse specifier = some package) ↔
      IsName specifier ∨
        ∃ name subpath, IsName name ∧ IsSubpath subpath ∧ specifier = name ++ "/" ++ subpath := by
  simp only [parse_eq_some_iff]
  constructor
  · rintro ⟨⟨name, subpath⟩, h, rfl⟩
    cases subpath with
    | none => exact Or.inl h.isName
    | some subpath => exact Or.inr ⟨name, subpath, h.isName, h.isSubpath subpath rfl, rfl⟩
  · rintro (h | ⟨name, subpath, hn, hs, rfl⟩)
    · exact ⟨⟨specifier, none⟩, ⟨h, fun _ he => nomatch he⟩, rfl⟩
    · exact ⟨⟨name, some subpath⟩, ⟨hn, fun _ he => Option.some.inj he ▸ hs⟩, rfl⟩

/-- A specifier is parsed exactly if it is a name, or a name with a subpath behind it. What is parsed
is written as the same text again, and every well-formed package is what its specifier is parsed
into, so no two of them share one. -/
theorem specifiers_exact (specifier : String) :
    ((∃ package, parse specifier = some package) ↔
      IsName specifier ∨
        ∃ name subpath, IsName name ∧ IsSubpath subpath ∧ specifier = name ++ "/" ++ subpath) ∧
    (∀ package, parse specifier = some package ↔
      package.WellFormed ∧ package.specifier = specifier) ∧
    ∀ package other : Package, package.WellFormed → other.WellFormed →
      package.specifier = other.specifier → package = other :=
  ⟨exists_package_iff specifier, fun _ => parse_eq_some_iff, fun _ _ => WellFormed.eq_of_specifier_eq⟩

/-- A scoped name takes the first two pieces, and the rest is its subpath. -/
theorem specifiers_exact_of_scope :
    parse "@radix-ui/react-dialog/dist/index.mjs" =
        some ⟨"@radix-ui/react-dialog", some "dist/index.mjs"⟩ ∧
      (⟨"@radix-ui/react-dialog", some "dist/index.mjs"⟩ : Package).WellFormed ∧
      ∀ other : Package, other.WellFormed →
        other.specifier = "@radix-ui/react-dialog/dist/index.mjs" →
        other.name = "@radix-ui/react-dialog" := by
  have hp : parse "@radix-ui/react-dialog/dist/index.mjs" =
      some ⟨"@radix-ui/react-dialog", some "dist/index.mjs"⟩ := by decide +kernel
  obtain ⟨-, hparse, hunique⟩ := specifiers_exact "@radix-ui/react-dialog/dist/index.mjs"
  have hw := ((hparse _).mp hp).1
  refine ⟨hp, hw, fun other ho he => ?_⟩
  rw [← hunique _ other hw ho (((hparse _).mp hp).2.trans he.symm)]

end LivePreview.Package
