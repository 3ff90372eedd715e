import Mathlib.Data.List.Infix
import LivePreview.Proofs.Path.Canonical

/-!
# Normal forms of written paths

A written path is read from left to right. What it leads to is said here without the walk: which
`..` find a name to remove, and which names none of them removes. Reading in one step and in two
steps agree.
-/
namespace LivePreview.Path

/-! ### Pieces that stay inside the root -/

/-- Each `..` has a name in front of it that no earlier `..` has removed. -/
def Inside (pieces : List String) : Prop :=
  ∀ i (h : i < pieces.length), pieces[i] = ".." →
    (pieces.take i).count ".." < (pieces.take i).countP (IsName ·)

instance (pieces : List String) : Decidable (Inside pieces) := by unfold Inside; infer_instance

/-- The names that no `..` behind them removes, in their order: each `..` behind such a name has
another one to remove, which stands between the two. -/
def survivors : List String → List String
  | [] => []
  | piece :: rest =>
    if IsName piece ∧ Inside rest then piece :: survivors rest else survivors rest

section Pieces

variable {pieces front rest : List String} {piece : String}

theorem count_up : [".."].count ".." = 1 := by decide

theorem countP_up : [".."].countP (IsName ·) = 0 := by decide

/-- No leading part leads up more often than down. -/
theorem inside_iff :
    Inside pieces ↔ ∀ front, front <+: pieces → front.count ".." ≤ front.countP (IsName ·) := by
  constructor
  · rintro h front ⟨rest, rfl⟩
    induction front using List.reverseRecOn generalizing rest with
    | nil => simp
    | append_singleton front piece ih =>
      have hle := ih (piece :: rest) (by simpa using h)
      rw [List.count_append, List.countP_append]
      by_cases hup : piece = ".."
      · subst hup
        have hlt := h front.length (by simp) (by simp)
        rw [List.append_assoc, List.take_left] at hlt
        rw [count_up, countP_up]
        omega
      · have hcount : [piece].count ".." = 0 := List.count_eq_zero.mpr (by simpa using Ne.symm hup)
        omega
  · intro h i hi hup
    have hle := h (pieces.take (i + 1)) (List.take_prefix _ _)
    rw [List.take_succ_eq_append_getElem hi, hup, List.count_append, List.countP_append, count_up,
      countP_up] at hle
    omega

theorem Inside.of_prefix (h : Inside pieces) (hp : front <+: pieces) : Inside front :=
  inside_iff.mpr fun _ hfront => inside_iff.mp h _ (hfront.trans hp)

theorem inside_nil : Inside [] := fun _ h => absurd h (Nat.not_lt_zero _)

theorem inside_concat_iff :
    Inside (pieces ++ [piece]) ↔
      Inside pieces ∧ (piece = ".." → pieces.count ".." < pieces.countP (IsName ·)) := by
  constructor
  · intro h
    refine ⟨h.of_prefix (List.prefix_append _ _), ?_⟩
    rintro rfl
    simpa using h pieces.length (by simp) (by simp)
  · rintro ⟨h, hup⟩ i hi he
    rcases Nat.lt_or_eq_of_le (Nat.le_of_lt_succ (by simpa using hi)) with hlt | rfl
    · rw [List.getElem_append_left hlt] at he
      rw [List.take_append_of_le_length (Nat.le_of_lt hlt)]
      exact h i hlt he
    · rw [List.take_left]
      exact hup (by simpa using he)

theorem inside_concat_of_ne (h : piece ≠ "..") : Inside (pieces ++ [piece]) ↔ Inside pieces := by
  rw [inside_concat_iff]
  exact and_iff_left fun he => absurd he h

/-! ### Names that survive -/

theorem survivors_suffix (front behind : List String) :
    survivors behind <:+ survivors (front ++ behind) := by
  induction front with
  | nil => exact List.suffix_rfl
  | cons piece front ih =>
    rw [List.cons_append, survivors]
    split
    · exact ih.trans (List.suffix_cons _ _)
    · exact ih

/-- Where the pieces lead down more often than up, a name survives. -/
theorem survivors_ne_nil (h : pieces.count ".." < pieces.countP (IsName ·)) :
    survivors pieces ≠ [] := by
  -- By length, since what is left may begin anywhere behind the first piece.
  induction hn : pieces.length using Nat.strong_induction_on generalizing pieces with
  | _ n ih =>
    have hbehind : ∀ front behind, front ≠ [] → pieces = front ++ behind →
        behind.count ".." < behind.countP (IsName ·) → survivors pieces ≠ [] := by
      rintro front behind hne rfl hlt hnil
      have hlength := List.length_pos_iff.mpr hne
      refine ih behind.length (by simp at hn; omega) hlt rfl ?_
      exact List.suffix_nil.mp (hnil ▸ survivors_suffix front behind)
    cases pieces with
    | nil => simp at h
    | cons piece rest =>
      by_cases hlt : rest.count ".." < rest.countP (IsName ·)
      · exact hbehind [piece] rest (by simp) rfl hlt
      · rw [List.count_cons, List.countP_cons] at h
        by_cases hname : IsName piece
        · by_cases hin : Inside rest
          · rw [survivors, if_pos ⟨hname, hin⟩]
            exact List.cons_ne_nil _ _
          · -- A part that leads up too often leaves a rest that leads down more often.
            obtain ⟨front, ⟨behind, rfl⟩, hup⟩ : ∃ front, front <+: rest ∧
                front.countP (IsName ·) < front.count ".." := by
              simpa [inside_iff] using hin
            simp only [List.count_append, List.countP_append, hname, decide_true, if_true] at h hlt
            refine hbehind (piece :: front) behind (by simp) rfl ?_
            omega
        · simp only [hname, decide_false, Bool.false_eq_true, if_false] at h
          omega

theorem exists_of_survivors_ne_nil (h : survivors pieces ≠ []) :
    ∃ front name rest, pieces = front ++ name :: rest ∧ IsName name ∧ Inside rest := by
  induction pieces with
  | nil => exact absurd rfl h
  | cons piece rest ih =>
    by_cases hkept : IsName piece ∧ Inside rest
    · exact ⟨[], piece, rest, rfl, hkept⟩
    · rw [survivors, if_neg hkept] at h
      obtain ⟨front, name, behind, rfl, hname⟩ := ih h
      exact ⟨piece :: front, name, behind, rfl, hname⟩

theorem survivors_ne_nil_iff (hin : Inside pieces) :
    survivors pieces ≠ [] ↔ pieces.count ".." < pieces.countP (IsName ·) := by
  refine ⟨fun h => ?_, survivors_ne_nil⟩
  obtain ⟨front, name, rest, rfl, hname, hrest⟩ := exists_of_survivors_ne_nil h
  have hfront := inside_iff.mp hin front (List.prefix_append _ _)
  have hbehind := inside_iff.mp hrest rest List.prefix_rfl
  have hup : (name == "..") = false := by simpa using hname.2.2.1
  rw [List.count_append, List.countP_append, List.count_cons, List.countP_cons]
  simp only [hname, hup, decide_true, if_true, Bool.false_eq_true, if_false]
  omega

/-- A piece that does not lead up removes no name. -/
theorem survivors_concat_of_ne (h : piece ≠ "..") :
    survivors (pieces ++ [piece]) = survivors pieces ++ if IsName piece then [piece] else [] := by
  induction pieces with
  | nil => simp [survivors, inside_nil]
  | cons first rest ih =>
    rw [List.cons_append, survivors, survivors, ih]
    simp only [inside_concat_of_ne h]
    split <;> rfl

/-- `..` removes the last of the names that survive. -/
theorem survivors_concat_up : survivors (pieces ++ [".."]) = (survivors pieces).dropLast := by
  induction pieces with
  | nil => decide
  | cons first rest ih =>
    rw [List.cons_append, survivors, survivors, ih]
    simp only [inside_concat_iff, forall_const]
    by_cases hkept : IsName first ∧ Inside rest
    · by_cases hlt : rest.count ".." < rest.countP (IsName ·)
      · rw [if_pos ⟨hkept.1, hkept.2, hlt⟩, if_pos hkept,
          List.dropLast_cons_of_ne_nil (survivors_ne_nil hlt)]
      · have hnil : survivors rest = [] := by
          by_contra hne
          exact hlt ((survivors_ne_nil_iff hkept.2).mp hne)
        rw [if_neg fun h => hlt h.2.2, if_pos hkept, hnil]
        rfl
    · rw [if_neg fun h => hkept ⟨h.1, h.2.1⟩, if_neg hkept]

end Pieces

/-! ### The walk -/

/-- From the root a walk leads to the names that survive, unless a `..` finds none to remove. -/
theorem walk_eq {pieces : List String} (hf : ∀ piece ∈ pieces, '/' ∉ piece.toList) :
    walk [] pieces = if Inside pieces then some (survivors pieces) else none := by
  -- From the back: the last piece is followed last, and only a `..` changes which names survive.
  induction pieces using List.reverseRecOn with
  | nil => rw [if_pos inside_nil]; rfl
  | append_singleton pieces piece ih =>
    rw [walk_append, ih fun other hm => hf other (List.mem_append_left _ hm)]
    by_cases hin : Inside pieces
    · rw [if_pos hin, Option.bind_some]
      by_cases hup : piece = ".."
      · subst hup
        simp only [inside_concat_iff, hin, ← survivors_ne_nil_iff hin, survivors_concat_up]
        rw [walk, if_neg (by decide), if_pos rfl]
        by_cases hnil : survivors pieces = []
        · simp [hnil]
        · simp [hnil, walk]
      · have hname : IsName piece ↔ ¬ (piece = "" ∨ piece = ".") := by
          have hfree := hf piece (List.mem_append_right _ (List.mem_singleton.mpr rfl))
          simp [IsName, hup, hfree]
        simp only [inside_concat_of_ne hup, hin, if_true, survivors_concat_of_ne hup]
        rw [walk, if_neg hup]
        by_cases hskip : piece = "" ∨ piece = "."
        · rw [if_pos hskip, if_neg fun h => hname.mp h hskip, List.append_nil, walk]
        · rw [if_neg hskip, if_pos (hname.mpr hskip), walk]
    · rw [if_neg hin, if_neg fun h => hin (inside_concat_iff.mp h).1]
      rfl

/-! ### Reading -/

variable {path result : Path} {raw : String}

theorem parse_eq_ok_iff_inside :
    parse raw = .ok result ↔
      raw.toList.head? = some '/' ∧ Inside (splitNames raw) ∧
        result.names = survivors (splitNames raw) := by
  rw [parse_eq_ok_iff_walk, walk_eq fun _ => not_mem_of_mem_splitNames]
  by_cases hin : Inside (splitNames raw)
  · simp [hin, eq_comm]
  · simp [hin]

/-! ### Normal forms -/

/-- A written path with nothing to leave out: the separator alone, or one in front of each of some
names. -/
def IsNormal (text : String) : Prop :=
  text = "/" ∨ ∃ names, names ≠ [] ∧ (∀ name ∈ names, IsName name) ∧ splitNames text = "" :: names

theorem Canonical.isNormal_text (h : path.Canonical) : IsNormal path.text := by
  by_cases hne : path.names = []
  · exact .inl (h.text_eq_iff.mpr (ext_names hne))
  · exact .inr ⟨path.names, hne, h, splitNames_text hne h.written.free⟩

/-- A path is read exactly if its written form begins with a separator and no `..` in it leads out
of the root. What is read is the normal form of what is written: its segments are the names that
survive, and it is read as itself. -/
theorem parse_normalizes (raw : String) :
    ((∃ path, parse raw = .ok path) ↔
      raw.toList.head? = some '/' ∧ Inside (splitNames raw)) ∧
      ∀ path, parse raw = .ok path →
        path.Canonical ∧ IsNormal path.text ∧ path.segments = survivors (splitNames raw) ∧
          path.segments = (splitNames path.text).filter (· ≠ "") ∧
          parse path.text = .ok path := by
  constructor
  · simp only [parse_eq_ok_iff_inside]
    constructor
    · rintro ⟨_, hhead, hin, -⟩
      exact ⟨hhead, hin⟩
    · rintro ⟨hhead, hin⟩
      exact ⟨⟨survivors (splitNames raw)⟩, hhead, hin, rfl⟩
  · intro path h
    have hc := canonical_of_parse h
    obtain ⟨-, -, hnames⟩ := parse_eq_ok_iff_inside.mp h
    exact ⟨hc, hc.isNormal_text, hc.segments_eq.trans hnames,
      (filter_splitNames_text hc.written.free).symm, hc.parse_text⟩

/-- Names that a later `..` removes, one of them from two pieces further on, and pieces that are
none. -/
theorem parse_normalizes_of_detours :
    let raw := "//lib/old/../..//src/./ui/../App.jsx/"
    let path : Path := ⟨["src", "App.jsx"]⟩
    (raw.toList.head? = some '/' ∧ Inside (splitNames raw)) ∧ parse raw = .ok path ∧
      path.Canonical ∧ IsNormal path.text ∧ path.segments = survivors (splitNames raw) ∧
      path.segments = (splitNames path.text).filter (· ≠ "") ∧ parse path.text = .ok path := by
  intro raw path
  have h : parse raw = .ok path := by decide +kernel
  exact ⟨(parse_normalizes raw).1.mp ⟨path, h⟩, h, (parse_normalizes raw).2 path h⟩

/-! ### Joining -/

theorem splitNames_append_separator (front behind : String) :
    splitNames (front ++ "/" ++ behind) = splitNames front ++ splitNames behind := by
  symm
  refine Text.eq_pieces_iff.mpr ⟨?_, ?_, ?_⟩
  · exact List.append_ne_nil_of_left_ne_nil (splitNames_ne_nil front) _
  · intro piece hm
    exact (List.mem_append.mp hm).elim not_mem_of_mem_splitNames not_mem_of_mem_splitNames
  · rw [String.intercalate_append_of_ne_nil (splitNames_ne_nil front) (splitNames_ne_nil behind),
      splitNames_eq_pieces, splitNames_eq_pieces, Text.intercalate_pieces, Text.intercalate_pieces]
    rfl

/-- A walk along two tails stops in between at the path from which the second is followed. -/
theorem walk_append_separator_iff {start : List String} (hs : ∀ name ∈ start, name ≠ "")
    (front behind : String) :
    walk start (splitNames (front ++ "/" ++ behind)) = some result.names ↔
      ∃ middle : Path, walk start (splitNames front) = some middle.names ∧
        middle.join behind = .ok result := by
  have hsegments : ∀ middle : Path, walk start (splitNames front) = some middle.names →
      middle.segments = middle.names :=
    fun _ hfront => segments_of_ne_empty (ne_empty_of_walk hs hfront)
  rw [splitNames_append_separator, walk_append, Option.bind_eq_some_iff]
  constructor
  · rintro ⟨names, hfront, hbehind⟩
    refine ⟨⟨names⟩, hfront, join_eq_ok_iff.mpr ?_⟩
    rwa [hsegments ⟨names⟩ hfront]
  · rintro ⟨middle, hfront, hbehind⟩
    refine ⟨middle.names, hfront, ?_⟩
    rw [← hsegments middle hfront]
    exact join_eq_ok_iff.mp hbehind

/-- Following two tails one after the other follows the one that they make together. -/
theorem join_append_iff (path : Path) (front behind : String) :
    path.join (front ++ "/" ++ behind) = .ok result ↔
      ∃ middle, path.join front = .ok middle ∧ middle.join behind = .ok result := by
  rw [join_eq_ok_iff, walk_append_separator_iff fun _ => ne_empty_of_mem_segments]
  exact exists_congr fun middle => and_congr_left' join_eq_ok_iff.symm

/-- What is written behind a written path is followed from the path that is read. -/
theorem parse_append_iff (hhead : raw.toList.head? = some '/') (tail : String) :
    parse (raw ++ "/" ++ tail) = .ok result ↔
      ∃ path, parse raw = .ok path ∧ path.join tail = .ok result := by
  have hwhole : (raw ++ "/" ++ tail).toList.head? = some '/' := by
    simp [List.head?_append, hhead]
  rw [parse_eq_ok_iff_walk, and_iff_right hwhole, walk_append_separator_iff (by simp)]
  refine exists_congr fun path => and_congr_left' ?_
  rw [parse_eq_ok_iff_walk, and_iff_right hhead]

/-- A tail can be followed in parts, and from a canonical path it leads where it leads when it is
read behind the path's written form. -/
theorem join_composes {path : Path} (hp : path.Canonical) (front behind : String) (result : Path) :
    (path.join (front ++ "/" ++ behind) = .ok result ↔
      ∃ middle, path.join front = .ok middle ∧ middle.join behind = .ok result) ∧
    (parse (path.text ++ "/" ++ behind) = .ok result ↔ path.join behind = .ok result) := by
  refine ⟨join_append_iff path front behind, ?_⟩
  rw [parse_append_iff path.head?_text, hp.parse_text]
  constructor
  · rintro ⟨_, hread, hjoin⟩
    exact Except.ok.inj hread ▸ hjoin
  · exact fun hjoin => ⟨path, rfl, hjoin⟩

/-- The second tail leaves a directory that the first one entered, and one that was there before. -/
theorem join_composes_of_return :
    let path : Path := ⟨["components", "forms"]⟩
    let front := "./fields/../inputs"
    let behind := "../../Button.jsx"
    let result : Path := ⟨["components", "Button.jsx"]⟩
    path.Canonical ∧
      (path.join (front ++ "/" ++ behind) = .ok result ∧
        ∃ middle, path.join front = .ok middle ∧ middle.join behind = .ok result) ∧
      path.join behind = .ok ⟨["Button.jsx"]⟩ ∧
      parse (path.text ++ "/" ++ behind) = .ok ⟨["Button.jsx"]⟩ := by
  intro path front behind result
  have hp : path.Canonical := by decide
  have hwhole : path.join (front ++ "/" ++ behind) = .ok result := by decide +kernel
  have hjoin : path.join behind = .ok ⟨["Button.jsx"]⟩ := by decide +kernel
  exact ⟨hp, ⟨hwhole, (join_composes hp front behind result).1.mp hwhole⟩, hjoin,
    (join_composes hp front behind _).2.mpr hjoin⟩

end LivePreview.Path
