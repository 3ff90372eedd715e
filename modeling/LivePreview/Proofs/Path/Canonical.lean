import LivePreview.Path
import LivePreview.Proofs.Text.Pieces

/-!
# Canonical paths

Whatever is read or joined is `Canonical`, and on canonical paths the operations are those of lists
of names: `child` appends one, `startsWith` is the prefix order, `rebase?` exchanges a prefix.
-/
namespace LivePreview.Path

open Text (pieces)

theorem splitNames_eq_pieces (text : String) : splitNames text = pieces '/' text := rfl

theorem splitNames_ne_nil (text : String) : splitNames text ≠ [] := Text.pieces_ne_nil _ _

theorem not_mem_of_mem_splitNames {text name : String} (h : name ∈ splitNames text) :
    '/' ∉ name.toList :=
  Text.not_mem_of_mem_pieces h

@[ext]
theorem ext_names {p q : Path} (h : p.names = q.names) : p = q := by
  cases p; cases q; cases h; rfl

/-! ### Names -/

theorem IsName.ne_empty {name : String} (h : IsName name) : name ≠ "" := h.1

theorem IsName.not_mem {name : String} (h : IsName name) : '/' ∉ name.toList := h.2.2.2

theorem child_of_isName (path : Path) {name : String} (h : IsName name) :
    path.child name = ⟨path.names ++ [name]⟩ := by
  rw [child, splitNames_eq_pieces, Text.pieces_of_not_mem h.not_mem, ofNames, if_neg]
  intro he
  rcases List.append_eq_singleton_iff.mp he with ⟨_, hn⟩ | ⟨_, hn⟩
  · exact h.ne_empty (List.singleton_inj.mp hn)
  · exact List.cons_ne_nil _ _ hn

theorem ne_empty_of_mem_segments {path : Path} {name : String} (h : name ∈ path.segments) :
    name ≠ "" := by
  simpa using (List.mem_filter.mp h).2

theorem segments_of_ne_empty {path : Path} (h : ∀ name ∈ path.names, name ≠ "") :
    path.segments = path.names := by
  rw [segments, List.filter_eq_self]
  intro name hm
  simpa using h name hm

theorem Canonical.segments_eq {path : Path} (h : path.Canonical) : path.segments = path.names :=
  segments_of_ne_empty fun name hm => (h name hm).ne_empty

/-! ### Walking -/

theorem walk_append (start written rest : List String) :
    walk start (written ++ rest) = (walk start written).bind (walk · rest) := by
  induction written generalizing start with
  | nil => rfl
  | cons name written ih =>
    simp only [List.cons_append, walk, ih]
    split
    · rfl
    · split
      · split <;> rfl
      · rfl

/-- A walk that never leads up goes down by the names that it meets. -/
theorem walk_of_not_mem {written : List String} (start : List String) (h : ".." ∉ written) :
    walk start written = some (start ++ written.filter fun name => name ≠ "" ∧ name ≠ ".") := by
  induction written generalizing start with
  | nil => rw [walk, List.filter_nil, List.append_nil]
  | cons name rest ih =>
    have hrest : ".." ∉ rest := fun hm => h (List.mem_cons_of_mem _ hm)
    rw [walk]
    split
    · rename_i hskip
      rw [ih _ hrest, List.filter_cons_of_neg]
      rcases hskip with hempty | hdot
      · simp [hempty]
      · simp [hdot]
    · rename_i hkept
      have hup : name ≠ ".." := fun he => h (he ▸ List.mem_cons_self)
      rw [if_neg hup, ih _ hrest, List.filter_cons_of_pos, List.append_assoc,
        List.singleton_append]
      simpa [not_or] using hkept

/-- A walk along names goes down by each of them. -/
theorem walk_of_isName {written : List String} (start : List String)
    (h : ∀ name ∈ written, IsName name) : walk start written = some (start ++ written) := by
  rw [walk_of_not_mem start fun hm => (h _ hm).2.2.1 rfl, List.filter_eq_self.mpr]
  intro name hm
  simpa using ⟨(h name hm).ne_empty, (h name hm).2.1⟩

/-- Empty names do not move a walk. -/
theorem walk_filter (start written : List String) :
    walk start (written.filter (· ≠ "")) = walk start written := by
  induction written generalizing start with
  | nil => rfl
  | cons name rest ih =>
    by_cases he : name = ""
    · rw [List.filter_cons_of_neg (by simpa using he), ih, walk, if_pos (.inl he)]
    · rw [List.filter_cons_of_pos (by simpa using he)]
      simp only [walk, ih]

/-- What holds of the names where a walk starts, and of those that it goes down by, holds of the
names where it ends. -/
theorem forall_of_walk {p : String → Prop} {start written out : List String}
    (hs : ∀ name ∈ start, p name)
    (hw : ∀ name ∈ written, name ≠ "" → name ≠ "." → name ≠ ".." → p name)
    (h : walk start written = some out) : ∀ name ∈ out, p name := by
  induction written generalizing start with
  | nil => exact Option.some.inj h ▸ hs
  | cons name rest ih =>
    obtain ⟨hname, hrest⟩ := List.forall_mem_cons.mp hw
    rw [walk] at h
    split at h
    · exact ih hs hrest h
    · rename_i hkept
      split at h
      · split at h
        · cases h
        · exact ih (fun other hm => hs other (List.dropLast_subset _ hm)) hrest h
      · rename_i hup
        refine ih (fun other hm => ?_) hrest h
        rcases List.mem_append.mp hm with hm | hm
        · exact hs other hm
        · obtain ⟨hempty, hdot⟩ := not_or.mp hkept
          exact List.mem_singleton.mp hm ▸ hname hempty hdot hup

/-- A walk that starts at names and meets no separator ends at names. -/
theorem isName_of_walk {written start out : List String} (hs : ∀ name ∈ start, IsName name)
    (hw : ∀ name ∈ written, '/' ∉ name.toList) (h : walk start written = some out) :
    ∀ name ∈ out, IsName name :=
  forall_of_walk hs (fun name hm hempty hdot hup => ⟨hempty, hdot, hup, hw name hm⟩) h

/-- A walk leaves no empty piece, wherever it starts. -/
theorem ne_empty_of_walk {start written out : List String} (hs : ∀ name ∈ start, name ≠ "")
    (h : walk start written = some out) : ∀ name ∈ out, name ≠ "" :=
  forall_of_walk hs (fun _ _ hempty _ _ => hempty) h

/-- Leading separators only add empty names. -/
theorem filter_splitNames_dropWhile (cs : List Char) :
    (splitNames (String.ofList (cs.dropWhile (· = '/')))).filter (· ≠ "") =
      (splitNames (String.ofList cs)).filter (· ≠ "") := by
  induction cs with
  | nil => rfl
  | cons c rest ih =>
    by_cases hc : c = '/'
    · subst hc
      have hsplit : splitNames (String.ofList ('/' :: rest)) =
          "" :: splitNames (String.ofList rest) := by
        simp only [splitNames, String.toList_ofList, List.splitOn_cons_eq_if_modifyHead]
        rfl
      rw [List.dropWhile_cons_of_pos (by simp), ih, hsplit, List.filter_cons_of_neg (by simp)]
    · rw [List.dropWhile_cons_of_neg (by simpa using hc)]

/-! ### Reading -/

theorem join_eq_ok_iff {path result : Path} {tail : String} :
    path.join tail = .ok result ↔ walk path.segments (splitNames tail) = some result.names := by
  rw [join]
  cases walk path.segments (splitNames tail) with
  | none => simp
  | some names =>
    rw [Except.ok.injEq, Option.some.injEq]
    exact ⟨congrArg Path.names, fun h => ext_names h⟩

theorem segments_root : root.segments = [] := rfl

/-- Reading walks from the root along all pieces of the written path. -/
theorem parse_eq_ok_iff_walk {raw : String} {result : Path} :
    parse raw = .ok result ↔
      raw.toList.head? = some '/' ∧ walk [] (splitNames raw) = some result.names := by
  rw [parse]
  split
  · rename_i hhead
    rw [join_eq_ok_iff, segments_root, ← walk_filter, filter_splitNames_dropWhile,
      String.ofList_toList, walk_filter]
    exact (and_iff_right hhead).symm
  · rename_i hhead
    simp [hhead]

theorem canonical_of_parse {raw : String} {path : Path} (h : parse raw = .ok path) :
    path.Canonical :=
  isName_of_walk (by simp) (fun _ => not_mem_of_mem_splitNames) (parse_eq_ok_iff_walk.mp h).2

/-! ### The written form -/

/-- The pieces of some written form behind its first separator. -/
structure Written (path : Path) : Prop where
  free : ∀ name ∈ path.names, '/' ∉ name.toList
  ne_empty : path.names ≠ [""]

/-- A path that can be written is known by its written form. -/
theorem Written.text_inj {p q : Path} (hp : p.Written) (hq : q.Written) (h : p.text = q.text) :
    p = q := by
  have he : (String.singleton '/').intercalate p.names =
      (String.singleton '/').intercalate q.names := by
    have hl := congrArg String.toList h
    rw [text, text, String.toList_append, String.toList_append] at hl
    exact String.toList_inj.mp (List.append_cancel_left hl)
  have hempty : pieces '/' ((String.singleton '/').intercalate []) = [""] := by decide
  apply ext_names
  by_cases hpn : p.names = []
  · by_cases hqn : q.names = []
    · rw [hpn, hqn]
    · rw [hpn] at he
      exact absurd ((Text.pieces_intercalate hqn hq.free).symm.trans (he ▸ hempty)) hq.ne_empty
  · by_cases hqn : q.names = []
    · rw [hqn] at he
      exact absurd ((Text.pieces_intercalate hpn hp.free).symm.trans (he.symm ▸ hempty)) hp.ne_empty
    · rw [← Text.pieces_intercalate hpn hp.free, he, Text.pieces_intercalate hqn hq.free]

theorem Canonical.written {path : Path} (h : path.Canonical) : path.Written where
  free name hm := (h name hm).not_mem
  ne_empty he := by
    have hname : IsName "" := h "" (he ▸ List.mem_singleton.mpr rfl)
    exact hname.ne_empty rfl

/-- Every name adds at least its separator to the written form. -/
theorem length_names_le (path : Path) : path.names.length ≤ path.text.length := by
  have hjoin : ∀ names : List String, names.length ≤ ("/".intercalate names).length + 1 := by
    intro names
    induction names with
    | nil => exact Nat.zero_le _
    | cons name rest ih =>
      cases rest with
      | nil => exact Nat.le_add_left _ _
      | cons second rest =>
        rw [String.intercalate_cons_cons, String.length_append, String.length_append,
          List.length_cons, show "/".length = 1 from rfl]
        omega
  rw [text, String.length_append, show "/".length = 1 from rfl, Nat.add_comm]
  exact hjoin path.names

theorem text_root : root.text = "/" := by decide

theorem head?_text (path : Path) : path.text.toList.head? = some '/' := by
  rw [text, String.toList_append, List.head?_append]
  rfl

/-- Behind the names of a path that is not the root, further ones are written with a separator. -/
theorem text_append_names (path : Path) {behind : List String} (hp : path.names ≠ [])
    (hb : behind ≠ []) :
    (⟨path.names ++ behind⟩ : Path).text = path.text ++ "/" ++ "/".intercalate behind := by
  rw [text, text, String.intercalate_append_of_ne_nil hp hb]
  simp only [String.append_assoc]

theorem canonical_root : root.Canonical := fun _ hm => absurd hm List.not_mem_nil

/-- Only the root is written as a separator alone. -/
theorem Canonical.text_eq_iff {path : Path} (h : path.Canonical) :
    path.text = "/" ↔ path = .root := by
  constructor
  · intro he
    exact h.written.text_inj (q := .root) ⟨fun _ hm => (nomatch hm), by decide⟩
      (he.trans text_root.symm)
  · rintro rfl
    exact text_root

theorem Canonical.child {path : Path} (h : path.Canonical) {name : String} (hn : IsName name) :
    (path.child name).Canonical := by
  rw [child_of_isName path hn]
  intro other hm
  rcases List.mem_append.mp hm with hm | hm
  · exact h other hm
  · exact List.mem_singleton.mp hm ▸ hn

/-- The directory of a path has all names but the last; the root's is the root. -/
theorem Canonical.directory_eq {path : Path} (h : path.Canonical) :
    path.directory = ⟨path.names.dropLast⟩ := by
  rw [directory, parent?, h.segments_eq]
  split
  · rename_i hroot
    rw [List.isEmpty_iff.mp hroot]
    rfl
  · rfl

theorem Canonical.directory {path : Path} (h : path.Canonical) : path.directory.Canonical := by
  rw [h.directory_eq]
  exact fun name hm => h name (List.dropLast_subset _ hm)

/-- A child is written with more than its directory. -/
theorem length_text_lt_child (path : Path) {name : String} (hn : IsName name) :
    path.text.length < (path.child name).text.length := by
  have hname : name.length ≠ 0 := by
    rw [ne_eq, String.length_eq_zero_iff]
    exact hn.ne_empty
  rw [child_of_isName path hn]
  by_cases hp : path.names = []
  · simp [text, hp]
    omega
  · rw [text_append_names path hp (by simp), String.intercalate_singleton]
    simp only [String.length_append]
    omega

theorem splitNames_text {path : Path} (hne : path.names ≠ [])
    (hf : ∀ name ∈ path.names, '/' ∉ name.toList) :
    splitNames path.text = "" :: path.names := by
  have htext : path.text = "/".intercalate ("" :: path.names) := by
    obtain ⟨first, rest, hnames⟩ := List.exists_cons_of_ne_nil hne
    rw [text, hnames, String.intercalate_cons_cons, String.empty_append]
  rw [htext]
  exact Text.pieces_intercalate (List.cons_ne_nil _ _) (by simpa using hf)

/-- The segments of a path are those of its written form. -/
theorem filter_splitNames_text {path : Path} (hf : ∀ name ∈ path.names, '/' ∉ name.toList) :
    (splitNames path.text).filter (· ≠ "") = path.segments := by
  by_cases hne : path.names = []
  · obtain rfl : path = root := ext_names hne
    decide
  · rw [splitNames_text hne hf, List.filter_cons_of_neg (by simp), segments]

/-- A path whose segments are names is read from its written form, without its empty names. -/
theorem parse_text_of_segments {path : Path} (hf : ∀ name ∈ path.names, '/' ∉ name.toList)
    (hs : ∀ name ∈ path.segments, IsName name) : parse path.text = .ok ⟨path.segments⟩ := by
  refine parse_eq_ok_iff_walk.mpr ⟨path.head?_text, ?_⟩
  rw [← walk_filter, filter_splitNames_text hf, walk_of_isName [] hs, List.nil_append]

/-- A canonical path is read back from its written form. -/
theorem Canonical.parse_text {path : Path} (h : path.Canonical) :
    parse path.text = .ok path := by
  rw [parse_text_of_segments h.written.free (by rwa [h.segments_eq]), h.segments_eq]

/-! ### Segments -/

theorem segments_ofNames (names : List String) :
    (ofNames names).segments = names.filter (· ≠ "") := by
  rw [ofNames]
  split
  · subst names
    rfl
  · rfl

theorem segments_child (path : Path) (name : String) :
    (path.child name).segments = path.segments ++ (splitNames name).filter (· ≠ "") := by
  rw [child, segments_ofNames, List.filter_append]
  rfl

theorem segments_of_join {path result : Path} {tail : String} (h : path.join tail = .ok result) :
    result.segments = result.names :=
  segments_of_ne_empty
    (ne_empty_of_walk (fun _ => ne_empty_of_mem_segments) (join_eq_ok_iff.mp h))

theorem segments_of_parse {raw : String} {path : Path} (h : parse raw = .ok path) :
    path.segments = path.names := (canonical_of_parse h).segments_eq

/-! ### Prefixes -/

theorem startsWith_iff {path ancestor : Path} :
    path.startsWith ancestor = true ↔ ancestor.names <+: path.names := by
  rw [startsWith, List.isPrefixOf_iff_prefix]

theorem rebase?_eq_some_iff {path source target result : Path} (hp : path.Canonical)
    (hs : source.Canonical) (ht : target.Canonical) :
    path.rebase? source target = some result ↔
      ∃ rest, path.names = source.names ++ rest ∧ result.names = target.names ++ rest := by
  rw [rebase?, ht.segments_eq, hp.segments_eq, hs.segments_eq]
  constructor
  · intro h
    split at h
    · rename_i hstart
      obtain ⟨rest, hrest⟩ := startsWith_iff.mp hstart
      obtain rfl := Option.some.inj h
      exact ⟨rest, hrest.symm, by rw [← hrest, List.drop_left]⟩
    · cases h
  · rintro ⟨rest, hrest, hresult⟩
    rw [if_pos (startsWith_iff.mpr ⟨rest, hrest.symm⟩), hrest, List.drop_left]
    exact congrArg some (ext_names hresult.symm)

end LivePreview.Path
