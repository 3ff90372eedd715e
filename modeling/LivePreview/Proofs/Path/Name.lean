import Mathlib.Data.List.TakeDrop
import LivePreview.Proofs.Path.Canonical

/-!
# The name of a path

What a written path ends with ends the name of the path that is read from it too, unless it has a
separator in it or stops at a dot.
-/
namespace LivePreview.Path

/-- Something that the last name of a written path can end with, so that the name is neither `.` nor
`..` nor empty. -/
structure Ending (ending : List Char) : Prop where
  free : '/' ∉ ending
  last : ∃ c, ending.getLast? = some c ∧ c ≠ '.'

variable {path result : Path} {ending : List Char}

namespace Ending

theorem isName_of_suffix (he : Ending ending) {name : String} (h : ending <:+ name.toList)
    (hf : '/' ∉ name.toList) : IsName name := by
  obtain ⟨c, hlast, hc⟩ := he.last
  obtain ⟨front, hname⟩ := h
  have hend : name.toList.getLast? = some c := by
    rw [← hname, List.getLast?_append, hlast, Option.some_or]
  refine ⟨?_, ?_, ?_, hf⟩
  · rintro rfl
    cases hend
  · rintro rfl
    exact hc (Option.some.inj hend).symm
  · rintro rfl
    exact hc (Option.some.inj hend).symm

end Ending

/-- The last piece of a text ends like the text. -/
theorem exists_splitOn {cs : List Char} (h : ending <:+ cs) (hf : '/' ∉ ending) :
    ∃ written last, cs.splitOn '/' = written ++ [last] ∧ ending <:+ last := by
  obtain ⟨front, rfl⟩ := h
  induction front with
  | nil => exact ⟨[], ending, List.splitOn_eq_singleton hf, List.suffix_rfl⟩
  | cons c front ih =>
    obtain ⟨written, last, hsplit, hlast⟩ := ih
    rw [List.cons_append, List.splitOn_cons_eq_if_modifyHead, hsplit]
    split
    · exact ⟨[] :: written, last, rfl, hlast⟩
    · cases written with
      | nil => exact ⟨[], c :: last, rfl, hlast.trans (List.suffix_cons c last)⟩
      | cons first written => exact ⟨(c :: first) :: written, last, rfl, hlast⟩

theorem name_append_singleton (names : List String) {name : String} (h : name ≠ "") :
    (⟨names ++ [name]⟩ : Path).name = name := by
  rw [Path.name, segments, List.filter_append, List.filter_cons_of_pos (by simpa using h)]
  simp

/-- A walk stops at the last name that it follows. -/
theorem suffix_name_of_walk (he : Ending ending) {start : List String} {text : String}
    (hs : ending <:+ text.toList) (h : walk start (splitNames text) = some result.names) :
    ending <:+ result.name.toList := by
  obtain ⟨written, last, hsplit, hlast⟩ := exists_splitOn hs he.free
  have hnames : splitNames text = written.map String.ofList ++ [String.ofList last] := by
    rw [splitNames, hsplit, List.map_append]
    rfl
  have hsuffix : ending <:+ (String.ofList last).toList := by rwa [String.toList_ofList]
  have hname : IsName (String.ofList last) :=
    he.isName_of_suffix hsuffix (@not_mem_of_mem_splitNames text _ (by simp [hnames]))
  rw [hnames, walk_append, Option.bind_eq_some_iff] at h
  obtain ⟨reached, -, hreached⟩ := h
  rw [walk_of_isName reached (by simpa using hname)] at hreached
  obtain rfl : result = ⟨reached ++ [String.ofList last]⟩ :=
    ext_names (Option.some.inj hreached).symm
  rwa [name_append_singleton reached hname.ne_empty]

theorem suffix_name_of_join (he : Ending ending) {tail : String} (hs : ending <:+ tail.toList)
    (h : path.join tail = .ok result) : ending <:+ result.name.toList :=
  suffix_name_of_walk he hs (join_eq_ok_iff.mp h)

theorem suffix_name_of_parse (he : Ending ending) {raw : String} (hs : ending <:+ raw.toList)
    (h : parse raw = .ok result) : ending <:+ result.name.toList :=
  suffix_name_of_walk he hs (parse_eq_ok_iff_walk.mp h).2

theorem suffix_name_of_child {name : String} (hn : IsName name) (hs : ending <:+ name.toList) :
    ending <:+ (path.child name).name.toList := by
  rwa [child_of_isName path hn, name_append_singleton path.names hn.ne_empty]

/-- The name ends with the extension. -/
theorem suffix_of_extension? {extension : String} (h : path.extension? = some extension) :
    extension.toList <:+ path.name.toList := by
  rw [extension?, List.span_eq_takeWhile_dropWhile] at h
  -- The name is read from its end: the extension reversed, the dot, and what is before it.
  have hname := List.takeWhile_append_dropWhile (p := fun c => decide (c ≠ '.'))
    (l := path.name.toList.reverse)
  have hhead := List.head?_dropWhile_not (fun c => decide (c ≠ '.')) path.name.toList.reverse
  generalize List.takeWhile (fun c => decide (c ≠ '.')) path.name.toList.reverse = behind
    at h hname
  generalize List.dropWhile (fun c => decide (c ≠ '.')) path.name.toList.reverse = rest
    at h hname hhead
  dsimp only at h
  split at h
  · rename_i dot other rest
    obtain rfl := Option.some.inj h
    obtain rfl : dot = '.' := by simpa using hhead
    rw [String.toList_ofList, List.reverse_eq_iff.mp hname.symm]
    exact ⟨(other :: rest).reverse, by simp⟩
  · cases h

end LivePreview.Path
