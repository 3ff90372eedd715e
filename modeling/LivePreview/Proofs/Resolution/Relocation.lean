import Mathlib.Data.List.Basic
import LivePreview.Proofs.Path.Rebase
import LivePreview.Proofs.Resolution.Candidate

/-!
# Imports in a directory that moves

The candidates for a path in a directory are those for its place within the directory, carried into
it. So wherever a directory moves, the imports from within it that do not lead out of it go along.
-/
namespace LivePreview

/-- With an extension behind it even a dot is a name. -/
theorem Config.IsExtension.isName_append {name extension : String} (h : IsExtension extension)
    (hx : '/' ∉ extension.toList) (hn : name ≠ "") (hf : '/' ∉ name.toList) :
    Path.IsName (name ++ extension) := by
  have hname : name.length ≠ 0 := fun he => hn (String.length_eq_zero_iff.mp he)
  have hlong : ∀ short : String, short.length ≤ 2 → name ++ extension ≠ short := by
    intro short hshort he
    have hext := h.2
    rw [← he, String.length_append] at hshort
    omega
  refine ⟨hlong "" (by decide), hlong "." (by decide), hlong ".." (by decide), ?_⟩
  rw [String.toList_append, List.mem_append]
  exact not_or.mpr ⟨hf, hx⟩

namespace Config

variable {config : Config} {store store' : Store} {importer path : Path} {tail : String}

/-! ### Candidates within a directory -/

section Within

variable (hv : config.Valid) (hx : ∀ extension ∈ config.extensions, '/' ∉ extension.toList)

include hv hx

theorem isName_index {extension : String} (he : extension ∈ config.extensions) :
    Path.IsName (config.indexBasename ++ extension) :=
  (hv.isExtension extension he).isName_append (hx extension he) hv.indexBasename.1
    hv.indexBasename.2

/-- With plain extensions all candidates are canonical. -/
theorem canonical_of_plain {base : Path} (hb : base.Canonical)
    (h : path ∈ config.candidates base) : path.Canonical := by
  refine (canonical_of_mem_candidates hv.indexBasename hb h).resolve_right ?_
  rintro ⟨extension, he, -, piece, hm, hodd⟩
  rw [splitNames_index hv.indexBasename (hx extension he), List.mem_singleton] at hm
  exact hodd (hm ▸ isName_index hv hx he)

/-- The candidates for a path that is not the root are made by its last name alone. -/
theorem candidates_of_concat {front : List String} {last : String}
    (hc : (⟨front ++ [last]⟩ : Path).Canonical) :
    config.candidates ⟨front ++ [last]⟩ =
      ⟨front ++ [last]⟩ :: config.extensions.map (fun extension => ⟨front ++ [last ++ extension]⟩) ++
        config.extensions.map fun extension =>
          ⟨front ++ [last] ++ [config.indexBasename ++ extension]⟩ := by
  have hlast := hc last (by simp)
  have hread : ∀ extension ∈ config.extensions,
      (Path.parse ((⟨front ++ [last]⟩ : Path).text ++ extension)).toOption =
        some ⟨front ++ [last ++ extension]⟩ := by
    intro extension hm
    have hname := (hv.isExtension extension hm).isName_append (hx extension hm) hlast.ne_empty
      hlast.not_mem
    have hcanonical : (⟨front ++ [last ++ extension]⟩ : Path).Canonical := by
      intro other ho
      rcases List.mem_append.mp ho with ho | ho
      · exact hc other (List.mem_append_left _ ho)
      · exact List.mem_singleton.mp ho ▸ hname
    rw [Path.text_append, hcanonical.parse_text]
    rfl
  have hindex : ∀ extension ∈ config.extensions,
      (⟨front ++ [last]⟩ : Path).child (config.indexBasename ++ extension) =
        ⟨front ++ [last] ++ [config.indexBasename ++ extension]⟩ := fun extension hm =>
    Path.child_of_isName _ (isName_index hv hx hm)
  have hroot : (⟨front ++ [last]⟩ : Path).isRoot = false := by simp [Path.isRoot]
  rw [candidates, if_neg (by simp [hroot]), List.map_congr_left hindex,
    List.filterMap_eq_map_iff_forall_eq_some.mpr hread]

/-- A directory's own candidates with an extension stand beside it, those for what it holds within
it. -/
theorem candidates_within {directory : Path} (hd : directory.Canonical) (hp : path.Canonical)
    (hne : path.names ≠ []) :
    config.candidates (directory.within path) =
      (config.candidates path).map directory.within := by
  obtain ⟨names⟩ := path
  obtain ⟨front, last, rfl⟩ := List.eq_nil_or_concat names |>.resolve_left hne
  rw [List.concat_eq_append] at hp ⊢
  have hc := Path.canonical_within hd hp
  simp only [Path.within, ← List.append_assoc] at hc ⊢
  rw [candidates_of_concat hv hx hc, candidates_of_concat hv hx hp]
  simp [Path.within, Function.comp_def]

/-- When what lies within a directory is found within another, a path within the one stands for a
file exactly when it does within the other, and for the same one. -/
theorem exists_firstFile?_within {source target : Path} (hs : source.Canonical)
    (ht : target.Canonical) (hp : path.Canonical) (hne : path.names ≠ [])
    (h : ∀ inner : Path, inner.Canonical →
      store'.isFile (target.within inner) = store.isFile (source.within inner)) :
    ∃ first : Option Path, (∀ inner ∈ first, inner.Canonical) ∧
      config.firstFile? store (source.within path) = first.map source.within ∧
      config.firstFile? store' (target.within path) = first.map target.within := by
  have hsame : (config.candidates path).find? (store'.isFile ∘ target.within) =
      (config.candidates path).find? (store.isFile ∘ source.within) :=
    List.find?_congr fun inner hm => h inner (canonical_of_plain hv hx hp hm)
  refine ⟨(config.candidates path).find? (store.isFile ∘ source.within), fun inner hm => ?_, ?_, ?_⟩
  · exact canonical_of_plain hv hx hp (List.mem_of_find?_eq_some hm)
  · rw [firstFile?, candidates_within hv hx hs hp hne, List.find?_map]
  · rw [firstFile?, candidates_within hv hx ht hp hne, List.find?_map, hsame]

end Within

/-! ### Specifiers that go down -/

/-- The names that a tail goes down by. -/
def descent (tail : String) : List String :=
  (Path.splitNames tail).filter fun name => name ≠ "" ∧ name ≠ "."

theorem isName_of_mem_descent (hup : ".." ∉ Path.splitNames tail) :
    ∀ name ∈ descent tail, Path.IsName name := by
  intro name hm
  obtain ⟨hmem, hkept⟩ := List.mem_filter.mp hm
  obtain ⟨hempty, hdot⟩ := of_decide_eq_true hkept
  exact ⟨hempty, hdot, fun he => hup (he ▸ hmem), Path.not_mem_of_mem_splitNames hmem⟩

theorem splitNames_dot (tail : String) :
    Path.splitNames ("./" ++ tail) = "." :: Path.splitNames tail := by
  simp only [Path.splitNames, String.toList_append]
  show (('.' :: '/' :: tail.toList).splitOn '/').map String.ofList = _
  rw [List.splitOn_cons_eq_if_modifyHead, List.splitOn_cons_eq_if_modifyHead]
  rfl

theorem dropRootAlias?_dot (tail : String) :
    Config.dropRootAlias? {} ("./" ++ tail) = none := by
  rw [dropRootAlias?, String.toList_append]
  rfl

/-- A specifier that goes down from the importer's directory. -/
theorem target_of_dot (ha : config.dropRootAlias? ("./" ++ tail) = none) (hi : importer.Canonical)
    (hup : ".." ∉ Path.splitNames tail) :
    config.target importer ("./" ++ tail) =
      .path (some (importer.directory.within ⟨descent tail⟩)) := by
  have hchars : ("./" ++ tail).toList = '.' :: '/' :: tail.toList := by
    rw [String.toList_append]
    rfl
  have hrelative : isRelative ("./" ++ tail) = true := by
    rw [isRelative, hchars]
    simp [List.isPrefixOf]
  have hjoin : importer.directory.join ("./" ++ tail) =
      .ok (importer.directory.within ⟨descent tail⟩) := by
    rw [Path.join, splitNames_dot, Path.walk, if_pos (.inr rfl), Path.walk_of_not_mem _ hup,
      hi.directory.segments_eq]
    rfl
  rw [target, ha]
  dsimp only
  rw [if_neg (by simp [hchars]), if_pos hrelative, hjoin]
  rfl

/-- It goes down from where the importer's directory lies within another. -/
theorem target_of_dot_within {directory : Path} (hd : directory.Canonical) (hp : path.Canonical)
    (hne : path.names ≠ []) (hup : ".." ∉ Path.splitNames tail) :
    Config.target {} (directory.within path) ("./" ++ tail) =
      .path (some (directory.within (path.directory.within ⟨descent tail⟩))) := by
  rw [target_of_dot (dropRootAlias?_dot tail) (Path.canonical_within hd hp) hup,
    Path.directory_within hd hp hne, Path.within_within]

/-! ### Moving a directory -/

theorem isFile_within {source target : CanonicalPath} {rawSource rawTarget : String}
    (hw : store.WellFormed) (hsource : Path.parse rawSource = .ok source.path)
    (htarget : Path.parse rawTarget = .ok target.path)
    (hr : store.rename rawSource rawTarget = .ok () store') (hp : path.Canonical) :
    store'.isFile (target.path.within path) = store.isFile (source.path.within path) := by
  let before : CanonicalPath := ⟨_, Path.canonical_within source.canonical hp⟩
  let after : CanonicalPath := ⟨_, Path.canonical_within target.canonical hp⟩
  have hmoved : before.path.rebase? source.path target.path = some after.path :=
    Path.rebase?_within source.canonical target.canonical hp
  exact hw.isFile_rename hr hsource htarget hmoved

/-- When a directory moves, what is imported from within it under a specifier that goes down from
the importer moves along, and nothing is found there that was not before. -/
theorem resolve_relocated (hs : store.Reachable) {source target importer : CanonicalPath}
    {rawSource rawTarget : String} (hsource : Path.parse rawSource = .ok source.path)
    (htarget : Path.parse rawTarget = .ok target.path)
    (hr : store.rename rawSource rawTarget = .ok () store') (hb : importer.Below source)
    (hne : importer ≠ source) (tail : String) (hup : ".." ∉ Path.splitNames tail)
    (hdown : ∃ name ∈ Path.splitNames tail, name ≠ "" ∧ name ≠ ".") :
    ∃ importer', importer.path.rebase? source.path target.path = some importer' ∧
      (∀ path, resolve {} store importer.path ("./" ++ tail) = .ok (.file path) ↔
        path.Canonical ∧ ∃ path', path.rebase? source.path target.path = some path' ∧
          resolve {} store' importer' ("./" ++ tail) = .ok (.file path')) ∧
      (resolve {} store importer.path ("./" ++ tail) = .error ⟨"./" ++ tail, importer.path⟩ ↔
        resolve {} store' importer' ("./" ++ tail) = .error ⟨"./" ++ tail, importer'⟩) := by
  obtain ⟨name, rest, hnames⟩ := hb.names_eq hne
  have hc : (⟨name :: rest⟩ : Path).Canonical := fun other hm =>
    importer.canonical other (hnames ▸ List.mem_append_right _ hm)
  have hplace : importer.path = source.path.within ⟨name :: rest⟩ := Path.ext_names hnames
  let inner : Path := (⟨name :: rest⟩ : Path).directory.within ⟨descent tail⟩
  have hinner : inner.Canonical :=
    Path.canonical_within hc.directory (isName_of_mem_descent hup)
  -- an importer right in the directory needs a name from the tail to stay within it
  have hdescends : inner.names ≠ [] := by
    obtain ⟨step, hm, hkept⟩ := hdown
    exact List.ne_nil_of_mem
      (List.mem_append_right _ (List.mem_filter.mpr ⟨hm, decide_eq_true hkept⟩))
  have htargets : ∀ directory : Path, directory.Canonical →
      Config.target {} (directory.within ⟨name :: rest⟩) ("./" ++ tail) =
        .path (some (directory.within inner)) := fun directory hd =>
    target_of_dot_within hd hc (List.cons_ne_nil name rest) hup
  obtain ⟨first, hfirst, hbefore, hafter⟩ := exists_firstFile?_within valid_default (by decide)
    source.canonical target.canonical hinner hdescends fun _ =>
      isFile_within hs.wellFormed hsource htarget hr
  refine ⟨target.path.within ⟨name :: rest⟩, ?_, ?_⟩
  · rw [hplace, Path.rebase?_within source.canonical target.canonical hc]
  · rw [hplace, resolve_of_target (htargets _ source.canonical),
      resolve_of_target (htargets _ target.canonical), hbefore, hafter]
    cases first with
    | none => simp
    | some found =>
      refine ⟨fun path => ?_, by simp⟩
      simp only [Option.map_some, Except.ok.injEq, Resolution.file.injEq]
      constructor
      · rintro rfl
        exact ⟨Path.canonical_within source.canonical (hfirst found rfl), _,
          Path.rebase?_within source.canonical target.canonical (hfirst found rfl), rfl⟩
      · -- only from the file found before does the move lead to the one found after
        rintro ⟨hp, path', hrebase, hsame⟩
        obtain ⟨other, rfl, rfl⟩ :=
          Path.exists_within_of_rebase? source.canonical target.canonical hp hrebase
        rw [Path.within_injective _ hsame]

/-- Two levels further down the index of the directory beside the importer is found in its new
place, and what was missing is missing there too. -/
theorem resolve_relocated_of_index :
    let store := (Store.empty.attempt (.createFile "/a/App.js" "")).attempt
      (.createFile "/a/b/index.js" "")
    let moved := store.attempt (.rename "/a" "/c/d")
    let app : Path := ⟨["a", "App.js"]⟩
    let app' : Path := ⟨["c", "d", "App.js"]⟩
    store.Reachable ∧ store.rename "/a" "/c/d" = .ok () moved ∧
      Config.resolve {} store app "./b" = .ok (.file ⟨["a", "b", "index.js"]⟩) ∧
      Config.resolve {} moved app' "./b" = .ok (.file ⟨["c", "d", "b", "index.js"]⟩) ∧
      Config.resolve {} store app "././c" = .error ⟨"././c", app⟩ ∧
      Config.resolve {} moved app' "././c" = .error ⟨"././c", app'⟩ := by
  intro store moved app app'
  have hs : store.Reachable := .attempted _ (.attempted _ .empty)
  have hr : store.rename "/a" "/c/d" = .ok () moved := rfl
  let source : CanonicalPath := ⟨⟨["a"]⟩, by decide⟩
  let target : CanonicalPath := ⟨⟨["c", "d"]⟩, by decide⟩
  let importer : CanonicalPath := ⟨app, by decide⟩
  have hsource : Path.parse "/a" = .ok source.path := by decide +kernel
  have htarget : Path.parse "/c/d" = .ok target.path := by decide +kernel
  have hb : importer.Below source := by decide
  have hne : importer ≠ source := by decide
  have hplace : app.rebase? source.path target.path = some app' := by decide
  have hindex : Config.resolve {} store app "./b" = .ok (.file ⟨["a", "b", "index.js"]⟩) := by
    decide +kernel
  have hmissing : Config.resolve {} store app "././c" = .error ⟨"././c", app⟩ := by
    decide +kernel
  obtain ⟨place, hmoved, hfound, -⟩ :=
    resolve_relocated hs hsource htarget hr hb hne "b" (by decide) (by decide)
  obtain rfl : place = app' := Option.some.inj (hmoved.symm.trans hplace)
  obtain ⟨-, path', hpath, hresolve⟩ := (hfound _).mp hindex
  obtain rfl : path' = ⟨["c", "d", "b", "index.js"]⟩ :=
    Option.some.inj (hpath.symm.trans (by decide))
  obtain ⟨other, hother, -, hlost⟩ :=
    resolve_relocated hs hsource htarget hr hb hne "./c" (by decide) (by decide)
  obtain rfl : other = app' := Option.some.inj (hother.symm.trans hplace)
  exact ⟨hs, hr, hindex, hresolve, hmissing, hlost.mp hmissing⟩

end Config

end LivePreview
