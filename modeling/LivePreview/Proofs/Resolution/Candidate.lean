import Mathlib.Data.List.Find
import LivePreview.Proofs.Config
import LivePreview.Proofs.Resolution

/-!
# Candidates

The paths that an import may stand for. The base and the base with an extension are canonical; the
index file of a directory takes its name as it is configured, so it is canonical only if that name
has no piece that is none. With plain extensions there is nothing to except, and what an import
becomes is found again wherever it is written.
-/
namespace LivePreview

namespace Path

variable {path : Path} {name extension : String}

theorem splitNames_eq_singleton_empty_iff : splitNames name = [""] ↔ name = "" := by
  constructor
  · intro h
    have hjoin := Text.intercalate_pieces '/' name
    rw [← splitNames_eq_pieces, h, String.intercalate_singleton] at hjoin
    exact hjoin.symm
  · rintro rfl
    decide

theorem names_child (path : Path) (h : name ≠ "") :
    (path.child name).names = path.names ++ splitNames name := by
  rw [child, ofNames, if_neg]
  intro he
  rcases List.append_eq_singleton_iff.mp he with ⟨_, hn⟩ | ⟨_, hn⟩
  · exact h (splitNames_eq_singleton_empty_iff.mp hn)
  · exact splitNames_ne_nil name hn

theorem canonical_child_iff (hp : path.Canonical) (h : name ≠ "") :
    (path.child name).Canonical ↔ ∀ piece ∈ splitNames name, IsName piece := by
  rw [Canonical, names_child path h]
  simp only [List.mem_append, or_imp, forall_and]
  exact and_iff_right hp

/-- Behind the last name of a path there is room for more. -/
theorem text_append (front : List String) (last extension : String) :
    (⟨front ++ [last]⟩ : Path).text ++ extension = (⟨front ++ [last ++ extension]⟩ : Path).text := by
  by_cases hf : front = []
  · simp [text, hf, String.append_assoc]
  · have hjoin : ∀ name, (⟨front ++ [name]⟩ : Path).text = (⟨front⟩ : Path).text ++ "/" ++ name :=
      fun name => by
        rw [text_append_names ⟨front⟩ hf (List.cons_ne_nil _ _), String.intercalate_singleton]
    rw [hjoin, hjoin, String.append_assoc]

end Path

namespace Config

variable {config : Config} {store : Store} {importer base path : Path}
  {specifier extension : String}

/-! ### What may stand for a path -/

/-- The path of an index file whose name has a piece that no node can have. -/
def OddIndex (config : Config) (base path : Path) : Prop :=
  ∃ extension ∈ config.extensions, path = base.child (config.indexBasename ++ extension) ∧
    ∃ piece ∈ Path.splitNames (config.indexBasename ++ extension), ¬ Path.IsName piece

theorem index_ne_empty (hi : IsIndexBasename config.indexBasename) (extension : String) :
    config.indexBasename ++ extension ≠ "" := by
  simp [hi.1]

theorem OddIndex.not_canonical (hi : IsIndexBasename config.indexBasename)
    (h : config.OddIndex base path) : ¬ path.Canonical := by
  obtain ⟨extension, _, rfl, piece, hp, hn⟩ := h
  intro hc
  refine hn (hc piece ?_)
  rw [Path.names_child base (index_ne_empty hi extension)]
  exact List.mem_append_right _ hp

theorem canonical_of_mem_candidates (hi : IsIndexBasename config.indexBasename)
    (hb : base.Canonical) (h : path ∈ config.candidates base) :
    path.Canonical ∨ config.OddIndex base path := by
  rcases mem_candidates_iff.mp h with rfl | ⟨_, extension, _, hp⟩ | ⟨extension, he, rfl⟩
  · exact .inl hb
  · exact .inl (Path.canonical_of_parse hp)
  · rw [Path.canonical_child_iff hb (index_ne_empty hi extension)]
    by_cases hodd : ∀ piece ∈ Path.splitNames (config.indexBasename ++ extension), Path.IsName piece
    · exact .inl hodd
    · exact .inr ⟨extension, he, rfl, by simpa using hodd⟩

/-- Only the name of an index file brings empty pieces into a path. -/
theorem segments_of_mem_candidates (hi : IsIndexBasename config.indexBasename)
    (hb : base.segments = base.names) (h : path ∈ config.candidates base) :
    path.segments = path.names ∨ ∃ extension ∈ config.extensions,
      path = base.child (config.indexBasename ++ extension) ∧
        "" ∈ Path.splitNames (config.indexBasename ++ extension) := by
  rcases mem_candidates_iff.mp h with rfl | ⟨_, extension, _, hp⟩ | ⟨extension, he, rfl⟩
  · exact .inl hb
  · exact .inl (Path.segments_of_parse hp)
  · by_cases hempty : "" ∈ Path.splitNames (config.indexBasename ++ extension)
    · exact .inr ⟨extension, he, rfl, hempty⟩
    · refine .inl ?_
      rw [Path.segments_child, hb, Path.names_child base (index_ne_empty hi extension),
        List.append_cancel_left_eq, List.filter_eq_self]
      intro piece hm
      simpa using fun he : piece = "" => hempty (he ▸ hm)

theorem splitNames_index (hi : IsIndexBasename config.indexBasename)
    (hx : '/' ∉ extension.toList) :
    Path.splitNames (config.indexBasename ++ extension) = [config.indexBasename ++ extension] := by
  rw [Path.splitNames_eq_pieces, Text.pieces_of_not_mem]
  rw [String.toList_append, List.mem_append]
  exact not_or.mpr ⟨hi.2, hx⟩

theorem segments_of_plain (hi : IsIndexBasename config.indexBasename)
    (hx : ∀ extension ∈ config.extensions, '/' ∉ extension.toList)
    (hb : base.segments = base.names) (h : path ∈ config.candidates base) :
    path.segments = path.names := by
  rcases segments_of_mem_candidates hi hb h with hs | ⟨extension, he, -, hempty⟩
  · exact hs
  · rw [splitNames_index hi (hx extension he)] at hempty
    exact absurd (List.mem_singleton.mp hempty).symm (index_ne_empty hi extension)

/-! ### What an import becomes -/

/-- With plain extensions an import leads to a file under its own path. -/
theorem canonical_of_resolve? (hw : store.WellFormed) (hi : IsIndexBasename config.indexBasename)
    (hx : ∀ extension ∈ config.extensions, '/' ∉ extension.toList)
    (h : config.resolve? store importer specifier = some (.file path)) : path.Canonical := by
  obtain ⟨base, ht, hfirst⟩ := resolve?_eq_file_iff.mp h
  exact Path.canonical_of_isFile hw (isFile_of_resolve? h)
    (segments_of_plain hi hx (segments_of_target ht) (List.mem_of_find?_eq_some hfirst))

/-- Whatever an import leads to is a file that stores the path which is read from the path found.
The two differ only where the name of an index file has an empty piece. Of the candidates for a
canonical path, only index files are not canonical, and only those whose name has a piece that no
node can have. -/
theorem stored_of_resolve {text : String} (hc : Config.parse text = .ok config)
    (hs : store.Reachable) :
    (∀ importer specifier path, config.resolve store importer specifier = .ok (.file path) →
      ∃ stored content, Path.parse path.text = .ok stored ∧
        store.node? path = some (.file stored content) ∧
        (path ≠ stored ↔ ∃ base, config.target importer specifier = .path (some base) ∧
          config.OddIndex base path)) ∧
    ∀ base : Path, base.Canonical → ∀ path ∈ config.candidates base,
      (¬ path.Canonical ↔ config.OddIndex base path) := by
  have hw := hs.wellFormed
  have hi := (valid_of_parse hc).indexBasename
  refine ⟨fun importer specifier path h => ?_, fun base hb path hm => ?_⟩
  · obtain ⟨base, ht, hfirst⟩ := resolve?_eq_file_iff.mp (resolve_eq_ok_iff.mp h)
    have hf := List.find?_some hfirst
    obtain ⟨hfree, hnames⟩ := hw.free_of_isFile hf
    have hread := Path.parse_text_of_segments hfree hnames
    obtain ⟨content, hnode⟩ := hw.exists_node_of_isFile hf
    refine ⟨⟨path.segments⟩, content, hread, hnode, fun hne => ?_, ?_⟩
    · rcases segments_of_mem_candidates hi (segments_of_target ht)
        (List.mem_of_find?_eq_some hfirst) with hsegments | ⟨extension, he, hchild, hempty⟩
      · exact absurd (Path.ext_names hsegments.symm) hne
      · exact ⟨base, ht, extension, he, hchild, "", hempty, fun hn => hn.ne_empty rfl⟩
    · rintro ⟨base, -, hodd⟩ hsame
      exact hodd.not_canonical hi (hsame ▸ Path.canonical_of_parse hread)
  · constructor
    · exact (canonical_of_mem_candidates hi hb hm).resolve_left
    · exact OddIndex.not_canonical hi

/-- The file is found under a path with a piece too many, so each of its imports meets it there,
while the tree knows it under its own path alone. -/
theorem stored_of_resolve_of_empty_piece :
    let config : Config := { extensions := [".js", ".//x"] }
    let store := (Store.empty.attempt (.createFile "/ui/index./x" "")).attempt
      (.createFile "/a.js" "")
    let path : Path := ⟨["ui", "index.", "", "x"]⟩
    Config.parse "extensions: [.js, .//x]\n" = .ok config ∧ store.Reachable ∧
      config.resolve store ⟨["App.jsx"]⟩ "./ui" = .ok (.file path) ∧
      (∃ stored content, Path.parse path.text = .ok stored ∧
        store.node? path = some (.file stored content) ∧ path ≠ stored) ∧
      config.resolve store ⟨["App.jsx"]⟩ "./a" = .ok (.file ⟨["a.js"]⟩) ∧
      (∃ content, store.node? ⟨["a.js"]⟩ = some (.file ⟨["a.js"]⟩ content)) ∧
      config.OddIndex ⟨["ui"]⟩ path := by
  intro config store path
  have hc : Config.parse "extensions: [.js, .//x]\n" = .ok config := by decide +kernel
  have hs : store.Reachable := .attempted _ (.attempted _ .empty)
  have hindex : config.resolve store ⟨["App.jsx"]⟩ "./ui" = .ok (.file path) := by decide +kernel
  have hfile : config.resolve store ⟨["App.jsx"]⟩ "./a" = .ok (.file ⟨["a.js"]⟩) := by
    decide +kernel
  obtain ⟨hresolve, hcandidates⟩ := stored_of_resolve hc hs
  have hodd : config.OddIndex ⟨["ui"]⟩ path :=
    (hcandidates ⟨["ui"]⟩ (by decide) path (by decide +kernel)).mp (by decide)
  obtain ⟨stored, content, hread, hnode, hne⟩ := hresolve _ _ _ hindex
  obtain ⟨own, text, hown, hleaf, -⟩ := hresolve _ _ _ hfile
  obtain rfl : ⟨["a.js"]⟩ = own := Except.ok.inj (Eq.trans (by decide +kernel) hown)
  exact ⟨hc, hs, hindex, ⟨stored, content, hread, hnode, hne.mpr ⟨_, by decide +kernel, hodd⟩⟩,
    hfile, ⟨text, hleaf⟩, hodd⟩

/-- With an extension that ends in a separator, an import leads to a path with a separator behind
it, which is not canonical and which no node stores. -/
theorem resolves_to_trailing_separator :
    let config : Config := { extensions := ["./"] }
    let store := Store.empty.attempt (.createFile "/index." "")
    let path : Path := ⟨["index.", ""]⟩
    Config.parse "extensions: [\"./\"]\n" = .ok config ∧ store.Reachable ∧
      config.resolve store ⟨["App.jsx"]⟩ "/" = .ok (.file path) ∧ path.text = "/index./" ∧
      ¬ path.Canonical ∧ Path.parse path.text = .ok ⟨["index."]⟩ ∧
      (∀ node ∈ store.root.nodes, node.path ≠ path) ∧
      (Path.root.Canonical ∧ path ∈ config.candidates .root) := by
  intro config store path
  have hs : store.Reachable := .attempted _ .empty
  exact ⟨by decide +kernel, hs, by decide +kernel, by decide, by decide, by decide +kernel,
    by decide +kernel, Path.canonical_root, by decide +kernel⟩

/-! ### What is written for an import -/

/-- A written path is read as such wherever it is imported: it is not taken for the root alias. -/
theorem target_text (ha : IsRootAlias config.rootAlias) (hp : path.Canonical) (importer : Path) :
    config.target importer path.text = .path (some path) := by
  have halias : config.dropRootAlias? path.text = none := by
    rw [dropRootAlias?, if_neg]
    intro hprefix
    obtain ⟨behind, hb⟩ := List.isPrefixOf_iff_prefix.mp hprefix
    have hhead := path.head?_text
    cases hr : config.rootAlias.toList with
    | nil => simp [IsRootAlias, hr] at ha
    | cons c rest =>
      rw [← hb, hr, List.cons_append, List.head?_cons] at hhead
      exact ha.2 (by rw [hr, List.head?_cons, hhead])
  rw [target, halias]
  dsimp only
  rw [if_pos path.head?_text, hp.parse_text]
  rfl

/-- Where a package is imported makes no difference. -/
theorem target_of_package {package : Option Package}
    (h : config.target importer specifier = .package package) (importer' : Path) :
    config.target importer' specifier = .package package := by
  rw [target] at h ⊢
  split at h
  · cases h
  · split at h
    · cases h
    · rename_i hhead
      split at h
      · cases h
      · rename_i hrelative
        rw [if_neg hhead, if_neg hrelative]
        exact h

/-- What an import is replaced by means the same in every other file. -/
theorem resolve_specifier {text : String} (hc : Config.parse text = .ok config)
    (hx : ∀ extension ∈ config.extensions, '/' ∉ extension.toList) (hs : store.Reachable)
    {resolution : Resolution} (h : config.resolve store importer specifier = .ok resolution)
    (importer' : Path) :
    config.resolve store importer' resolution.specifier = .ok resolution := by
  have hv := valid_of_parse hc
  rw [resolve_eq_ok_iff] at h ⊢
  cases resolution with
  | file path =>
    have hp := canonical_of_resolve? hs.wellFormed hv.indexBasename hx h
    have hfirst : config.firstFile? store path = some path := by
      rw [firstFile?, candidates, List.cons_append, List.find?_cons_of_pos (isFile_of_resolve? h)]
    exact resolve?_eq_file_iff.mpr ⟨path, target_text hv.rootAlias hp importer', hfirst⟩
  | package package =>
    have hsame : package.specifier = specifier :=
      Package.specifier_of_parse (parse_of_resolve? h)
    show config.resolve? store importer' package.specifier = some (.package package)
    rw [hsame]
    rw [resolve?] at h ⊢
    cases ht : config.target importer specifier with
    | path base => rw [ht] at h; cases base <;> simp at h
    | package found =>
      rw [target_of_package ht importer']
      rw [ht] at h
      exact h

/-- The file of a directory's index is found from next to the directory and from within it, and a
package everywhere. -/
theorem resolve_specifier_of_index :
    let config : Config := { rootAlias := "~/" }
    let store := Store.empty.attempt (.createFile "/ui/index.tsx" "")
    Config.parse "root_alias: ~/\n" = .ok config ∧
      (∀ extension ∈ config.extensions, '/' ∉ extension.toList) ∧ store.Reachable ∧
      config.resolve store ⟨["App.jsx"]⟩ "./ui" = .ok (.file ⟨["ui", "index.tsx"]⟩) ∧
      config.resolve store ⟨["ui", "Card.jsx"]⟩ "/ui/index.tsx" =
        .ok (.file ⟨["ui", "index.tsx"]⟩) ∧
      config.resolve store ⟨["App.jsx"]⟩ "react-dom/client" =
        .ok (.package ⟨"react-dom", some "client"⟩) ∧
      config.resolve store ⟨["ui", "Card.jsx"]⟩ "react-dom/client" =
        .ok (.package ⟨"react-dom", some "client"⟩) := by
  intro config store
  have hc : Config.parse "root_alias: ~/\n" = .ok config := by decide +kernel
  have hx : ∀ extension ∈ config.extensions, '/' ∉ extension.toList := by decide
  have hs : store.Reachable := .attempted _ .empty
  have hfile : config.resolve store ⟨["App.jsx"]⟩ "./ui" = .ok (.file ⟨["ui", "index.tsx"]⟩) := by
    decide +kernel
  have hpackage : config.resolve store ⟨["App.jsx"]⟩ "react-dom/client" =
      .ok (.package ⟨"react-dom", some "client"⟩) := by decide +kernel
  exact ⟨hc, hx, hs, hfile, resolve_specifier hc hx hs hfile ⟨["ui", "Card.jsx"]⟩, hpackage,
    resolve_specifier hc hx hs hpackage ⟨["ui", "Card.jsx"]⟩⟩

end Config

end LivePreview
