import LivePreview.Proofs.Config
import LivePreview.Proofs.Package
import LivePreview.Proofs.Store.Files
import LivePreview.Resolution

/-!
# Resolved imports

What a specifier becomes tells whether it leads to a file and to which one: a file's path begins
with a separator, and no package's specifier does.
-/
namespace LivePreview

namespace Config

variable {config : Config} {store : Store} {importer base path : Path} {specifier : String}

/-- Where an import begins to look is a path without empty pieces. -/
theorem segments_of_target
    (h : config.target importer specifier = .path (some base)) : base.segments = base.names := by
  rw [target] at h
  split at h
  · exact Path.segments_of_join (toOption_eq_some (ImportTarget.path.inj h))
  · split at h
    · exact Path.segments_of_parse (toOption_eq_some (ImportTarget.path.inj h))
    · split at h
      · exact Path.segments_of_join (toOption_eq_some (ImportTarget.path.inj h))
      · cases h

theorem mem_candidates_iff :
    path ∈ config.candidates base ↔
      path = base ∨
        (base.isRoot = false ∧ ∃ extension ∈ config.extensions,
          Path.parse (base.text ++ extension) = .ok path) ∨
        ∃ extension ∈ config.extensions, path = base.child (config.indexBasename ++ extension) := by
  have hread : ∀ raw : String, (Path.parse raw).toOption = some path ↔ Path.parse raw = .ok path :=
    fun raw => ⟨toOption_eq_some, fun h => by rw [h]; rfl⟩
  rw [candidates, List.cons_append, List.mem_cons, List.mem_append]
  refine or_congr_right (or_congr ?_ ?_)
  · cases hr : base.isRoot with
    | true => simp
    | false => simp [List.mem_filterMap, hread]
  · simp [List.mem_map, eq_comm]

/-- An import leads to the first file among those that its target may stand for. -/
theorem resolve?_eq_file_iff :
    config.resolve? store importer specifier = some (.file path) ↔
      ∃ base, config.target importer specifier = .path (some base) ∧
        config.firstFile? store base = some path := by
  rw [resolve?]
  cases config.target importer specifier with
  | path base => cases base <;> simp
  | package package => simp

theorem resolve_eq_ok_iff {resolution : Resolution} :
    config.resolve store importer specifier = .ok resolution ↔
      config.resolve? store importer specifier = some resolution := by
  rw [resolve]
  cases config.resolve? store importer specifier <;> simp

theorem resolve_of_target (h : config.target importer specifier = .path (some base)) :
    config.resolve store importer specifier =
      match config.firstFile? store base with
      | some path => .ok (.file path)
      | none => .error ⟨specifier, importer⟩ := by
  rw [resolve, resolve?, h]
  dsimp only [Option.bind_some]
  cases config.firstFile? store base <;> rfl

theorem isFile_of_resolve?
    (h : config.resolve? store importer specifier = some (.file path)) :
    store.isFile path = true := by
  obtain ⟨base, _, hfirst⟩ := resolve?_eq_file_iff.mp h
  exact List.find?_some hfirst

theorem parse_of_target_eq {package : Option Package}
    (h : config.target importer specifier = .package package) :
    package = Package.parse specifier := by
  rw [target] at h
  split at h
  · cases h
  · split at h
    · cases h
    · split at h
      · cases h
      · exact (ImportTarget.package.inj h).symm

theorem parse_of_resolve? {package : Package}
    (h : config.resolve? store importer specifier = some (.package package)) :
    Package.parse specifier = some package := by
  rw [resolve?] at h
  split at h
  · obtain ⟨found, _, he⟩ := Option.map_eq_some_iff.mp h
    cases he
  · rename_i parsed ht
    obtain ⟨found, hf, he⟩ := Option.map_eq_some_iff.mp h
    obtain rfl := Resolution.package.inj he
    exact (parse_of_target_eq ht) ▸ hf

theorem head?_ne_of_resolve? {package : Package}
    (h : config.resolve? store importer specifier = some (.package package)) :
    package.specifier.toList.head? ≠ some '/' :=
  Package.head?_specifier_ne (parse_of_resolve? h)

/-- What two specifiers become tells whether they lead to the same file, in whatever trees and from
wherever they are resolved. -/
theorem file_of_specifier_eq {store' : Store} {importer' : Path} {specifier' : String}
    {a b : Resolution} (h : store.WellFormed) (h' : store'.WellFormed)
    (ha : config.resolve? store importer specifier = some a)
    (hb : config.resolve? store' importer' specifier' = some b)
    (he : a.specifier = b.specifier) {path : Path} (hp : a = .file path) : b = .file path := by
  subst hp
  cases b with
  | file path' =>
    have hw := h.written_of_isFile (isFile_of_resolve? ha)
    have hw' := h'.written_of_isFile (isFile_of_resolve? hb)
    rw [hw.text_inj hw' he]
  | package p =>
    have he : path.text = p.specifier := he
    exact absurd (he ▸ path.head?_text) (head?_ne_of_resolve? hb)

end Config

end LivePreview
