import LivePreview.Config
import LivePreview.Proofs.Path.Canonical
import LivePreview.Proofs.Store.Step

/-!
# Valid configurations

Each field is checked before it is set, and the defaults pass every check. So `Config.Valid` holds
of every configuration that is read from a document.
-/
namespace LivePreview

theorem mapError_eq_ok_iff {ε ε' α : Type} {result : Except ε α} {f : ε → ε'} {a : α} :
    result.mapError f = .ok a ↔ result = .ok a := by
  cases result with
  | error e => exact ⟨fun h => (nomatch h), fun h => (nomatch h)⟩
  | ok b => exact ⟨fun h => congrArg _ (Except.ok.inj h), fun h => congrArg _ (Except.ok.inj h)⟩

theorem exists_of_mem_mapM {ε α β : Type} {f : α → Except ε β} {xs : List α} {ys : List β}
    (h : xs.mapM f = .ok ys) {y : β} (hy : y ∈ ys) : ∃ x ∈ xs, f x = .ok y := by
  induction xs generalizing ys with
  | nil =>
    obtain rfl := Except.ok.inj h
    cases hy
  | cons x rest ih =>
    rw [List.mapM_cons] at h
    obtain ⟨first, hfirst, h⟩ := bind_eq_ok.mp h
    obtain ⟨others, hothers, h⟩ := bind_eq_ok.mp h
    obtain rfl := Except.ok.inj h
    rcases List.mem_cons.mp hy with rfl | hy
    · exact ⟨x, List.mem_cons_self, hfirst⟩
    · obtain ⟨other, hm, ho⟩ := ih hothers hy
      exact ⟨other, List.mem_cons_of_mem _ hm, ho⟩

namespace Config

variable {config config' : Config}

theorem toOption_eq_some {ε α : Type} {result : Except ε α} {a : α}
    (h : result.toOption = some a) : result = .ok a := by
  cases result with
  | error e => cases h
  | ok b => exact congrArg Except.ok (Option.some.inj h)

theorem valid_default : Valid {} where
  rootAlias := by decide +kernel
  extensions_ne_nil := by decide
  isExtension := by decide +kernel
  indexBasename := by decide +kernel
  entryPoints_ne_nil := by decide
  canonical := by decide +kernel

/-! ### Setting fields -/

/-- What setting a field does, with the check that its value has passed. -/
inductive Sets (config : Config) : String → Yaml.Node → Config → Prop
  | rootAlias {value : Yaml.Node} {rootAlias : String} (hr : stringOf value = .ok rootAlias)
      (hv : IsRootAlias rootAlias) : Sets config "root_alias" value { config with rootAlias }
  | extensions {value : Yaml.Node} {extensions : List String}
      (hr : stringsOf value = .ok extensions) (hne : extensions ≠ [])
      (hv : ∀ extension ∈ extensions, IsExtension extension) :
      Sets config "extensions" value { config with extensions }
  | indexBasename {value : Yaml.Node} {indexBasename : String}
      (hr : stringOf value = .ok indexBasename) (hv : IsIndexBasename indexBasename) :
      Sets config "index_basename" value { config with indexBasename }
  | entryPoints {value : Yaml.Node} {written : List String} {entryPoints : List Path}
      (hr : stringsOf value = .ok written)
      (hp : written.mapM (fun raw => (Path.parse raw).mapError FieldDefect.entryPoint) =
        .ok entryPoints)
      (hne : entryPoints ≠ []) : Sets config "entry_points" value { config with entryPoints }
  | packageCdn {value : Yaml.Node} {written : String} (hr : stringOf value = .ok written) :
      Sets config "package_cdn" value { config with packageCdn := trimSeparators written }
  | packageVersions {value : Yaml.Node} {entries : List (Yaml.Node × Yaml.Node)}
      (he : value.entries? = some entries) :
      Sets config "package_versions" value
        { config with packageVersions := addVersions config.packageVersions entries }
  | unknown {name : String} {value : Yaml.Node}
      (hn : name ∉ ["root_alias", "extensions", "index_basename", "entry_points", "package_cdn",
        "package_versions"]) : Sets config name value config

theorem sets_of_setField {name : String} {value : Yaml.Node}
    (h : config.setField name value = .ok config') : config.Sets name value config' := by
  unfold setField at h
  split at h
  · obtain ⟨rootAlias, hr, h⟩ := bind_eq_ok.mp h
    split at h
    · rename_i hv
      obtain rfl := Except.ok.inj h
      exact .rootAlias hr hv
    · cases h
  · obtain ⟨extensions, hr, h⟩ := bind_eq_ok.mp h
    split at h
    · rename_i hv
      obtain rfl := Except.ok.inj h
      exact .extensions hr hv.1 hv.2
    · cases h
  · obtain ⟨indexBasename, hr, h⟩ := bind_eq_ok.mp h
    split at h
    · rename_i hv
      obtain rfl := Except.ok.inj h
      exact .indexBasename hr hv
    · cases h
  · obtain ⟨written, hr, h⟩ := bind_eq_ok.mp h
    obtain ⟨entryPoints, hp, h⟩ := bind_eq_ok.mp h
    split at h
    · cases h
    · rename_i hne
      obtain rfl := Except.ok.inj h
      exact .entryPoints hr hp hne
  · obtain ⟨written, hr, h⟩ := bind_eq_ok.mp h
    obtain rfl := Except.ok.inj h
    exact .packageCdn hr
  · split at h
    · rename_i he
      obtain rfl := Except.ok.inj h
      exact .packageVersions he
    · cases h
  · obtain rfl := Except.ok.inj h
    exact .unknown (by simp_all)

theorem Sets.valid {name : String} {value : Yaml.Node} (hs : config.Sets name value config')
    (h : config.Valid) : config'.Valid := by
  cases hs with
  | rootAlias hr hv => exact { h with rootAlias := hv }
  | extensions hr hne hv => exact { h with extensions_ne_nil := hne, isExtension := hv }
  | indexBasename hr hv => exact { h with indexBasename := hv }
  | entryPoints hr hp hne =>
    refine { h with entryPoints_ne_nil := hne, canonical := fun path hm => ?_ }
    obtain ⟨raw, -, hparse⟩ := exists_of_mem_mapM hp hm
    exact Path.canonical_of_parse (mapError_eq_ok_iff.mp hparse)
  | packageCdn hr => exact { h with }
  | packageVersions he => exact { h with }
  | unknown hn => exact h

theorem Sets.packageVersions_of_ne {name : String} {value : Yaml.Node}
    (hs : config.Sets name value config') (hne : name ≠ "package_versions") :
    config'.packageVersions = config.packageVersions := by
  cases hs with
  | packageVersions he => exact absurd rfl hne
  | _ => rfl

theorem Valid.setFields (h : config.Valid) {fields : List (Yaml.Node × Yaml.Node)}
    (hs : config.setFields fields = .ok config') : config'.Valid := by
  induction fields generalizing config with
  | nil =>
    obtain rfl := Except.ok.inj hs
    exact h
  | cons field rest ih =>
    obtain ⟨key, value⟩ := field
    rw [Config.setFields] at hs
    split at hs
    · obtain ⟨first, hfirst, hs⟩ := bind_eq_ok.mp hs
      exact ih ((sets_of_setField (mapError_eq_ok_iff.mp hfirst)).valid h) hs
    · exact ih h hs

/-- What is read from a document is valid. -/
theorem valid_of_parse {text : String} (h : parse text = .ok config) : config.Valid := by
  rw [parse] at h
  obtain ⟨documents, -, h⟩ := bind_eq_ok.mp h
  split at h
  · obtain rfl := Except.ok.inj h
    exact valid_default
  · rw [ofDocument] at h
    split at h
    · exact valid_default.setFields h
    · cases h

end Config

end LivePreview
