import Mathlib.Data.List.Basic
import LivePreview.Module.Draft
import LivePreview.Proofs.Resolution

/-!
# What a memo key tells

The linked text of a script follows from its dialect, its content and what its imports become. So it
follows from the key under which its result is remembered, as long as no two contents and no two
tables of imports among those that were hashed have the same fingerprint.
-/
namespace LivePreview

open Source

/-- The path leads to a script all of whose imports can be resolved. -/
structure Config.IsScript (config : Config) (store : Store) (path : Path) (dialect : Dialect)
    (content : String) : Prop where
  kind : ModuleKind.ofPath config path = .script dialect
  read : store.read path.text = .ok content
  resolved : config.firstUnresolved? store path (importSites content dialect) = none

/-- The links of a script. -/
def Config.scriptLinks (config : Config) (store : Store) (path : Path) (dialect : Dialect)
    (content : String) : List Link :=
  config.links store path (importSites content dialect)

/-- What is hashed for the file at a path: the content of a script and what its imports become, if
all of them can be resolved. -/
def Config.hashed? (config : Config) (store : Store) (path : Path) :
    Option (String × List (String × String)) :=
  match ModuleKind.ofPath config path, store.read path.text with
  | .script dialect, .ok content =>
    match config.firstUnresolved? store path (importSites content dialect) with
    | none => some (content, importTargets (config.scriptLinks store path dialect content))
    | some _ => none
  | _, _ => none

/-- Different contents and different tables of imports among the inputs have different
fingerprints. -/
def NoCollisions (inputs : List (String × List (String × String))) : Prop :=
  ∀ a ∈ inputs, ∀ b ∈ inputs,
    (Fingerprint.ofContent a.1 = .ofContent b.1 → a.1 = b.1) ∧
      (Fingerprint.ofImports a.2 = .ofImports b.2 → a.2 = b.2)

instance (inputs : List (String × List (String × String))) : Decidable (NoCollisions inputs) := by
  unfold NoCollisions; infer_instance

namespace Config.IsScript

variable {config : Config} {store : Store} {path : Path} {dialect : Dialect} {content : String}

theorem hashed?_eq (h : config.IsScript store path dialect content) :
    config.hashed? store path =
      some (content, importTargets (config.scriptLinks store path dialect content)) := by
  rw [hashed?, h.kind, h.read]
  dsimp only
  rw [h.resolved]

theorem body_eq (h : config.IsScript store path dialect content) :
    (Draft.ofPath config store path).body =
      .script dialect
        { kind := .script dialect
          content := .ofContent content
          imports := .ofImports (importTargets (config.scriptLinks store path dialect content)) }
        (Text.applyEdits content
          ((config.scriptLinks store path dialect content).map (Link.edit config content))) := by
  rw [Draft.ofPath, h.read, h.kind]
  dsimp only [Draft.ofScript]
  rw [h.resolved]
  rfl

/-- Every import of a script is in its table. -/
theorem get?_importTargets (h : config.IsScript store path dialect content) {site : ImportSite}
    (hs : site ∈ importSites content dialect) :
    ∃ resolution, config.resolve? store path site.specifier = some resolution ∧
      Table.get? site.specifier
          (importTargets (config.scriptLinks store path dialect content)) =
        some resolution.specifier := by
  have hfound := List.find?_eq_none.mp h.resolved site hs
  have hsome : config.resolve? store path site.specifier ≠ none :=
    fun he => hfound (by rw [he]; rfl)
  obtain ⟨resolution, hr⟩ := Option.ne_none_iff_exists'.mp hsome
  refine ⟨resolution, hr, Table.get?_ofList ?_ ?_⟩
  · refine List.mem_map.mpr ⟨⟨site, resolution⟩, ?_, rfl⟩
    exact List.mem_filterMap.mpr ⟨site, hs, by rw [hr]; rfl⟩
  · intro pair hm hkey
    obtain ⟨link, hlink, rfl⟩ := List.mem_map.mp hm
    obtain ⟨other, _, ho⟩ := List.mem_filterMap.mp hlink
    obtain ⟨found, hf, rfl⟩ := Option.map_eq_some_iff.mp ho
    dsimp only at hkey ⊢
    rw [hkey, hr] at hf
    rw [Option.some.inj hf]

end Config.IsScript

/-- The draft of a script that is left to check is that of an `IsScript`. -/
theorem Draft.isScript_of_body {config : Config} {store : Store} {path : Path} {dialect : Dialect}
    {key : MemoKey} {linked : String}
    (h : (Draft.ofPath config store path).body = .script dialect key linked) :
    ∃ content, config.IsScript store path dialect content := by
  rw [ofPath] at h
  cases hr : store.read path.text with
  | error e => rw [hr] at h; cases h
  | ok content =>
    rw [hr] at h
    cases hk : ModuleKind.ofPath config path with
    | stylesheet => rw [hk] at h; cases h
    | json => rw [hk] at h; cases h
    | asset => rw [hk] at h; cases h
    | script written =>
      rw [hk] at h
      dsimp only [ofScript] at h
      cases hu : config.firstUnresolved? store path (importSites content written) with
      | some site => rw [hu] at h; cases h
      | none =>
        rw [hu] at h
        cases h
        exact ⟨content, hk, hr, hu⟩

/-! ### The same key, the same text -/

/-- The change to the script depends on what the specifier becomes and on which file it leads to. -/
theorem Link.edit_eq {config : Config} (content : String) (site : ImportSite) {a b : Resolution}
    (hs : a.specifier = b.specifier) (hf : ∀ path, a = .file path ↔ b = .file path) :
    Link.edit config content ⟨site, a⟩ = Link.edit config content ⟨site, b⟩ := by
  cases a with
  | file path =>
    obtain rfl := (hf path).mp rfl
    rfl
  | package p =>
    cases b with
    | file path => cases (hf path).mpr rfl
    | package q =>
      have hs : p.specifier = q.specifier := hs
      simp only [edit, isDropped, stylesheet?, file?, Resolution.specifier, hs]
      rfl

/-- In whatever trees and from wherever two scripts with the same content are linked, the changes
are the same if their imports become the same. -/
theorem Config.IsScript.edits_eq {config : Config} {store store' : Store} {path path' : Path}
    {dialect : Dialect} {content : String} (hw : store.WellFormed) (hw' : store'.WellFormed)
    (h : config.IsScript store path dialect content)
    (h' : config.IsScript store' path' dialect content)
    (ht : importTargets (config.scriptLinks store path dialect content) =
      importTargets (config.scriptLinks store' path' dialect content)) :
    (config.scriptLinks store path dialect content).map (Link.edit config content) =
      (config.scriptLinks store' path' dialect content).map (Link.edit config content) := by
  rw [scriptLinks, scriptLinks, links, links, List.map_filterMap, List.map_filterMap]
  refine List.filterMap_congr fun site hs => ?_
  obtain ⟨a, ha, hta⟩ := h.get?_importTargets hs
  obtain ⟨b, hb, htb⟩ := h'.get?_importTargets hs
  have he : a.specifier = b.specifier := by
    rw [ht, htb] at hta
    exact (Option.some.inj hta).symm
  rw [ha, hb]
  refine congrArg some (Link.edit_eq content site he fun found => ⟨?_, ?_⟩)
  · exact file_of_specifier_eq hw hw' ha hb he
  · exact file_of_specifier_eq hw' hw hb ha he.symm

/-- Drafts with the same key have the same linked text. -/
theorem Draft.linked_eq {config : Config} {store store' : Store} {path path' : Path}
    {inputs : List (String × List (String × String))} (hn : NoCollisions inputs)
    (hw : store.WellFormed) (hw' : store'.WellFormed)
    (hi : ∀ input, config.hashed? store path = some input → input ∈ inputs)
    (hi' : ∀ input, config.hashed? store' path' = some input → input ∈ inputs)
    {dialect dialect' : Dialect} {key : MemoKey} {linked linked' : String}
    (hb : (ofPath config store path).body = .script dialect key linked)
    (hb' : (ofPath config store' path').body = .script dialect' key linked') :
    dialect = dialect' ∧ linked = linked' := by
  obtain ⟨content, h⟩ := isScript_of_body hb
  obtain ⟨content', h'⟩ := isScript_of_body hb'
  obtain ⟨hcontent, htargets⟩ := hn _ (hi _ h.hashed?_eq) _ (hi' _ h'.hashed?_eq)
  rw [h.body_eq] at hb
  rw [h'.body_eq] at hb'
  obtain ⟨-, rfl, rfl⟩ := DraftBody.script.inj hb
  obtain ⟨-, hkey, rfl⟩ := DraftBody.script.inj hb'
  obtain ⟨hkind, hc, ht⟩ := MemoKey.mk.inj hkey
  obtain rfl := ModuleKind.script.inj hkind
  obtain rfl := hcontent hc.symm
  refine ⟨rfl, ?_⟩
  rw [h.edits_eq hw hw' h' (htargets ht.symm)]

end LivePreview
