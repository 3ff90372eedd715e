import Mathlib.Data.List.Infix
import LivePreview.Proofs.Module.Memo
import LivePreview.Proofs.Module.Reach
import LivePreview.Proofs.Source.Relink

/-!
# Linked scripts

Linking relinks each import site of a script. Where its edits are confined to their places, what the
linked script imports is what its links are resolved to, apart from the stylesheets that are dropped.
-/
namespace LivePreview

open Source

/-! ### Edits that are confined -/

instance (markup : Bool) (front : List Char) (quote : Char) (old behind : List Char) :
    Decidable (Replaceable markup front quote old behind) :=
  decidable_of_iff
    ((readerAt markup front (quote :: (old ++ behind))).InCode ∧
      ¬ (readerAt markup (front ++ [quote]) (old ++ behind)).InCode ∧ Plain old)
    ⟨fun ⟨ho, hl, hp⟩ => ⟨ho, hl, hp⟩, fun h => ⟨h.opens, h.literal, h.plain⟩⟩

instance (r r' : Reader) : Decidable (Reader.Near r r') :=
  decidable_of_iff
    (r.markup = r'.markup ∧ r.mode.erase = r'.mode.erase ∧
      r.stack.map (·.construct) = r'.stack.map (·.construct) ∧ r.inWord = r'.inWord ∧
      (r.inWord = true → r.word = r'.word) ∧ r.skip = r'.skip)
    ⟨fun ⟨hmarkup, hmode, hstack, hin, hword, hskip⟩ => ⟨hmarkup, hmode, hstack, hin, hword, hskip⟩,
      fun h => ⟨h.markup, h.mode, h.stack, h.inWord, h.word, h.skip⟩⟩

instance (markup : Bool) (front statement behind : List Char) :
    Decidable (Removable markup front statement behind) :=
  decidable_of_iff
    (behind.head?.all (· = '\n') = true ∧ (∀ word ∈ keywords, ¬ word <:+: lastRun front) ∧
      (readerAt markup front (statement ++ behind)).InCode ∧
      Reader.Near (readerAt markup front (statement ++ behind))
        (readerAt markup (front ++ statement) behind) ∧
      (readerAt markup (front ++ statement) behind).inWord = false ∧
      (readerAt markup (front ++ statement) behind).settles behind = true)
    ⟨fun ⟨he, ha, hc, hn, hw, hs⟩ =>
        ⟨fun c hm => of_decide_eq_true ((Option.all_eq_true _ _).mp he c hm), ha, hc, hn, hw, hs⟩,
      fun h => ⟨(Option.all_eq_true _ _).mpr fun c hm => decide_eq_true (h.ends c hm), h.alone,
        h.code, h.near, h.apart, h.settles⟩⟩

instance (markup : Bool) (source : List Char) (site : ImportSite) :
    (e : SiteEdit) → Decidable (e.Confined markup source site)
  | .swap new =>
    inferInstanceAs (Decidable (Plain new ∧ Replaceable markup _ _ site.specifier.toList _))
  | .drop _ =>
    inferInstanceAs (Decidable (site.isRemovable = true ∧ Plain site.specifier.toList ∧
      Removable markup _ _ _))

namespace Link

variable {config : Config} {content : String} {link : Link}

/-- What linking does to the site of the link. -/
def siteEdit (config : Config) (content : String) (link : Link) : SiteEdit :=
  if link.isDropped config then .drop ((Text.slice content.toList link.site.statement).count '\n')
  else .swap link.resolution.specifier.toList

theorem edit_siteEdit : (link.siteEdit config content).edit link.site = link.edit config content := by
  rw [siteEdit, edit]
  split
  · rfl
  · rw [SiteEdit.edit, String.ofList_toList]

theorem specifier_of_siteEdit {new : List Char} (h : link.siteEdit config content = .swap new) :
    link.isDropped config = false ∧ link.resolution.specifier.toList = new := by
  rw [siteEdit] at h
  split at h
  · cases h
  · rename_i hd
    exact ⟨Bool.eq_false_iff.mpr hd, SiteEdit.swap.inj h⟩

end Link

/-- The edits that link the script at the path are confined. Other files have no edits. -/
def Config.EditsConfined (config : Config) (store : Store) (path : Path) : Prop :=
  match ModuleKind.ofPath config path, store.read path.text with
  | .script dialect, .ok content =>
    ∀ link ∈ config.links store path (importSites content dialect),
      (link.siteEdit config content).Confined dialect.allowsMarkup content.toList link.site
  | _, _ => True

instance (config : Config) (store : Store) (path : Path) :
    Decidable (config.EditsConfined store path) := by
  unfold Config.EditsConfined
  split <;> infer_instance

/-! ### Imports of a linked script -/

namespace Config.IsScript

variable {config : Config} {store : Store} {path : Path} {dialect : Dialect} {content : String}

theorem imports_eq (h : config.IsScript store path dialect content) :
    config.imports store path = config.scriptLinks store path dialect content := by
  rw [imports, h.kind, h.read]
  rfl

/-- Each import site of a script has a link. -/
theorem map_site (h : config.IsScript store path dialect content) :
    (config.scriptLinks store path dialect content).map (·.site) = importSites content dialect := by
  have hresolved := List.find?_eq_none.mp h.resolved
  rw [scriptLinks, links, List.map_filterMap]
  refine (List.filterMap_congr fun site hs => ?_).trans List.filterMap_some
  cases hr : config.resolve? store path site.specifier with
  | none => exact absurd (by rw [hr]; rfl) (hresolved site hs)
  | some resolution => rfl

/-- What linking does to each site. -/
def siteEdits (config : Config) (store : Store) (path : Path) (dialect : Dialect)
    (content : String) : List (ImportSite × SiteEdit) :=
  (config.scriptLinks store path dialect content).map
    fun link => (link.site, link.siteEdit config content)

theorem map_fst_siteEdits (h : config.IsScript store path dialect content) :
    (siteEdits config store path dialect content).map Prod.fst = importSites content dialect := by
  rw [← h.map_site, siteEdits, List.map_map]
  rfl

theorem map_edit_siteEdits :
    (siteEdits config store path dialect content).map (fun e => e.2.edit e.1) =
      (config.scriptLinks store path dialect content).map (Link.edit config content) := by
  rw [siteEdits, List.map_map]
  exact List.map_congr_left fun link _ => Link.edit_siteEdit

theorem confined_siteEdits (h : config.IsScript store path dialect content)
    (hc : config.EditsConfined store path) :
    ∀ e ∈ siteEdits config store path dialect content,
      e.2.Confined dialect.allowsMarkup content.toList e.1 := by
  rw [EditsConfined, h.kind, h.read] at hc
  intro e he
  obtain ⟨link, hl, rfl⟩ := List.mem_map.mp he
  exact hc link hl

/-- A linked script imports what its links are resolved to. -/
theorem exists_link (h : config.IsScript store path dialect content)
    (hc : config.EditsConfined store path) {site : ImportSite}
    (hs : site ∈ importSites (Text.applyEdits content
      ((config.scriptLinks store path dialect content).map (Link.edit config content))) dialect) :
    ∃ link ∈ config.imports store path,
      link.isDropped config = false ∧ link.resolution.specifier = site.specifier := by
  rw [← map_edit_siteEdits] at hs
  obtain ⟨e, he, hswap⟩ :=
    exists_swap_of_mem_importSites h.map_fst_siteEdits (h.confined_siteEdits hc) hs
  obtain ⟨link, hl, rfl⟩ := List.mem_map.mp he
  obtain ⟨hd, hspecifier⟩ := Link.specifier_of_siteEdit hswap
  exact ⟨link, h.imports_eq ▸ hl, hd, String.toList_inj.mp hspecifier⟩

end Config.IsScript

/-- The code of a script that passed its check is the linked script. -/
theorem Draft.exists_isScript {config : Config} {store : Store} {path : Path} {dialect : Dialect}
    {code : String} (hk : ModuleKind.ofPath config path = .script dialect)
    (ho : (ofPath config store path).output = .ok code) :
    ∃ content, config.IsScript store path dialect content ∧
      code = Text.applyEdits content
        ((config.scriptLinks store path dialect content).map (Link.edit config content)) := by
  cases hr : store.read path.text with
  | error cause =>
    rw [output_of_missing hr] at ho
    cases ho
  | ok content =>
    rcases output_of_script hk hr with ⟨cause, location, hu⟩ | ⟨h, hc⟩
    · rw [hu] at ho
      cases ho
    · rw [hc, checkScript_eq_ok_iff] at ho
      exact ⟨content, h, ho.1⟩

end LivePreview
