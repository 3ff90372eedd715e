import LivePreview.Proofs.Module.Linked
import LivePreview.Proofs.Module.Memo
import LivePreview.Proofs.Path.Name
import LivePreview.Proofs.Source.Coherent
import LivePreview.Proofs.Text.Substitution

/-!
# Linking as substitution

A script is linked by edits at its import sites. With the default configuration these are made at
once and none of them is lost: a statement that is dropped could share a quote with a call behind it
only if its specifier ended like the keyword of the call, and such a specifier names no stylesheet.
-/
namespace LivePreview

open Source
open Text (Edit Separate isBlank slice substitute)

variable {config : Config} {store : Store} {importer path base : Path} {specifier : String}

/-! ### Specifiers of stylesheets -/

/-- A specifier ends like the name of the path that it names. -/
theorem Config.suffix_name_of_target {ending : List Char} (he : Path.Ending ending)
    (ha : IsRootAlias config.rootAlias) (hs : ending <:+ specifier.toList)
    (h : config.target importer specifier = .path (some base)) : ending <:+ base.name.toList := by
  rw [target] at h
  split at h
  · rename_i tail htail
    rw [dropRootAlias?] at htail
    split at htail
    swap
    · cases htail
    rename_i hprefix
    obtain rfl := Option.some.inj htail
    refine Path.suffix_name_of_join he ?_ (toOption_eq_some (ImportTarget.path.inj h))
    obtain ⟨tail, htext⟩ := List.isPrefixOf_iff_prefix.mp hprefix
    rw [String.toList_ofList, ← htext, ← String.length_toList, List.drop_left]
    rcases List.suffix_or_suffix_of_suffix hs ⟨_, htext⟩ with hsuffix | ⟨front, rfl⟩
    · exact hsuffix
    · -- What reaches into the alias has its separator.
      obtain ⟨outer, houter⟩ := hs
      rw [← htext, ← List.append_assoc] at houter
      have hlast := ha.1
      rw [← List.append_cancel_right houter, List.getLast?_append] at hlast
      cases hfront : front.getLast? with
      | none => rw [List.getLast?_eq_none_iff.mp hfront, List.nil_append]
      | some c =>
        rw [hfront, Option.some_or] at hlast
        have hmem := List.mem_of_getLast? (hfront.trans hlast)
        exact absurd (List.mem_append_left tail hmem) he.free
  · split at h
    · exact Path.suffix_name_of_parse he hs (toOption_eq_some (ImportTarget.path.inj h))
    · split at h
      · exact Path.suffix_name_of_join he hs (toOption_eq_some (ImportTarget.path.inj h))
      · cases h

theorem ModuleKind.suffix_of_stylesheet (h : ofPath config path = .stylesheet) :
    ".css".toList <:+ path.name.toList := by
  rw [ofPath] at h
  split at h
  · cases h
  · rename_i extension hextension
    split at h
    · cases h
    · split at h
      · rename_i hcss
        exact hcss ▸ Path.suffix_of_extension? hextension
      · split at h <;> cases h

/-- What may stand in place of a path has the extension of a script. -/
theorem Config.exists_extension_of_mem_candidates (h : path ∈ candidates {} base) :
    path = base ∨ ∃ extension ∈ ({} : Config).extensions, extension.toList <:+ path.name.toList := by
  have hending : ∀ extension ∈ ({} : Config).extensions, Path.Ending extension.toList := by
    have hall : ∀ extension ∈ ({} : Config).extensions, '/' ∉ extension.toList ∧
        extension.toList.getLast?.any (· ≠ '.') = true := by decide
    intro extension hm
    obtain ⟨hfree, hlast⟩ := hall extension hm
    exact ⟨hfree, by simpa using (Option.any_eq_true _ _).mp hlast⟩
  have hname : ∀ extension ∈ ({} : Config).extensions,
      Path.IsName (({} : Config).indexBasename ++ extension) := by decide
  rcases mem_candidates_iff.mp h with rfl | ⟨_, extension, hextension, hparse⟩ |
    ⟨extension, hextension, rfl⟩
  · exact .inl rfl
  · refine .inr ⟨extension, hextension, ?_⟩
    refine Path.suffix_name_of_parse (hending extension hextension) ?_ hparse
    rw [String.toList_append]
    exact List.suffix_append _ _
  · refine .inr ⟨extension, hextension, ?_⟩
    refine Path.suffix_name_of_child (hname extension hextension) ?_
    rw [String.toList_append]
    exact List.suffix_append _ _

/-- A specifier of a stylesheet does not end like the keyword of a call. -/
theorem Config.getLast?_of_stylesheet (hne : specifier ≠ "")
    (h : resolve? {} store importer specifier = some (.file path))
    (hk : ModuleKind.ofPath {} path = .stylesheet) :
    specifier.toList.getLast?.any (fun c => c != '(' && !isBlank c) = true := by
  have hcss := ModuleKind.suffix_of_stylesheet hk
  obtain ⟨base, htarget, hfirst⟩ := resolve?_eq_file_iff.mp h
  have hscript : ∀ extension ∈ ({} : Config).extensions,
      ¬ (extension.toList <:+ ".css".toList ∨ ".css".toList <:+ extension.toList) := by decide
  rcases exists_extension_of_mem_candidates (List.mem_of_find?_eq_some hfirst) with rfl | hother
  swap
  · obtain ⟨extension, hm, hsuffix⟩ := hother
    exact absurd (List.suffix_or_suffix_of_suffix hsuffix hcss) (hscript extension hm)
  cases hlast : specifier.toList.getLast? with
  | none => exact absurd (String.toList_eq_nil_iff.mp (List.getLast?_eq_none_iff.mp hlast)) hne
  | some c =>
    obtain ⟨front, hfront⟩ := List.getLast?_eq_some_iff.mp hlast
    rw [Option.any_some]
    by_contra hc
    have hending : Path.Ending [c] := by
      refine ⟨?_, c, rfl, ?_⟩
      · intro hm
        obtain rfl := List.mem_singleton.mp hm
        exact hc (by decide)
      · rintro rfl
        exact hc (by decide)
    obtain ⟨init, hname⟩ := suffix_name_of_target hending (by decide) ⟨front, hfront.symm⟩ htarget
    obtain ⟨init', hname'⟩ := hcss
    rw [← hname] at hname'
    have hs := congrArg List.getLast? hname'
    rw [List.getLast?_append, List.getLast?_concat] at hs
    obtain rfl := Option.some.inj hs
    exact hc (by decide)

/-! ### The edits of a script -/

/-- The edit that takes the place of a site whose specifier is resolved. -/
inductive Substitutes (config : Config) (content : String) (site : ImportSite) :
    Resolution → Edit → Prop
  /-- As many line breaks as it has stand for a statement that only brings in a stylesheet. -/
  | dropped {target : Path} (hk : site.kind = .static ∨ site.kind = .sideEffect)
      (hs : ModuleKind.ofPath config target = .stylesheet) :
      Substitutes config content site (.file target)
        ⟨site.statement,
          .ofList (.replicate ((slice content.toList site.statement).count '\n') '\n')⟩
  /-- What is resolved stands for any other specifier. -/
  | renamed {resolution : Resolution}
      (hn : ¬ ((site.kind = .static ∨ site.kind = .sideEffect) ∧
        ∃ target, resolution = .file target ∧ ModuleKind.ofPath config target = .stylesheet)) :
      Substitutes config content site resolution ⟨site.span, resolution.specifier⟩

/-- The specifier of the site can be resolved in the tree, and the edit takes its place. -/
def Config.Rewrites (config : Config) (store : Store) (path : Path) (content : String)
    (site : ImportSite) (edit : Edit) : Prop :=
  ∃ resolution, config.resolve? store path site.specifier = some resolution ∧
    Substitutes config content site resolution edit

namespace Link

variable {content : String} {link : Link}

theorem isDropped_iff : link.isDropped config = true ↔
    (link.site.kind = .static ∨ link.site.kind = .sideEffect) ∧
      ∃ target, link.resolution = .file target ∧ ModuleKind.ofPath config target = .stylesheet := by
  obtain ⟨site, resolution⟩ := link
  rw [isDropped, Bool.and_eq_true, and_comm, ImportSite.isRemovable, Bool.or_eq_true,
    decide_eq_true_eq, decide_eq_true_eq, stylesheet?]
  refine and_congr_right fun _ => ?_
  cases resolution with
  | file target => simp [file?, Option.filter]
  | package p => simp [file?]

theorem substitutes_iff {site : ImportSite} {resolution : Resolution} {edit : Edit} :
    Substitutes config content site resolution edit ↔
      edit = Link.edit config content ⟨site, resolution⟩ := by
  by_cases hd : (⟨site, resolution⟩ : Link).isDropped config = true
  · rw [Link.edit, if_pos hd]
    obtain ⟨hk, target, rfl, hs⟩ := isDropped_iff.mp hd
    constructor
    · intro h
      cases h with
      | dropped _ _ => rfl
      | renamed hn => exact absurd ⟨hk, target, rfl, hs⟩ hn
    · rintro rfl
      exact .dropped hk hs
  · rw [Link.edit, if_neg hd]
    constructor
    · intro h
      cases h with
      | dropped hk hs => exact absurd (isDropped_iff.mpr ⟨hk, _, rfl, hs⟩) hd
      | renamed _ => rfl
    · rintro rfl
      exact .renamed fun hn => hd (isDropped_iff.mpr hn)

end Link

/-- All sites are rewritten when each of them can be resolved, and then by the edits of their
links. -/
theorem Config.forall₂_rewrites_iff {content : String} {sites : List ImportSite}
    {edits : List Edit} :
    List.Forall₂ (config.Rewrites store path content) sites edits ↔
      config.firstUnresolved? store path sites = none ∧
        edits = (config.links store path sites).map (Link.edit config content) := by
  induction sites generalizing edits with
  | nil => simp [firstUnresolved?, links]
  | cons site sites ih =>
    rw [List.forall₂_cons_left_iff]
    cases hr : config.resolve? store path site.specifier with
    | none =>
      refine iff_of_false ?_ ?_
      · rintro ⟨_, _, ⟨_, hresolved, _⟩, _⟩
        rw [hr] at hresolved
        cases hresolved
      · rintro ⟨hnone, _⟩
        have hsite := List.find?_eq_none.mp hnone site List.mem_cons_self
        rw [hr] at hsite
        exact hsite rfl
    | some resolution =>
      have hfirst : config.firstUnresolved? store path (site :: sites) =
          config.firstUnresolved? store path sites :=
        List.find?_cons_of_neg (by simp [hr])
      have hlinks : config.links store path (site :: sites) =
          ⟨site, resolution⟩ :: config.links store path sites :=
        List.filterMap_cons_some (by rw [hr]; rfl)
      rw [hfirst, hlinks, List.map_cons]
      constructor
      · rintro ⟨edit, rest, ⟨found, hfound, hedit⟩, hrest, rfl⟩
        obtain rfl := Option.some.inj (hr.symm.trans hfound)
        obtain ⟨hnone, rfl⟩ := ih.mp hrest
        exact ⟨hnone, congrArg (· :: _) (Link.substitutes_iff.mp hedit)⟩
      · rintro ⟨hnone, rfl⟩
        exact ⟨_, _, ⟨resolution, hr, Link.substitutes_iff.mpr rfl⟩, ih.mpr ⟨hnone, rfl⟩, rfl⟩

/-! ### Links and their places -/

/-- The link is that of a site of the content, resolved with the default configuration. -/
structure Link.Stands (store : Store) (path : Path) (dialect : Dialect) (content : String)
    (link : Link) : Prop where
  mem : link.site ∈ importSites content dialect
  resolved : Config.resolve? {} store path link.site.specifier = some link.resolution

namespace Link.Stands

variable {dialect : Dialect} {content : String} {link a b : Link}

theorem of_mem_links
    (h : link ∈ Config.links {} store path (importSites content dialect)) :
    link.Stands store path dialect content := by
  obtain ⟨site, hs, hlink⟩ := List.mem_filterMap.mp h
  obtain ⟨resolution, hr, rfl⟩ := Option.map_eq_some_iff.mp hlink
  exact ⟨hs, hr⟩

/-- The edit of a link replaces a part of the content. -/
theorem covers (h : link.Stands store path dialect content) :
    ∃ part, part ≠ [] ∧ (link.edit {} content).span.Covers content.toList part := by
  obtain ⟨_, _, ⟨loc⟩⟩ := exists_located h.mem
  have hc := loc.coherent (specifier_ne_empty h.mem)
  have hne : link.site.specifier.toList ≠ [] := by simpa using hc.ne_empty
  rw [edit]
  split
  · obtain ⟨text, htext⟩ := hc.statement
    refine ⟨text, ?_, htext⟩
    rintro rfl
    -- A statement is as long as its specifier at least, which has a character.
    have hpos := Text.byteLength_pos hne
    have hstop := htext.stop_eq
    have hspan := hc.span.stop_eq
    have hle := hc.start_le
    have hend := hc.stop_le
    rw [Text.byteLength_nil] at hstop
    omega
  · exact ⟨_, hne, hc.span⟩

/-- A statement that is dropped has no part of another specifier. -/
theorem apart_of_dropped (ha : a.Stands store path dialect content)
    (hb : b.Stands store path dialect content) (hd : a.isDropped {} = true)
    (hn : b.isDropped {} = false) (hne : a.site.span.start ≠ b.site.span.start) :
    Edit.Apart (a.edit {} content) (b.edit {} content) := by
  obtain ⟨hk, target, hresolution, hs⟩ := isDropped_iff.mp hd
  have hremovable : a.site.isRemovable = true := by simpa [ImportSite.isRemovable] using hk
  obtain ⟨loc⟩ := exists_located_statement ha.mem hremovable
  obtain ⟨shape, hshape, ⟨loc'⟩⟩ := exists_located hb.mem
  have hlast := Config.getLast?_of_stylesheet (specifier_ne_empty ha.mem)
    (ha.resolved.trans (congrArg some hresolution)) hs
  rw [edit, if_pos hd, edit, hn]
  -- They could only share the quote that ends the one and opens the other.
  rcases loc.statement_apart hlast (lawful_of_mem_shapes hshape) loc' hne with hle | hlt
  · exact .inr hle
  · exact .inl (Nat.le_of_lt hlt)

theorem apart (ha : a.Stands store path dialect content)
    (hb : b.Stands store path dialect content) (hd : a.site.Disjoint b.site)
    (hlt : a.site.span.start < b.site.span.start) :
    Edit.Apart (a.edit {} content) (b.edit {} content) := by
  cases hda : a.isDropped {} with
  | true =>
    cases hdb : b.isDropped {} with
    | true =>
      rw [edit, if_pos hda, edit, if_pos hdb]
      rw [isDropped, Bool.and_eq_true] at hda hdb
      exact hd hda.2 hdb.2
    | false => exact ha.apart_of_dropped hb hda hdb (Nat.ne_of_lt hlt)
  | false =>
    cases hdb : b.isDropped {} with
    | true => exact Std.Symm.symm _ _ (hb.apart_of_dropped ha hdb hda (Nat.ne_of_gt hlt))
    | false =>
      obtain ⟨_, _, ⟨loc⟩⟩ := exists_located ha.mem
      obtain ⟨_, _, ⟨loc'⟩⟩ := exists_located hb.mem
      have hstop := (loc.eq_or_stop_lt loc' (Nat.le_of_lt hlt)).resolve_left (Nat.ne_of_lt hlt)
      rw [edit, hda, edit, hdb]
      exact .inl (Nat.le_of_lt hstop)

end Link.Stands

/-- With the default configuration the edits of a script replace separate parts of it. -/
theorem separate_links (store : Store) (path : Path) (dialect : Dialect) (content : String) :
    Separate content.toList
      ((Config.links {} store path (importSites content dialect)).map (Link.edit {} content)) where
  covers edit hm := by
    obtain ⟨link, hl, rfl⟩ := List.mem_map.mp hm
    exact (Link.Stands.of_mem_links hl).covers
  apart := by
    have hplaces := (pairwise_importSites content dialect).and
      (pairwise_start_importSites content dialect)
    rw [List.pairwise_map, Config.links, List.pairwise_filterMap]
    refine List.Pairwise.imp_of_mem ?_ hplaces
    rintro site site' hs hs' ⟨hd, hlt⟩ a ha b hb
    obtain ⟨resolution, hr, rfl⟩ := Option.map_eq_some_iff.mp ha
    obtain ⟨resolution', hr', rfl⟩ := Option.map_eq_some_iff.mp hb
    exact Link.Stands.apart ⟨hs, hr⟩ ⟨hs', hr'⟩ hd hlt

/-! ### The module of a script -/

/-- The file that a specifier leads to. -/
def Config.fileOf? (config : Config) (store : Store) (importer : Path) (specifier : String) :
    Option Path :=
  match config.resolve? store importer specifier with
  | some (.file path) => some path
  | _ => none

theorem Draft.dependencies_of_script {dialect : Dialect} {content : String}
    (hk : ModuleKind.ofPath config path = .script dialect)
    (hr : store.read path.text = .ok content) :
    (ofPath config store path).dependencies = ((importSites content dialect).filterMap
      fun site => config.fileOf? store path site.specifier).eraseDups := by
  rw [ofPath, hr, hk]
  dsimp only [ofScript]
  rw [Config.links, List.filterMap_filterMap]
  refine congrArg List.eraseDups (List.filterMap_congr fun site _ => ?_)
  rw [Config.fileOf?]
  cases config.resolve? store path site.specifier with
  | none => rfl
  | some resolution => cases resolution <;> rfl

/-- A script becomes what a substitution at all of its import sites makes of it, none of which is
left out, if all of them can be resolved and the brackets match. The first that cannot be resolved is
the error. In any case the script depends on the files that its specifiers lead to. -/
theorem Memo.transform_substitutes (store : Store) {path : Path} {dialect : Dialect}
    (hk : ModuleKind.ofPath {} path = .script dialect) :
    (∀ code, (transform {} {} store path).2.output = .ok code ↔
      ∃ content edits, store.read path.text = .ok content ∧
        List.Forall₂ (Config.Rewrites {} store path content) (importSites content dialect) edits ∧
        Separate content.toList edits ∧
        code = .ofList (substitute edits 0 content.toList) ∧ firstFault? code dialect = none) ∧
    ∀ content, store.read path.text = .ok content →
      ((∃ site ∈ importSites content dialect,
          Config.resolve? {} store path site.specifier = none) →
        ∃ earlier site later, importSites content dialect = earlier ++ site :: later ∧
          (∀ other ∈ earlier, (Config.resolve? {} store path other.specifier).isSome = true) ∧
          Config.resolve? {} store path site.specifier = none ∧
          (transform {} {} store path).2.output =
            .error (.unresolved path ⟨site.specifier, path⟩ (site.location content))) ∧
      (transform {} {} store path).2.dependencies = ((importSites content dialect).filterMap
        fun site => Config.fileOf? {} store path site.specifier).eraseDups := by
  rw [transform_empty]
  refine ⟨fun code => ⟨fun ho => ?_, ?_⟩, fun content hr => ⟨fun ⟨site, hs, hn⟩ => ?_, ?_⟩⟩
  · obtain ⟨content, h, hcode⟩ := Draft.exists_isScript hk ho
    have hseparate := separate_links store path dialect content
    replace ho : (Draft.ofPath {} store path).output = .ok code := ho
    rw [h.output_eq, checkScript_eq_ok_iff, ← hcode] at ho
    exact ⟨content, _, h.read, Config.forall₂_rewrites_iff.mpr ⟨h.resolved, rfl⟩, hseparate,
      hcode.trans hseparate.applyEdits_eq, ho.2⟩
  · rintro ⟨content, edits, hr, hrewrites, hseparate, rfl, hfault⟩
    obtain ⟨hresolved, rfl⟩ := Config.forall₂_rewrites_iff.mp hrewrites
    have h : Config.IsScript {} store path dialect content := ⟨hk, hr, hresolved⟩
    rw [← hseparate.applyEdits_eq] at hfault ⊢
    exact h.output_eq.trans (checkScript_eq_ok_iff.mpr ⟨rfl, hfault⟩)
  · have hsome :
        (Config.firstUnresolved? {} store path (importSites content dialect)).isSome = true :=
      List.find?_isSome.mpr ⟨site, hs, by rw [hn]; rfl⟩
    obtain ⟨first, hfirst⟩ := Option.isSome_iff_exists.mp hsome
    obtain ⟨hnone, earlier, later, hsites, hearlier⟩ := List.find?_eq_some_iff_append.mp hfirst
    refine ⟨earlier, first, later, hsites, fun other hm => ?_, Option.isNone_iff_eq_none.mp hnone,
      Draft.output_of_unresolved hk hr hfirst⟩
    simpa using hearlier other hm
  · exact Draft.dependencies_of_script hk hr

/-- A statement for a stylesheet is dropped, with the call behind it on its line left in place. -/
theorem Memo.transform_substitutes_of_stylesheet :
    let content := "import './a.css'; import('./b');\nexport { b } from './b';\n"
    let store := ((Store.empty.attempt (.createFile "/App.jsx" content)).attempt
      (.createFile "/a.css" "p { }")).attempt (.createFile "/b.js" "export default 1;\n")
    let path : Path := ⟨["App.jsx"]⟩
    let code := " import('/b.js');\nexport { b } from '/b.js';\n"
    ModuleKind.ofPath {} path = .script .jsx ∧
      (transform {} {} store path).2.output = .ok code ∧
      ∃ edits, List.Forall₂ (Config.Rewrites {} store path content) (importSites content .jsx) edits ∧
        Separate content.toList edits ∧ code = .ofList (substitute edits 0 content.toList) := by
  intro content store path code
  have hk : ModuleKind.ofPath {} path = .script .jsx := by decide +kernel
  have hr : store.read path.text = .ok content := by decide +kernel
  have ho : (transform {} {} store path).2.output = .ok code := by decide +kernel
  obtain ⟨found, edits, hread, hrewrites, hseparate, hcode, -⟩ :=
    ((Memo.transform_substitutes store hk).1 code).mp ho
  obtain rfl := Except.ok.inj (hread.symm.trans hr)
  exact ⟨hk, ho, edits, hrewrites, hseparate, hcode⟩

end LivePreview
