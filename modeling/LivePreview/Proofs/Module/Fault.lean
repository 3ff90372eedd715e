import LivePreview.Proofs.Module.Linked
import LivePreview.Proofs.Module.Memo
import LivePreview.Proofs.Source.Moved

/-!
# Faults of linked scripts

A script is checked when its specifiers are replaced, and its fault is reported where the linked text
has it. Where the edits are confined and what is dropped is neutral, that is the fault of the file
itself, on the same line. Only specifiers in front of it on the line move its column.
-/
namespace LivePreview

open Source

instance (markup : Bool) (front statement behind : List Char) :
    Decidable (Neutral markup front statement behind) :=
  decidable_of_iff
    ((readerAt markup (front ++ statement) behind).stack =
        (readerAt markup front (statement ++ behind)).stack ∧
      (readerAt markup (front ++ statement) behind).fault =
        (readerAt markup front (statement ++ behind)).fault)
    ⟨fun ⟨hs, hf⟩ => ⟨hs, hf⟩, fun h => ⟨h.stack, h.fault⟩⟩

instance (markup : Bool) (source : List Char) (site : ImportSite) :
    (e : SiteEdit) → Decidable (e.Neutral markup source site)
  | .swap _ => inferInstanceAs (Decidable True)
  | .drop breaks =>
    inferInstanceAs (Decidable (Neutral markup _ _ _ ∧ breaks = (Text.slice source _).count '\n'))

/-- The script at the path, behind its dialect. -/
def Config.script? (config : Config) (store : Store) (path : Path) : Option (Dialect × String) :=
  match ModuleKind.ofPath config path, store.read path.text with
  | .script dialect, .ok content => some (dialect, content)
  | _, _ => none

/-- The statements that are dropped from the script at the path leave nothing open, close nothing and
have no fault. -/
def Config.DropsNeutral (config : Config) (store : Store) (path : Path) : Prop :=
  ∀ script ∈ config.script? store path,
    ∀ link ∈ config.links store path (importSites script.2 script.1),
      (link.siteEdit config script.2).Neutral script.1.allowsMarkup script.2.toList link.site

instance (config : Config) (store : Store) (path : Path) :
    Decidable (config.DropsNeutral store path) := by
  unfold Config.DropsNeutral
  infer_instance

variable {config : Config} {store : Store} {path : Path} {dialect : Dialect} {content : String}

/-- A linked script has the fault of the script, moved by the edits. -/
theorem Config.IsScript.firstFault?_linked (h : config.IsScript store path dialect content)
    (hc : config.EditsConfined store path) (hn : config.DropsNeutral store path) :
    let edits := (config.scriptLinks store path dialect content).map (Link.edit config content)
    Option.Rel (Fault.Moved (Text.Relocated content edits)) (firstFault? content dialect)
      (firstFault? (Text.applyEdits content edits) dialect) := by
  have hscript : (dialect, content) ∈ config.script? store path := by
    rw [script?, h.kind, h.read]
    rfl
  have hneutral : ∀ e ∈ siteEdits config store path dialect content,
      e.2.Neutral dialect.allowsMarkup content.toList e.1 := by
    intro e he
    obtain ⟨link, hl, rfl⟩ := List.mem_map.mp he
    exact hn _ hscript link hl
  have hmoved := firstFault?_relinked h.map_fst_siteEdits (h.confined_siteEdits hc) hneutral
  rwa [map_edit_siteEdits] at hmoved

/-- A file of a kind and content that has a fault in its text is a script all of whose imports can be
resolved, and the fault is that of the linked text. -/
theorem Draft.fault_of_script (hk : ModuleKind.ofPath config path = .script dialect)
    (hr : store.read path.text = .ok content) {other : Path} {reported : SyntaxFault}
    (he : (ofPath config store path).output = .error (.malformed other reported)) :
    config.IsScript store path dialect content ∧ other = path ∧
      ∃ fault, reported = .script fault ∧ firstFault? (Text.applyEdits content
        ((config.scriptLinks store path dialect content).map (Link.edit config content)))
          dialect = some fault := by
  rcases output_of_script hk hr with ⟨cause, location, ho⟩ | ⟨h, ho⟩
  · rw [ho] at he
    cases he
  · rw [ho, checkScript_eq_error_iff] at he
    obtain ⟨fault, hfault, hreported⟩ := he
    obtain ⟨rfl, rfl⟩ := ModuleError.malformed.inj hreported
    exact ⟨h, rfl, fault, rfl, hfault⟩

/-- The fault that is reported of a script is the one of its own content, whatever the memo holds:
the same defect on the same line, at the place to which the edits in front of it take it. The column
is the same too unless a specifier in front of it on the line has changed its length. -/
theorem Memo.fault_of_transform (memo : Memo)
    (hk : ModuleKind.ofPath config path = .script dialect)
    (hr : store.read path.text = .ok content) (hc : config.EditsConfined store path)
    (hn : config.DropsNeutral store path) {other : Path} {reported : SyntaxFault}
    (he : (memo.transform config store path).2.output = .error (.malformed other reported)) :
    other = path ∧ ∃ fault fault', firstFault? content dialect = some fault ∧
      reported = .script fault' ∧ fault.Moved (Text.Relocated content
        ((config.scriptLinks store path dialect content).map (Link.edit config content))) fault' := by
  obtain ⟨h, hpath, fault', hreported, hfault'⟩ :=
    Draft.fault_of_script hk hr (Memo.output_of_error he)
  have hmoved := h.firstFault?_linked hc hn
  dsimp only at hmoved
  rw [hfault'] at hmoved
  generalize hfault : firstFault? content dialect = found at hmoved
  cases hmoved with
  | @some fault _ hm => exact ⟨hpath, fault, fault', rfl, hreported, hm⟩

/-- A bracket that is opened behind an import and not closed by the one that follows it. The import
has become longer, and so has the column that the message names; the line above it was dropped. -/
theorem Memo.fault_of_transform_of_longer_specifier :
    let content := "import './a.css';\nimport b from './b'; run(b\n];\n"
    let store := ((Store.empty.attempt (.createFile "/App.jsx" content)).attempt
      (.createFile "/a.css" "p { }\n")).attempt (.createFile "/b.js" "export default 1;\n")
    let path : Path := ⟨["App.jsx"]⟩
    let edits := (Config.scriptLinks {} store path .jsx content).map (Link.edit {} content)
    let fault : Fault := ⟨.mismatched (.bracket .round) ⟨2, 25⟩ ']', some ⟨3, 1⟩⟩
    let fault' : Fault := ⟨.mismatched (.bracket .round) ⟨2, 27⟩ ']', some ⟨3, 1⟩⟩
    Config.EditsConfined {} store path ∧ Config.DropsNeutral {} store path ∧
      (Memo.transform {} {} store path).2.output = .error (.malformed path (.script fault')) ∧
      firstFault? content .jsx = some fault ∧ fault.Moved (Text.Relocated content edits) fault' := by
  intro content store path edits fault fault'
  have hk : ModuleKind.ofPath {} path = .script .jsx := by decide +kernel
  have hr : store.read path.text = .ok content := by decide +kernel
  have hc : Config.EditsConfined {} store path := by decide +kernel
  have hn : Config.DropsNeutral {} store path := by decide +kernel
  have he : (Memo.transform {} {} store path).2.output =
      .error (.malformed path (.script fault')) := by decide +kernel
  have hf : firstFault? content .jsx = some fault := by decide +kernel
  obtain ⟨-, found, found', hfound, hreported, hmoved⟩ :=
    Memo.fault_of_transform {} hk hr hc hn he
  obtain rfl := Option.some.inj (hf.symm.trans hfound)
  obtain rfl := SyntaxFault.script.inj hreported
  exact ⟨hc, hn, he, hf, hmoved⟩

/-- A bracket behind a specifier that has become longer is not reported where the file has it. -/
theorem Memo.fault_elsewhere_of_longer_specifier :
    let content := "import b from './b'; (\n"
    let store := (Store.empty.attempt (.createFile "/App.jsx" content)).attempt
      (.createFile "/b.js" "export default 1;\n")
    let path : Path := ⟨["App.jsx"]⟩
    let fault : Fault := ⟨.unclosed (.bracket .round), some ⟨1, 22⟩⟩
    let reported : Fault := ⟨.unclosed (.bracket .round), some ⟨1, 24⟩⟩
    store.Reachable ∧ ModuleKind.ofPath {} path = .script .jsx ∧
      store.read path.text = .ok content ∧ firstFault? content .jsx = some fault ∧
      (Memo.transform {} {} store path).2.output = .error (.malformed path (.script reported)) ∧
      reported.location ≠ fault.location := by
  intro content store path fault reported
  exact ⟨.attempted _ (.attempted _ .empty), by decide +kernel, by decide +kernel,
    by decide +kernel, by decide +kernel, by decide⟩

end LivePreview
