import LivePreview.Proofs.Store.Step
import LivePreview.Proofs.Yaml.Node

/-!
# Documents as they are read

Every document of a stream is `Loaded`: scalars are read as integers only within 64 bits, and a
mapping takes in an entry in the place of the one with the same text as its key. The nodes that a
composer remembers under their anchors are of that kind from the start, so that references lead to
no others.
-/
namespace LivePreview.Yaml

/-! ### Scalars -/

namespace Scalar

theorem fits_integer {base : Nat} {text : List Char} {number : Int}
    (h : integer? base text = some number) : (Scalar.integer number).Fits := by
  unfold integer? at h
  obtain ⟨negative, digits⟩ := Decimal.takeSign text
  dsimp only at h
  split at h
  · cases h
  · obtain ⟨value, -, h⟩ := Option.bind_eq_some_iff.mp h
    obtain ⟨hrange, he⟩ := Option.ite_none_right_eq_some.mp h
    obtain rfl := Option.some.inj he
    rintro _ ⟨⟩
    exact hrange

theorem fits_marked {text : List Char} {number : Int} (h : marked? text = some number) :
    (Scalar.integer number).Fits := by
  unfold marked? at h
  split at h
  · exact fits_integer h
  · exact fits_integer h
  · exact fits_integer h
  · cases h

theorem fits_ofPlain (text : String) : (ofPlain text).Fits := by
  unfold ofPlain
  split
  · rename_i number h
    exact fits_marked h
  · split
    · exact fun _ h => nomatch h
    · split
      · exact fun _ h => nomatch h
      · split
        · exact fun _ h => nomatch h
        · split
          · rename_i number h
            exact fits_integer h
          · split
            · exact fun _ h => nomatch h
            · exact fun _ h => nomatch h

theorem fits_ofTagged {name text : String} {value : Scalar} (h : ofTagged? name text = some value) :
    value.Fits := by
  unfold ofTagged? at h
  split at h
  · split at h
    · obtain rfl := Option.some.inj h
      exact fun _ h => nomatch h
    · split at h
      · obtain rfl := Option.some.inj h
        exact fun _ h => nomatch h
      · cases h
  · obtain ⟨number, hn, rfl⟩ := Option.map_eq_some_iff.mp h
    exact fits_integer hn
  · obtain ⟨number, hn, rfl⟩ := Option.map_eq_some_iff.mp h
    exact fun _ h => nomatch h
  · split at h
    · obtain rfl := Option.some.inj h
      exact fun _ h => nomatch h
    · cases h
  · obtain rfl := Option.some.inj h
    exact fun _ h => nomatch h
  · cases h

end Scalar

/-! ### Mappings -/

namespace Node

variable {entries : List (Node × Node)} {key value : Node}

theorem DistinctKeys.addEntry (h : DistinctKeys entries) (key value : Node) :
    DistinctKeys (addEntry entries key value) := by
  unfold DistinctKeys Node.addEntry at *
  cases hk : key.text? with
  | none => simpa [List.filterMap_append, hk] using h
  | some text =>
    rw [List.filterMap_append, List.nodup_append]
    refine ⟨h.sublist (List.filter_sublist.filterMap _), by simp [hk], fun a ha b hb => ?_⟩
    obtain ⟨entry, hm, he⟩ := List.mem_filterMap.mp ha
    have hother : entry.1.text? ≠ some text := by simpa using (List.mem_filter.mp hm).2
    obtain rfl : b = text := by simpa [hk] using hb
    rintro rfl
    exact hother he

theorem loaded_addEntry (h : Loaded (.mapping entries)) (hk : key.Loaded) (hv : value.Loaded) :
    Loaded (.mapping (addEntry entries key value)) := by
  cases h with
  | mapping hd hkeys hvalues =>
    have hsub : ∀ entry ∈ addEntry entries key value, entry ∈ entries ∨ entry = (key, value) := by
      intro entry hm
      unfold addEntry at hm
      rcases List.mem_append.mp hm with hm | hm
      · left
        split at hm
        · exact (List.mem_filter.mp hm).1
        · exact hm
      · exact Or.inr (List.mem_singleton.mp hm)
    refine .mapping (hd.addEntry key value) ?_ ?_
    · intro entry hm
      rcases hsub entry hm with hm | rfl
      · exact hkeys entry hm
      · exact hk
    · intro entry hm
      rcases hsub entry hm with hm | rfl
      · exact hvalues entry hm
      · exact hv

theorem loaded_pairUp {nodes : List Node} (h : Loaded (.mapping entries))
    (hn : ∀ node ∈ nodes, node.Loaded) : Loaded (.mapping (pairUp entries nodes)) := by
  induction entries, nodes using pairUp.induct with
  | case1 entries => exact h
  | case2 entries node => exact h
  | case3 entries key value rest hinvalid ih =>
    rw [pairUp, if_pos hinvalid]
    exact ih h (List.forall_mem_cons.mp hn).2
  | case4 entries key value rest hvalid ih =>
    obtain ⟨hk, hn⟩ := List.forall_mem_cons.mp hn
    obtain ⟨hv, hn⟩ := List.forall_mem_cons.mp hn
    rw [pairUp, if_neg hvalid]
    exact ih (loaded_addEntry h hk hv) hn

end Node

/-! ### Composing -/

namespace Compose

open Yaml.Node (Loaded)

/-- Started with loaded nodes under the anchors, the computation leaves such nodes and answers what
satisfies the condition. -/
def Keeps {α : Type} (P : α → Prop) (m : Compose α) : Prop :=
  ∀ c a c', (∀ entry ∈ c.nodes, entry.2.Loaded) → m c = .ok (a, c') →
    (∀ entry ∈ c'.nodes, entry.2.Loaded) ∧ P a

namespace Keeps

variable {α β : Type} {P : α → Prop} {Q : β → Prop}

theorem pure {a : α} (h : P a) : Keeps P (Pure.pure a : Compose α) := by
  intro c _ c' hc he
  obtain ⟨rfl, rfl⟩ := Prod.mk.inj (Except.ok.inj he)
  exact ⟨hc, h⟩

theorem throw (fault : Fault) : Keeps P (throwThe Fault fault : Compose α) :=
  fun _ _ _ _ he => nomatch he

theorem bind {m : Compose α} {f : α → Compose β} (hm : Keeps P m) (hf : ∀ a, P a → Keeps Q (f a)) :
    Keeps Q (m >>= f) := by
  intro c b c' hc he
  obtain ⟨⟨a, middle⟩, hfirst, he⟩ := bind_eq_ok.mp he
  obtain ⟨hmiddle, ha⟩ := hm c a middle hc hfirst
  exact hf a ha middle b c' hmiddle he

end Keeps

theorem keeps_peek : Keeps (fun _ => True) peek := by
  intro c a c' hc he
  obtain ⟨rfl, rfl⟩ := Prod.mk.inj (Except.ok.inj he)
  exact ⟨hc, trivial⟩

theorem keeps_skip : Keeps (fun _ => True) skip := by
  intro c a c' hc he
  obtain ⟨rfl, rfl⟩ := Prod.mk.inj (Except.ok.inj he)
  exact ⟨hc, trivial⟩

theorem keeps_get : Keeps (fun c => ∀ entry ∈ c.nodes, entry.2.Loaded) (get : Compose Composer) := by
  intro c a c' hc he
  obtain ⟨rfl, rfl⟩ := Prod.mk.inj (Except.ok.inj he)
  exact ⟨hc, hc⟩

theorem keeps_modify {f : Composer → Composer}
    (h : ∀ c, (∀ entry ∈ c.nodes, entry.2.Loaded) → ∀ entry ∈ (f c).nodes, entry.2.Loaded) :
    Keeps (fun _ => True) (modify f : Compose Unit) := by
  intro c a c' hc he
  obtain ⟨rfl, rfl⟩ := Prod.mk.inj (Except.ok.inj he)
  exact ⟨h c hc, trivial⟩

theorem keeps_registerAnchor (name : String) : Keeps (fun _ => True) (registerAnchor name) := by
  intro c a c' hc he
  obtain ⟨rfl, rfl⟩ := Prod.mk.inj (Except.ok.inj he)
  exact ⟨hc, trivial⟩

theorem keeps_resolveTag (handle suffix : String) :
    Keeps (fun _ => True) (resolveTag handle suffix) := by
  have hdeclared (handle : String) : Keeps (fun _ => True) (do
      return ((← get).tags.find? (·.1 = handle)).map (·.2) : Compose (Option String)) :=
    .bind keeps_get fun _ _ => .pure trivial
  unfold resolveTag
  dsimp only
  split
  · exact .bind (hdeclared _) fun _ _ => .pure trivial
  · split
    · exact .bind (hdeclared _) fun _ _ => .pure trivial
    · refine .bind (hdeclared _) fun found _ => ?_
      split
      · exact .pure trivial
      · split
        · exact .bind (P := fun _ => True) (.throw _) fun _ _ => .pure trivial
        · exact .pure trivial

theorem keeps_anchor? : Keeps (fun _ => True) anchor? := by
  unfold anchor?
  refine .bind keeps_peek fun kind _ => ?_
  split
  · exact .bind keeps_skip fun _ _ => .bind (keeps_registerAnchor _) fun _ _ => .pure trivial
  · exact .pure trivial

theorem keeps_tag? : Keeps (fun _ => True) tag? := by
  unfold tag?
  refine .bind keeps_peek fun kind _ => ?_
  split
  · exact .bind keeps_skip fun _ _ => .bind (keeps_resolveTag _ _) fun _ _ => .pure trivial
  · exact .pure trivial

theorem keeps_properties : Keeps (fun _ => True) properties := by
  unfold properties
  refine .bind keeps_anchor? fun anchor _ => ?_
  split
  · exact .bind keeps_tag? fun _ _ => .pure trivial
  · refine .bind keeps_tag? fun tag _ => ?_
    split
    · exact .bind keeps_anchor? fun _ _ => .pure trivial
    · exact .pure trivial

theorem keeps_finish (properties : Properties) {node : Node} (h : node.Loaded) :
    Keeps Loaded (finish properties node) := by
  unfold finish
  split
  · refine .bind (keeps_modify fun c hc entry hm => ?_) fun _ _ => .pure h
    rcases List.mem_cons.mp hm with rfl | hm
    · exact h
    · exact hc entry hm
  · exact .pure h

theorem loaded_scalarNode (style : ScalarStyle) (text : String) (tag : Option Tag) :
    (scalarNode style text tag).Loaded := by
  have htext (text : String) : Loaded (.scalar (.text text)) := .scalar fun _ h => nomatch h
  unfold scalarNode
  split
  · split
    · exact .scalar (Scalar.fits_ofPlain text)
    · exact htext text
  · split
    · exact .tagged (htext text)
    · split
      · exact htext text
      · rename_i tag _ _
        cases hv : Scalar.ofTagged? tag.suffix text with
        | none => exact .invalid
        | some value => exact .scalar (Scalar.fits_ofTagged hv)

theorem loaded_underTag (tag : Option Tag) {node : Node} (h : node.Loaded) :
    (underTag tag node).Loaded := by
  unfold underTag
  split
  · split
    · exact h
    · exact .tagged h
  · exact h

theorem loaded_null : null.Loaded := .scalar fun _ h => nomatch h

theorem loaded_mapping_nil : Loaded (.mapping []) :=
  .mapping List.nodup_nil (fun _ hm => nomatch hm) (fun _ hm => nomatch hm)

theorem keeps_finishScalar (properties : Properties) (style : ScalarStyle) (text : String) :
    Keeps Loaded (finishScalar properties style text) :=
  keeps_finish properties (loaded_scalarNode style text _)

theorem keeps_finishSequence (properties : Properties) {items : List Node}
    (h : ∀ item ∈ items, item.Loaded) : Keeps Loaded (finishSequence properties items) :=
  keeps_finish properties (loaded_underTag _ (.sequence h))

theorem keeps_finishMapping (properties : Properties) {nodes : List Node}
    (h : ∀ node ∈ nodes, node.Loaded) : Keeps Loaded (finishMapping properties nodes) :=
  keeps_finish properties (loaded_underTag _ (Node.loaded_pairUp loaded_mapping_nil h))

theorem keeps_missing (properties : Properties) : Keeps Loaded (missing properties) := by
  unfold missing
  split
  · exact keeps_finishScalar _ _ _
  · exact .throw _

theorem keeps_null : Keeps Loaded (Pure.pure null : Compose Node) := .pure loaded_null

theorem keeps_orNull (ends : List TokenKind) {node : Compose Node} (h : Keeps Loaded node) :
    Keeps Loaded (orNull ends node) := by
  unfold orNull
  refine .bind keeps_peek fun kind _ => ?_
  split
  · exact keeps_null
  · exact h

theorem keeps_behind (indicator : TokenKind) (ends : List TokenKind) {node : Compose Node}
    (h : Keeps Loaded node) : Keeps Loaded (behind indicator ends node) := by
  unfold behind
  refine .bind keeps_peek fun kind _ => ?_
  split
  · exact .bind keeps_skip fun _ _ => keeps_orNull ends h
  · exact keeps_null

/-- What is composed within a number of levels is loaded. -/
structure Sound (fuel : Nat) : Prop where
  node : ∀ block indentless, Keeps Loaded (node block indentless fuel)
  blockItems : Keeps (∀ item ∈ ·, item.Loaded) (blockItems fuel)
  indentlessItems : Keeps (∀ item ∈ ·, item.Loaded) (indentlessItems fuel)
  blockEntries : Keeps (∀ node ∈ ·, node.Loaded) (blockEntries fuel)
  flowItems : ∀ first, Keeps (∀ item ∈ ·, item.Loaded) (flowItems first fuel)
  flowPair : Keeps (∀ node ∈ ·, node.Loaded) (flowPair fuel)
  flowEntries : ∀ first, Keeps (∀ node ∈ ·, node.Loaded) (flowEntries first fuel)

variable {fuel : Nat}

theorem sound_zero : Sound 0 where
  node _ _ := .throw _
  blockItems := .throw _
  indentlessItems := .throw _
  blockEntries := .throw _
  flowItems _ := .throw _
  flowPair := .throw _
  flowEntries _ := .throw _

theorem Sound.node_succ (h : Sound fuel) (block indentless : Bool) :
    Keeps Loaded (Compose.node block indentless (fuel + 1)) := by
  rw [Compose.node]
  refine .bind keeps_peek fun kind _ => ?_
  dsimp only
  split
  · refine .bind keeps_skip fun _ _ => .bind keeps_get fun c hc => ?_
    split
    · exact .bind (P := fun _ => False) (.throw _) fun _ hf => hf.elim
    · refine .pure ?_
      cases hf : c.nodes.find? _ with
      | none => exact .invalid
      | some entry => exact hc entry (List.mem_of_find?_eq_some hf)
  · refine .bind keeps_properties fun properties _ => .bind keeps_peek fun kind _ => ?_
    split
    · exact .bind keeps_skip fun _ _ => keeps_finishScalar _ _ _
    · exact .bind keeps_skip fun _ _ => .bind (h.flowItems true) fun _ => keeps_finishSequence _
    · exact .bind keeps_skip fun _ _ => .bind (h.flowEntries true) fun _ => keeps_finishMapping _
    · split
      · exact .bind h.indentlessItems fun _ => keeps_finishSequence _
      · exact keeps_missing _
    · split
      · exact .bind keeps_skip fun _ _ => .bind h.blockItems fun _ => keeps_finishSequence _
      · exact keeps_missing _
    · split
      · exact .bind keeps_skip fun _ _ => .bind h.blockEntries fun _ => keeps_finishMapping _
      · exact keeps_missing _
    · exact keeps_missing _

/-- One item more in front. -/
theorem Keeps.cons {m : Compose (List Node)} {item : Node} (hi : item.Loaded)
    (h : Keeps (∀ item ∈ ·, item.Loaded) m) :
    Keeps (∀ item ∈ ·, item.Loaded) (do return item :: (← m)) :=
  .bind h fun _ hrest => .pure (List.forall_mem_cons.mpr ⟨hi, hrest⟩)

/-- One key more in front, with its value. -/
theorem Keeps.cons_cons {m : Compose (List Node)} {key value : Node} (hk : key.Loaded)
    (hv : value.Loaded) (h : Keeps (∀ node ∈ ·, node.Loaded) m) :
    Keeps (∀ node ∈ ·, node.Loaded) (do return key :: value :: (← m)) :=
  .bind h fun _ hrest =>
    .pure (List.forall_mem_cons.mpr ⟨hk, List.forall_mem_cons.mpr ⟨hv, hrest⟩⟩)

theorem keeps_nil : Keeps (∀ item ∈ ·, item.Loaded) (Pure.pure [] : Compose (List Node)) :=
  .pure fun _ hm => nomatch hm

theorem Sound.blockItems_succ (h : Sound fuel) :
    Keeps (∀ item ∈ ·, item.Loaded) (Compose.blockItems (fuel + 1)) := by
  rw [Compose.blockItems]
  refine .bind keeps_peek fun kind _ => ?_
  split
  · exact .bind keeps_skip fun _ _ => keeps_nil
  · refine .bind keeps_skip fun _ _ => .bind (keeps_orNull _ (h.node true false)) fun _ hi => ?_
    exact .cons hi h.blockItems
  · exact .throw _

theorem Sound.indentlessItems_succ (h : Sound fuel) :
    Keeps (∀ item ∈ ·, item.Loaded) (Compose.indentlessItems (fuel + 1)) := by
  rw [Compose.indentlessItems]
  refine .bind keeps_peek fun kind _ => ?_
  split
  · refine .bind keeps_skip fun _ _ => .bind (keeps_orNull _ (h.node true false)) fun _ hi => ?_
    exact .cons hi h.indentlessItems
  · exact keeps_nil

theorem Sound.blockEntries_succ (h : Sound fuel) :
    Keeps (∀ node ∈ ·, node.Loaded) (Compose.blockEntries (fuel + 1)) := by
  have hpair := Keeps.bind (keeps_behind .key [.key, .value, .blockEnd] (h.node true true))
    fun _ hk => Keeps.bind (keeps_behind .value [.key, .value, .blockEnd] (h.node true true))
      fun _ hv => Keeps.cons_cons hk hv h.blockEntries
  rw [Compose.blockEntries]
  refine .bind keeps_peek fun kind _ => ?_
  split
  · exact .bind keeps_skip fun _ _ => keeps_nil
  · exact hpair
  · exact hpair
  · exact .throw _

theorem Sound.flowPair_succ (h : Sound fuel) :
    Keeps (∀ node ∈ ·, node.Loaded) (Compose.flowPair (fuel + 1)) := by
  have hpair {key value : Node} (hk : key.Loaded) (hv : value.Loaded) :
      Keeps (∀ node ∈ ·, node.Loaded) (Pure.pure [key, value] : Compose (List Node)) :=
    .pure (by simp [hk, hv])
  have hvalue (key : Node) (hk : key.Loaded) :=
    Keeps.bind (keeps_behind .value [.flowEntry, .flowSequenceEnd] (h.node false false))
      fun value hv => hpair hk hv
  rw [Compose.flowPair]
  refine .bind keeps_peek fun kind _ => ?_
  dsimp only
  split
  · exact .bind keeps_skip fun _ _ => .bind keeps_null hvalue
  · exact .bind keeps_skip fun _ _ => .bind keeps_null hvalue
  · exact .bind keeps_skip fun _ _ => .bind keeps_null hvalue
  · exact .bind (h.node false false) hvalue

/-- A comma in front of every entry but the first. -/
theorem keeps_separated {α : Type} {P : α → Prop} (first : Bool) {m : Compose α} (h : Keeps P m) :
    Keeps P (do
      if !first then
        if (← peek) ≠ .flowEntry then throw .badCollection
        skip
      m) := by
  dsimp only
  split
  · refine .bind keeps_peek fun kind _ => ?_
    split
    · exact .bind (P := fun _ => False) (.throw _) fun _ hf => hf.elim
    · exact .bind keeps_skip fun _ _ => h
  · exact h

theorem Sound.flowItems_succ (h : Sound fuel) (first : Bool) :
    Keeps (∀ item ∈ ·, item.Loaded) (Compose.flowItems first (fuel + 1)) := by
  rw [Compose.flowItems]
  refine .bind keeps_peek fun kind _ => ?_
  split
  · exact .bind keeps_skip fun _ _ => keeps_nil
  · refine keeps_separated first (.bind keeps_peek fun kind _ => ?_)
    split
    · exact .bind keeps_skip fun _ _ => keeps_nil
    · refine .bind keeps_skip fun _ _ => .bind h.flowPair fun pair hp => ?_
      exact .cons (Node.loaded_pairUp loaded_mapping_nil hp) (h.flowItems false)
    · exact .bind (h.node false false) fun _ hi => .cons hi (h.flowItems false)

theorem Sound.flowEntries_succ (h : Sound fuel) (first : Bool) :
    Keeps (∀ node ∈ ·, node.Loaded) (Compose.flowEntries first (fuel + 1)) := by
  have hentry (key : Node) (hk : key.Loaded) :=
    Keeps.bind (keeps_behind .value [.flowEntry, .flowMappingEnd] (h.node false false))
      fun value hv => Keeps.cons_cons hk hv (h.flowEntries false)
  rw [Compose.flowEntries]
  refine .bind keeps_peek fun kind _ => ?_
  split
  · exact .bind keeps_skip fun _ _ => keeps_nil
  · refine keeps_separated first (.bind keeps_peek fun kind _ => ?_)
    split
    · exact .bind keeps_skip fun _ _ => keeps_nil
    · exact .bind keeps_skip fun _ _ => .bind (keeps_orNull _ (h.node false false)) hentry
    · exact hentry null loaded_null
    · exact .bind (h.node false false) fun _ hk => .cons_cons hk loaded_null (h.flowEntries false)

theorem sound (fuel : Nat) : Sound fuel := by
  induction fuel with
  | zero => exact sound_zero
  | succ fuel ih =>
    exact
      { node := ih.node_succ
        blockItems := ih.blockItems_succ
        indentlessItems := ih.indentlessItems_succ
        blockEntries := ih.blockEntries_succ
        flowItems := ih.flowItems_succ
        flowPair := ih.flowPair_succ
        flowEntries := ih.flowEntries_succ }

/-! ### Documents -/

theorem keeps_directives (hasVersion : Bool) (fuel : Nat) :
    Keeps (fun _ => True) (directives hasVersion fuel) := by
  have hdeclare (tags : List (String × String)) : Keeps (fun _ => True)
      (modify fun c => { c with tags, rest := c.rest.tail } : Compose Unit) :=
    keeps_modify fun _ hc => hc
  induction fuel generalizing hasVersion with
  | zero => exact .pure trivial
  | succ fuel ih =>
    rw [directives]
    refine .bind keeps_peek fun kind _ => ?_
    dsimp only
    split
    · split
      · exact .bind (P := fun _ => False) (.throw _) fun _ hf => hf.elim
      · exact .bind (hdeclare _) fun _ _ => ih true
    · exact .bind (hdeclare _) fun _ _ => ih hasVersion
    · exact .bind (hdeclare _) fun _ _ => ih hasVersion
    · exact .pure trivial

theorem keeps_skipDocumentEnds (fuel : Nat) : Keeps (fun _ => True) (skipDocumentEnds fuel) := by
  induction fuel with
  | zero => exact .pure trivial
  | succ fuel ih =>
    rw [skipDocumentEnds]
    refine .bind keeps_peek fun kind _ => ?_
    split
    · exact .bind keeps_skip fun _ _ => ih
    · exact .pure trivial

theorem keeps_documents (implicit : Bool) (fuel : Nat) :
    Keeps (∀ document ∈ ·, document.Loaded) (documents implicit fuel) := by
  induction fuel generalizing implicit with
  | zero => exact keeps_nil
  | succ fuel ih =>
    -- What follows a document is the same for one with a start marker and one without.
    have hrest (document : Node) (hd : document.Loaded) :
        Keeps (∀ document ∈ ·, document.Loaded) (do
          let ended := (← peek) = .documentEnd
          if ended then skip
          else if isDirective (← peek) then throw .badDirective
          modify fun c => { c with tags := [], anchors := [] }
          return document :: (← documents ended fuel) : Compose (List Node)) := by
      have hnext (ended : Bool) : Keeps (∀ document ∈ ·, document.Loaded) (do
          modify fun c => { c with tags := [], anchors := [] }
          return document :: (← documents ended fuel) : Compose (List Node)) :=
        .bind (keeps_modify fun _ hc => hc) fun _ _ => .cons hd (ih ended)
      refine .bind keeps_peek fun kind _ => ?_
      dsimp only
      split
      · exact .bind keeps_skip fun _ _ => hnext _
      · refine .bind keeps_peek fun kind _ => ?_
        split
        · exact .bind (P := fun _ => False) (.throw _) fun _ hf => hf.elim
        · exact hnext _
    rw [Compose.documents]
    refine .bind (keeps_skipDocumentEnds fuel) fun _ _ => .bind keeps_get fun c _ => ?_
    refine .bind keeps_peek fun start _ => ?_
    dsimp only
    split
    · exact keeps_nil
    · split
      · exact .bind ((sound _).node true false) hrest
      · refine .bind (keeps_directives false _) fun _ _ => .bind keeps_peek fun kind _ => ?_
        split
        · exact .bind (P := fun _ => False) (.throw _) fun _ hf => hf.elim
        · refine .bind keeps_skip fun _ _ => .bind keeps_peek fun content _ => ?_
          split
          · exact .bind keeps_null hrest
          · exact .bind ((sound _).node true false) hrest

end Compose

/-- Every document of a stream is loaded. -/
theorem loaded_of_documents {text : String} {read : List Node} (h : documents text = .ok read) :
    ∀ document ∈ read, document.Loaded := by
  unfold documents at h
  obtain ⟨tokens, -, h⟩ := bind_eq_ok.mp h
  obtain ⟨⟨composed, c⟩, hrun, h⟩ := bind_eq_ok.mp h
  obtain rfl := Except.ok.inj h
  exact (Compose.keeps_documents true _ _ _ _ (fun _ hm => absurd hm List.not_mem_nil) hrun).2

end LivePreview.Yaml
