import Mathlib.Data.List.Forall2
import LivePreview.Command.Script
import LivePreview.Proofs.Yaml.Document

/-!
# Reading scripts

A step is written as a mapping of its operation and the fields of its command. A list of such
mappings is read back into the steps that were written, in whatever order their entries stand and
whatever stands beside them. `Denotes` lists everything else that is read as a step; the first entry
of a script that is not read is the one that the error names.
-/
namespace LivePreview

open Yaml (Scalar)
open Yaml.Node (DistinctKeys Loaded field? field?_eq_some_iff field?_eq_none_iff)

/-! ### Writing steps -/

namespace Command

/-- The name of the command in a script. -/
def operation : Command → String
  | createFile _ _ => "create"
  | updateFile _ _ => "update"
  | createDirectory _ => "mkdir"
  | deleteFile _ => "delete"
  | deleteDirectory _ => "rmdir"
  | rename _ _ => "rename"
  | replaceInFile _ _ _ => "replace"
  | insertInFile _ _ _ => "insert"

/-- What a script gives beside the operation. -/
def fields : Command → List (String × Scalar)
  | createFile path content => [("path", .text path), ("content", .text content)]
  | updateFile path content => [("path", .text path), ("content", .text content)]
  | createDirectory path => [("path", .text path)]
  | deleteFile path => [("path", .text path)]
  | deleteDirectory path => [("path", .text path)]
  | rename source target => [("from", .text source), ("to", .text target)]
  | replaceInFile path old new => [("path", .text path), ("old", .text old), ("new", .text new)]
  | insertInFile path line text =>
    [("path", .text path), ("line", .integer line.toNat), ("text", .text text)]

end Command

namespace ScriptStep

def fields : ScriptStep → List (String × Scalar)
  | command edit => ("op", .text edit.operation) :: edit.fields
  | refresh => [("op", .text "refresh")]

/-- The entry is a mapping in which the fields of the step stand, anywhere and among others. -/
def Gives (entry : Yaml.Node) (step : ScriptStep) : Prop :=
  ∃ fields, entry = .mapping fields ∧
    ∀ field ∈ step.fields, (.scalar (.text field.1), .scalar field.2) ∈ fields

/-- The mapping that holds the fields of the step and nothing else. -/
def written (step : ScriptStep) : Yaml.Node :=
  .mapping (step.fields.map fun field => (.scalar (.text field.1), .scalar field.2))

/-! ### What is read as a step -/

/-- There is a scalar at the key that has the text. -/
def HasText (fields : Fields) (name text : String) : Prop :=
  ∃ value : Scalar, (.scalar (.text name), .scalar value) ∈ fields ∧ value.asText? = some text

def Lacks (fields : Fields) (name : String) : Prop :=
  ∀ value, (.scalar (.text name), value) ∉ fields

/-- The fields name an operation and have all that it needs. -/
inductive Denotes (fields : Fields) : ScriptStep → Prop
  | createFile {path content : String} (ho : HasText fields "op" "create")
      (hp : HasText fields "path" path) (hc : HasText fields "content" content) :
      Denotes fields (.command (.createFile path content))
  | createEmpty {path : String} (ho : HasText fields "op" "create")
      (hp : HasText fields "path" path) (hc : Lacks fields "content") :
      Denotes fields (.command (.createFile path ""))
  | updateFile {path content : String} (ho : HasText fields "op" "update")
      (hp : HasText fields "path" path) (hc : HasText fields "content" content) :
      Denotes fields (.command (.updateFile path content))
  | createDirectory {path : String} (ho : HasText fields "op" "mkdir")
      (hp : HasText fields "path" path) : Denotes fields (.command (.createDirectory path))
  | deleteFile {path : String} (ho : HasText fields "op" "delete")
      (hp : HasText fields "path" path) : Denotes fields (.command (.deleteFile path))
  | deleteDirectory {path : String} (ho : HasText fields "op" "rmdir")
      (hp : HasText fields "path" path) : Denotes fields (.command (.deleteDirectory path))
  | rename {source target : String} (ho : HasText fields "op" "rename")
      (hs : HasText fields "from" source) (ht : HasText fields "to" target) :
      Denotes fields (.command (.rename source target))
  | replaceInFile {path old new : String} (ho : HasText fields "op" "replace")
      (hp : HasText fields "path" path) (hold : HasText fields "old" old)
      (hnew : HasText fields "new" new) :
      Denotes fields (.command (.replaceInFile path old new))
  | insertInFile {path text : String} {line : UInt64} (ho : HasText fields "op" "insert")
      (hp : HasText fields "path" path)
      (hl : (.scalar (.text "line"), .scalar (.integer line.toNat)) ∈ fields)
      (ht : HasText fields "text" text) :
      Denotes fields (.command (.insertInFile path line text))
  | refresh (ho : HasText fields "op" "refresh") : Denotes fields .refresh

def IsStep (entry : Yaml.Node) : Prop :=
  ∃ fields step, entry = .mapping fields ∧ Denotes fields step

variable {fields : Fields} {name text : String} {step : ScriptStep} {entry : Yaml.Node}

theorem optionalText_eq_text_iff (hd : DistinctKeys fields) :
    optionalText fields name = .ok (some text) ↔ HasText fields name text := by
  unfold optionalText HasText
  simp only [← field?_eq_some_iff hd]
  cases field? name fields with
  | none => simp
  | some node =>
    cases node with
    | scalar value => cases hv : value.asText? <;> simp [Yaml.Node.scalarText?, hv]
    | _ => simp [Yaml.Node.scalarText?]

theorem optionalText_eq_none_iff (hd : DistinctKeys fields) :
    optionalText fields name = .ok none ↔ Lacks fields name := by
  unfold optionalText Lacks
  rw [← field?_eq_none_iff hd]
  cases field? name fields with
  | none => simp
  | some node => cases hn : node.scalarText? <;> simp [hn]

theorem requiredText_eq_ok_iff (hd : DistinctKeys fields) :
    requiredText fields name = .ok text ↔ HasText fields name text := by
  rw [← optionalText_eq_text_iff hd, requiredText, bind_eq_ok]
  constructor
  · rintro ⟨found, hfound, h⟩
    cases found with
    | none => cases h
    | some found =>
      obtain rfl := Except.ok.inj h
      exact hfound
  · intro h
    exact ⟨some text, h, rfl⟩

/-- An integer that was read is the line itself: it has 64 bits and is not negative. -/
theorem requiredLine_eq_ok_iff (h : Loaded (.mapping fields)) {line : UInt64} :
    requiredLine fields = .ok line ↔
      (.scalar (.text "line"), .scalar (.integer line.toNat)) ∈ fields := by
  cases h with
  | mapping hd hk hv =>
    rw [← field?_eq_some_iff hd, requiredLine]
    cases hf : field? "line" fields with
    | none => simp
    | some node =>
      cases node with
      | scalar value =>
        cases value with
        | integer number =>
          have hm := (field?_eq_some_iff hd).mp hf
          have hfits : number ≤ Int64.maxValue.toInt := by
            cases hv _ hm with
            | scalar hfits => exact (hfits number rfl).2
          have hmax : Int64.maxValue.toInt = 9223372036854775807 := by decide
          dsimp only
          simp only [Option.some.injEq, Yaml.Node.scalar.injEq, Scalar.integer.injEq]
          split
          · simp only [reduceCtorEq, false_iff]
            omega
          · have hline := line.toNat_lt
            rw [Except.ok.injEq, ← UInt64.toNat_inj, UInt64.toNat_ofNat']
            omega
        | _ => simp
      | _ => simp

theorem denotes_of_ofFields (h : Loaded (.mapping fields)) (hr : ofFields fields = .ok step) :
    Denotes fields step := by
  have hd := h.distinctKeys
  have htext {name text : String} : requiredText fields name = .ok text ↔ HasText fields name text :=
    requiredText_eq_ok_iff hd
  unfold ofFields at hr
  obtain ⟨operation, ho, hr⟩ := bind_eq_ok.mp hr
  replace ho := htext.mp ho
  split at hr
  · obtain ⟨path, hp, hr⟩ := bind_eq_ok.mp hr
    obtain ⟨content, hc, hr⟩ := bind_eq_ok.mp hr
    obtain rfl := Except.ok.inj hr
    cases content with
    | none => exact .createEmpty ho (htext.mp hp) ((optionalText_eq_none_iff hd).mp hc)
    | some content => exact .createFile ho (htext.mp hp) ((optionalText_eq_text_iff hd).mp hc)
  · obtain ⟨path, hp, hr⟩ := bind_eq_ok.mp hr
    obtain ⟨content, hc, hr⟩ := bind_eq_ok.mp hr
    obtain rfl := Except.ok.inj hr
    exact .updateFile ho (htext.mp hp) (htext.mp hc)
  · obtain ⟨path, hp, hr⟩ := bind_eq_ok.mp hr
    obtain rfl := Except.ok.inj hr
    exact .createDirectory ho (htext.mp hp)
  · obtain ⟨path, hp, hr⟩ := bind_eq_ok.mp hr
    obtain rfl := Except.ok.inj hr
    exact .deleteFile ho (htext.mp hp)
  · obtain ⟨path, hp, hr⟩ := bind_eq_ok.mp hr
    obtain rfl := Except.ok.inj hr
    exact .deleteDirectory ho (htext.mp hp)
  · obtain ⟨source, hs, hr⟩ := bind_eq_ok.mp hr
    obtain ⟨target, ht, hr⟩ := bind_eq_ok.mp hr
    obtain rfl := Except.ok.inj hr
    exact .rename ho (htext.mp hs) (htext.mp ht)
  · obtain ⟨path, hp, hr⟩ := bind_eq_ok.mp hr
    obtain ⟨old, hold, hr⟩ := bind_eq_ok.mp hr
    obtain ⟨new, hnew, hr⟩ := bind_eq_ok.mp hr
    obtain rfl := Except.ok.inj hr
    exact .replaceInFile ho (htext.mp hp) (htext.mp hold) (htext.mp hnew)
  · obtain ⟨path, hp, hr⟩ := bind_eq_ok.mp hr
    obtain ⟨line, hl, hr⟩ := bind_eq_ok.mp hr
    obtain ⟨text, ht, hr⟩ := bind_eq_ok.mp hr
    obtain rfl := Except.ok.inj hr
    exact .insertInFile ho (htext.mp hp) ((requiredLine_eq_ok_iff h).mp hl) (htext.mp ht)
  · obtain rfl := Except.ok.inj hr
    exact .refresh ho
  · cases hr

theorem ofFields_of_denotes (h : Loaded (.mapping fields)) (hs : Denotes fields step) :
    ofFields fields = .ok step := by
  have hd := h.distinctKeys
  have htext {name text : String} : requiredText fields name = .ok text ↔ HasText fields name text :=
    requiredText_eq_ok_iff hd
  unfold ofFields
  cases hs with
  | createFile ho hp hc =>
    exact bind_eq_ok.mpr ⟨_, htext.mpr ho, bind_eq_ok.mpr ⟨_, htext.mpr hp,
      bind_eq_ok.mpr ⟨_, (optionalText_eq_text_iff hd).mpr hc, rfl⟩⟩⟩
  | createEmpty ho hp hc =>
    exact bind_eq_ok.mpr ⟨_, htext.mpr ho, bind_eq_ok.mpr ⟨_, htext.mpr hp,
      bind_eq_ok.mpr ⟨_, (optionalText_eq_none_iff hd).mpr hc, rfl⟩⟩⟩
  | updateFile ho hp hc =>
    exact bind_eq_ok.mpr ⟨_, htext.mpr ho, bind_eq_ok.mpr ⟨_, htext.mpr hp,
      bind_eq_ok.mpr ⟨_, htext.mpr hc, rfl⟩⟩⟩
  | createDirectory ho hp | deleteFile ho hp | deleteDirectory ho hp =>
    exact bind_eq_ok.mpr ⟨_, htext.mpr ho, bind_eq_ok.mpr ⟨_, htext.mpr hp, rfl⟩⟩
  | rename ho hs ht =>
    exact bind_eq_ok.mpr ⟨_, htext.mpr ho, bind_eq_ok.mpr ⟨_, htext.mpr hs,
      bind_eq_ok.mpr ⟨_, htext.mpr ht, rfl⟩⟩⟩
  | replaceInFile ho hp hold hnew =>
    exact bind_eq_ok.mpr ⟨_, htext.mpr ho, bind_eq_ok.mpr ⟨_, htext.mpr hp,
      bind_eq_ok.mpr ⟨_, htext.mpr hold, bind_eq_ok.mpr ⟨_, htext.mpr hnew, rfl⟩⟩⟩⟩
  | insertInFile ho hp hl ht =>
    exact bind_eq_ok.mpr ⟨_, htext.mpr ho, bind_eq_ok.mpr ⟨_, htext.mpr hp,
      bind_eq_ok.mpr ⟨_, (requiredLine_eq_ok_iff h).mpr hl,
        bind_eq_ok.mpr ⟨_, htext.mpr ht, rfl⟩⟩⟩⟩
  | refresh ho => exact bind_eq_ok.mpr ⟨_, htext.mpr ho, rfl⟩

/-- The steps that are read are those that the fields denote. -/
theorem ofFields_eq_ok_iff (h : Loaded (.mapping fields)) :
    ofFields fields = .ok step ↔ Denotes fields step :=
  ⟨denotes_of_ofFields h, ofFields_of_denotes h⟩

theorem ofNode_eq_ok_iff (h : entry.Loaded) :
    ofNode entry = .ok step ↔ ∃ fields, entry = .mapping fields ∧ Denotes fields step := by
  unfold ofNode
  cases entry with
  | mapping fields =>
    rw [Yaml.Node.entries?]
    dsimp only
    rw [ofFields_eq_ok_iff h]
    constructor
    · intro hs
      exact ⟨fields, rfl, hs⟩
    · rintro ⟨_, he, hs⟩
      obtain rfl := Yaml.Node.mapping.inj he
      exact hs
  | _ => simp [Yaml.Node.entries?]

theorem isStep_iff (h : entry.Loaded) : IsStep entry ↔ ∃ step, ofNode entry = .ok step := by
  simp only [ofNode_eq_ok_iff h]
  exact exists_comm

theorem hasText_of_mem (h : (.scalar (.text name), .scalar (.text text)) ∈ fields) :
    HasText fields name text :=
  ⟨.text text, h, rfl⟩

/-- What gives the fields of a step denotes it. -/
theorem Gives.denotes (h : Gives entry step) :
    ∃ fields, entry = .mapping fields ∧ Denotes fields step := by
  obtain ⟨fields, rfl, h⟩ := h
  refine ⟨fields, rfl, ?_⟩
  cases step with
  | refresh => exact .refresh (hasText_of_mem (h _ List.mem_cons_self))
  | command edit =>
    obtain ⟨ho, h⟩ := List.forall_mem_cons.mp h
    replace ho := hasText_of_mem ho
    cases edit with
    | createFile path content =>
      obtain ⟨hp, h⟩ := List.forall_mem_cons.mp h
      obtain ⟨hc, -⟩ := List.forall_mem_cons.mp h
      exact .createFile ho (hasText_of_mem hp) (hasText_of_mem hc)
    | updateFile path content =>
      obtain ⟨hp, h⟩ := List.forall_mem_cons.mp h
      obtain ⟨hc, -⟩ := List.forall_mem_cons.mp h
      exact .updateFile ho (hasText_of_mem hp) (hasText_of_mem hc)
    | createDirectory path =>
      exact .createDirectory ho (hasText_of_mem (List.forall_mem_cons.mp h).1)
    | deleteFile path => exact .deleteFile ho (hasText_of_mem (List.forall_mem_cons.mp h).1)
    | deleteDirectory path =>
      exact .deleteDirectory ho (hasText_of_mem (List.forall_mem_cons.mp h).1)
    | rename source target =>
      obtain ⟨hs, h⟩ := List.forall_mem_cons.mp h
      obtain ⟨ht, -⟩ := List.forall_mem_cons.mp h
      exact .rename ho (hasText_of_mem hs) (hasText_of_mem ht)
    | replaceInFile path old new =>
      obtain ⟨hp, h⟩ := List.forall_mem_cons.mp h
      obtain ⟨hold, h⟩ := List.forall_mem_cons.mp h
      obtain ⟨hnew, -⟩ := List.forall_mem_cons.mp h
      exact .replaceInFile ho (hasText_of_mem hp) (hasText_of_mem hold) (hasText_of_mem hnew)
    | insertInFile path line text =>
      obtain ⟨hp, h⟩ := List.forall_mem_cons.mp h
      obtain ⟨hl, h⟩ := List.forall_mem_cons.mp h
      obtain ⟨ht, -⟩ := List.forall_mem_cons.mp h
      exact .insertInFile ho (hasText_of_mem hp) hl (hasText_of_mem ht)

/-! ### Steps as they are written -/

/-- The line of an insertion is an integer that a document can hold. -/
def HasLine (step : ScriptStep) : Prop :=
  ∀ path line text, step = .command (.insertInFile path line text) →
    line.toNat ≤ Int64.maxValue.toInt

theorem gives_written (step : ScriptStep) : Gives step.written step :=
  ⟨_, rfl, fun _ hm => List.mem_map_of_mem hm⟩

theorem nodup_names (step : ScriptStep) : (step.fields.map (·.1)).Nodup := by
  cases step with
  | refresh => decide
  | command edit => cases edit <;> (unfold ScriptStep.fields Command.fields; simp)

theorem fits_of_hasLine (h : HasLine step) {field : String × Scalar} (hm : field ∈ step.fields) :
    field.2.Fits := by
  intro number hn
  obtain ⟨name, value⟩ := field
  obtain rfl : value = .integer number := hn
  cases step with
  | refresh => simp [ScriptStep.fields] at hm
  | command edit =>
    cases edit with
    | insertInFile path line text =>
      have hline := h path line text rfl
      have hmax : Int64.maxValue.toInt = 9223372036854775807 := by decide
      have hmin : Int64.minValue.toInt = -9223372036854775808 := by decide
      obtain ⟨-, rfl⟩ : name = "line" ∧ number = line.toNat := by
        simpa [ScriptStep.fields, Command.fields] using hm
      omega
    | _ => simp [ScriptStep.fields, Command.fields] at hm

theorem loaded_written (h : HasLine step) : step.written.Loaded := by
  unfold written
  refine .mapping ?_ ?_ ?_
  · unfold DistinctKeys
    rw [List.filterMap_map]
    have hkey : ((fun entry : Yaml.Node × Yaml.Node => entry.1.text?) ∘
        fun field : String × Scalar =>
          ((.scalar (.text field.1), .scalar field.2) : Yaml.Node × Yaml.Node)) =
        some ∘ fun field => field.1 := rfl
    rw [hkey, List.filterMap_eq_map]
    exact nodup_names step
  · intro entry hm
    obtain ⟨field, hfield, rfl⟩ := List.mem_map.mp hm
    exact .scalar (fun number hn => nomatch hn)
  · intro entry hm
    obtain ⟨field, hfield, rfl⟩ := List.mem_map.mp hm
    exact .scalar (fits_of_hasLine h hfield)

end ScriptStep

namespace CommandScript

/-- The document maps `commands` to the list. -/
def Lists (document : Yaml.Node) (entries : List Yaml.Node) : Prop :=
  ∃ fields, document = .mapping fields ∧ (.scalar (.text "commands"), .sequence entries) ∈ fields

variable {document : Yaml.Node} {entries : List Yaml.Node} {steps : List ScriptStep}

theorem Lists.loaded (hl : Lists document entries) (h : document.Loaded) :
    ∀ entry ∈ entries, entry.Loaded := by
  obtain ⟨fields, rfl, hm⟩ := hl
  cases h with
  | mapping hd hk hv =>
    cases hv _ hm with
    | sequence h => exact h

theorem ofDocument_of_lists (h : document.Loaded) (hl : Lists document entries) :
    ofDocument document = (stepsFrom 0 entries).map CommandScript.mk := by
  obtain ⟨fields, rfl, hm⟩ := hl
  cases h with
  | mapping hd hk hv =>
    have hf := (field?_eq_some_iff hd).mpr hm
    unfold ofDocument
    dsimp only [Yaml.Node.entries?]
    rw [hf]
    rfl

theorem stepsFrom_of_forall {index : Nat}
    (h : List.Forall₂ (fun entry step => ScriptStep.ofNode entry = .ok step) entries steps) :
    stepsFrom index entries = .ok steps := by
  induction h generalizing index with
  | nil => rfl
  | cons hstep hrest ih =>
    rw [stepsFrom, hstep, ih]
    rfl

/-- Reading stops at the first entry that is no step. -/
theorem stepsFrom_of_defect {front behind : List Yaml.Node} {entry : Yaml.Node}
    {defect : StepDefect} {index : Nat}
    (hfront : ∀ entry ∈ front, ∃ step, ScriptStep.ofNode entry = .ok step)
    (he : ScriptStep.ofNode entry = .error defect) :
    stepsFrom index (front ++ entry :: behind) =
      .error (.invalidEntry (index + front.length) defect) := by
  induction front generalizing index with
  | nil =>
    rw [List.nil_append, stepsFrom, he]
    rfl
  | cons first front ih =>
    obtain ⟨⟨step, hstep⟩, hfront⟩ := List.forall_mem_cons.mp hfront
    rw [List.cons_append, stepsFrom, hstep, ih hfront, List.length_cons, Nat.add_comm front.length,
      ← Nat.add_assoc]
    rfl

/-- The document that maps `commands` to the steps as they are written. -/
def written (steps : List ScriptStep) : Yaml.Node :=
  .mapping [(.scalar (.text "commands"), .sequence (steps.map ScriptStep.written))]

theorem loaded_written (h : ∀ step ∈ steps, step.HasLine) : (written steps).Loaded := by
  refine .mapping (Yaml.Node.distinctKeys_singleton _) ?_ ?_
  · intro entry hm
    obtain rfl := List.mem_singleton.mp hm
    exact .scalar (fun number hn => nomatch hn)
  · intro entry hm
    obtain rfl := List.mem_singleton.mp hm
    refine .sequence fun item hi => ?_
    obtain ⟨step, hstep, rfl⟩ := List.mem_map.mp hi
    exact ScriptStep.loaded_written (h step hstep)

theorem lists_written (steps : List ScriptStep) :
    Lists (written steps) (steps.map ScriptStep.written) :=
  ⟨_, rfl, List.mem_singleton_self _⟩

theorem forall_gives_written (steps : List ScriptStep) :
    List.Forall₂ ScriptStep.Gives (steps.map ScriptStep.written) steps := by
  rw [List.forall₂_map_left_iff]
  exact List.forall₂_same.mpr fun step _ => ScriptStep.gives_written step

theorem ofDocument_of_gives (h : document.Loaded) (hl : Lists document entries)
    (hg : List.Forall₂ ScriptStep.Gives entries steps) : ofDocument document = .ok ⟨steps⟩ := by
  have hread : List.Forall₂ (fun entry step => ScriptStep.ofNode entry = .ok step) entries steps := by
    have hloaded := hl.loaded h
    clear hl
    induction hg with
    | nil => exact .nil
    | cons hstep hrest ih =>
      obtain ⟨hfirst, hloaded⟩ := List.forall_mem_cons.mp hloaded
      exact .cons ((ScriptStep.ofNode_eq_ok_iff hfirst).mpr hstep.denotes) (ih hloaded)
  rw [ofDocument_of_lists h hl, stepsFrom_of_forall hread]
  rfl

theorem ofDocument_of_not_isStep {i : Nat} {entry : Yaml.Node} (h : document.Loaded)
    (hl : Lists document entries) (hi : entries[i]? = some entry) (hnot : ¬ ScriptStep.IsStep entry)
    (hfirst : ∀ earlier ∈ entries.take i, ScriptStep.IsStep earlier) :
    ∃ defect, ofDocument document = .error (.invalidEntry i defect) := by
  have hloaded := hl.loaded h
  have hfront : ∀ earlier ∈ entries.take i, ∃ step, ScriptStep.ofNode earlier = .ok step :=
    fun earlier hm =>
      (ScriptStep.isStep_iff (hloaded _ (List.mem_of_mem_take hm))).mp (hfirst earlier hm)
  rw [ScriptStep.isStep_iff (hloaded _ (List.mem_of_getElem? hi))] at hnot
  cases he : ScriptStep.ofNode entry with
  | ok step => exact absurd ⟨step, he⟩ hnot
  | error defect =>
    obtain ⟨hlt, hget⟩ := List.getElem?_eq_some_iff.mp hi
    have hsplit : entries = entries.take i ++ entry :: entries.drop (i + 1) := by
      rw [← hget, List.getElem_cons_drop, List.take_append_drop]
    refine ⟨defect, ?_⟩
    rw [ofDocument_of_lists h hl, hsplit, stepsFrom_of_defect hfront he, List.length_take,
      Nat.min_eq_left (Nat.le_of_lt hlt), Nat.zero_add]
    rfl

/-- A script is the first document of its text, and that is loaded. Every list of steps can be
written as such a document, and is read back from each that gives the fields of every step, in any
order and among others. If some entries of the list are no steps, the error names the first. -/
theorem steps_read_back :
    (∀ text document others, Yaml.documents text = .ok (document :: others) →
      document.Loaded ∧ parse text = ofDocument document) ∧
    (∀ steps : List ScriptStep, (∀ step ∈ steps, step.HasLine) →
      ∃ document entries, document.Loaded ∧ Lists document entries ∧
        List.Forall₂ ScriptStep.Gives entries steps) ∧
    (∀ document entries steps, document.Loaded → Lists document entries →
      List.Forall₂ ScriptStep.Gives entries steps → ofDocument document = .ok ⟨steps⟩) ∧
    ∀ document entries i entry, document.Loaded → Lists document entries →
      entries[i]? = some entry → ¬ ScriptStep.IsStep entry →
      (∀ earlier ∈ entries.take i, ScriptStep.IsStep earlier) →
        ∃ defect, ofDocument document = .error (.invalidEntry i defect) := by
  refine ⟨fun text document others h => ⟨?_, ?_⟩, fun steps hline => ?_, ?_, ?_⟩
  · exact Yaml.loaded_of_documents h document List.mem_cons_self
  · unfold parse
    rw [h]
    rfl
  · exact ⟨_, _, loaded_written hline, lists_written steps, forall_gives_written steps⟩
  · exact fun _ _ _ => ofDocument_of_gives
  · exact fun _ _ _ _ => ofDocument_of_not_isStep

/-- An insertion whose fields stand in another order beside a note, and behind it an entry that is no
mapping. -/
theorem steps_read_back_of_unordered :
    let insertion : Yaml.Node := .mapping
      [(.scalar (.text "text"), .scalar (.text "x")), (.scalar (.text "note"), .scalar .null),
        (.scalar (.text "line"), .scalar (.integer 3)), (.scalar (.text "op"), .scalar (.text "insert")),
        (.scalar (.text "path"), .scalar (.text "/a"))]
    let document (entries : List Yaml.Node) : Yaml.Node :=
      .mapping [(.scalar (.text "commands"), .sequence entries)]
    ofDocument (document [insertion]) = .ok ⟨[.command (.insertInFile "/a" 3 "x")]⟩ ∧
      ∃ defect, ofDocument (document [insertion, .scalar (.text "refresh")]) =
        .error (.invalidEntry 1 defect) := by
  intro insertion document
  have htext (text : String) : (Yaml.Node.scalar (.text text)).Loaded := .scalar fun _ h => nomatch h
  have hloaded : insertion.Loaded := by
    refine .mapping (by decide) ?_ ?_
    · simp only [List.forall_mem_cons]
      exact ⟨htext _, htext _, htext _, htext _, htext _, fun _ hm => nomatch hm⟩
    · simp only [List.forall_mem_cons]
      have hnumber : (Yaml.Node.scalar (.integer 3)).Loaded := by
        refine .scalar ?_
        rintro _ ⟨⟩
        decide
      exact ⟨htext _, .scalar (fun _ h => nomatch h), hnumber, htext _, htext _,
        fun _ hm => nomatch hm⟩
  have hdocument {entries : List Yaml.Node} (h : ∀ entry ∈ entries, entry.Loaded) :
      (document entries).Loaded := by
    refine .mapping (Yaml.Node.distinctKeys_singleton _) ?_ ?_
    · exact List.forall_mem_singleton.mpr (htext _)
    · exact List.forall_mem_singleton.mpr (.sequence h)
  have hlists (entries : List Yaml.Node) : Lists (document entries) entries :=
    ⟨_, rfl, List.mem_singleton_self _⟩
  have hgives : ScriptStep.Gives insertion (.command (.insertInFile "/a" 3 "x")) :=
    ⟨_, rfl, by simp [ScriptStep.fields, Command.fields, Command.operation]⟩
  obtain ⟨-, -, hread, hfirst⟩ := steps_read_back
  refine ⟨hread _ _ _ (hdocument (List.forall_mem_singleton.mpr hloaded)) (hlists _)
    (.cons hgives .nil), ?_⟩
  refine hfirst _ _ 1 (.scalar (.text "refresh")) (hdocument ?_) (hlists _) rfl ?_ ?_
  · exact List.forall_mem_cons.mpr ⟨hloaded, List.forall_mem_singleton.mpr (htext _)⟩
  · rintro ⟨_, _, he, -⟩
    cases he
  · obtain ⟨fields, he, hs⟩ := hgives.denotes
    exact List.forall_mem_singleton.mpr ⟨fields, _, he, hs⟩

end CommandScript

end LivePreview
