import LivePreview.Proofs.Path.Normalization

/-!
# Paths in a directory that moves

A path below a directory is the directory with a path within it, and carrying it over to another
directory keeps what is within. Whether a path lies below another can be read off their names or off
their written forms, where a name that only begins like another is told from it by the separator
behind it.
-/
namespace LivePreview.Path

/-- The path within a directory. -/
def within (directory path : Path) : Path := ⟨directory.names ++ path.names⟩

variable {directory path inner source target : Path}

theorem canonical_within (hd : directory.Canonical) (hp : path.Canonical) :
    (directory.within path).Canonical := fun name hm =>
  (List.mem_append.mp hm).elim (hd name) (hp name)

theorem canonical_of_within (h : (directory.within path).Canonical) : path.Canonical :=
  fun name hm => h name (List.mem_append_right _ hm)

theorem rebase?_within (hs : source.Canonical) (ht : target.Canonical) (hp : path.Canonical) :
    (source.within path).rebase? source target = some (target.within path) :=
  (rebase?_eq_some_iff (canonical_within hs hp) hs ht).mpr ⟨path.names, rfl, rfl⟩

theorem within_injective (directory : Path) : Function.Injective directory.within :=
  fun _ _ h => ext_names (List.append_cancel_left (congrArg names h))

theorem within_within (directory path inner : Path) :
    (directory.within path).within inner = directory.within (path.within inner) :=
  ext_names (List.append_assoc _ _ _)

theorem directory_within (hd : directory.Canonical) (hp : path.Canonical) (hne : path.names ≠ []) :
    (directory.within path).directory = directory.within path.directory := by
  rw [(canonical_within hd hp).directory_eq, hp.directory_eq]
  exact ext_names (List.dropLast_append_of_ne_nil hne)

/-- What a directory holds are the paths within it. -/
theorem exists_within_of_rebase? (hs : source.Canonical) (ht : target.Canonical)
    (hp : path.Canonical) {path' : Path} (h : path.rebase? source target = some path') :
    ∃ inner, path = source.within inner ∧ path' = target.within inner := by
  obtain ⟨rest, hrest, hrest'⟩ := (rebase?_eq_some_iff hp hs ht).mp h
  exact ⟨⟨rest⟩, ext_names hrest, ext_names hrest'⟩

theorem startsWith_within (directory path : Path) :
    (directory.within path).startsWith directory = true :=
  startsWith_iff.mpr (List.prefix_append _ _)

/-- Within one directory, what lies below what does not depend on the directory. -/
theorem startsWith_within_iff (directory path other : Path) :
    (directory.within path).startsWith (directory.within other) = true ↔
      path.startsWith other = true := by
  rw [startsWith_iff, startsWith_iff]
  exact List.prefix_append_right_inj directory.names

theorem isSome_rebase?_iff (path source target : Path) :
    (path.rebase? source target).isSome = true ↔ path.startsWith source = true := by
  rw [rebase?]
  split <;> simp [*]

/-! ### Written forms -/

/-- The path is written as the other one is, with nothing behind it or with a separator and more.
The root, which is its own separator, has every path below it. -/
def WrittenBelow (path ancestor : Path) : Prop :=
  ancestor.text = "/" ∨ path.text = ancestor.text ∨
    ∃ rest, path.text = ancestor.text ++ "/" ++ rest

theorem startsWith_iff_writtenBelow (hp : path.Canonical) (hd : directory.Canonical) :
    path.startsWith directory = true ↔ path.WrittenBelow directory := by
  rw [startsWith_iff]
  constructor
  · rintro ⟨rest, hrest⟩
    obtain rfl : path = directory.within ⟨rest⟩ := ext_names hrest.symm
    by_cases hroot : directory.names = []
    · exact .inl (hd.text_eq_iff.mpr (ext_names hroot))
    · by_cases hself : rest = []
      · refine .inr (.inl (congrArg text (ext_names ?_)))
        rw [within, hself, List.append_nil]
      · exact .inr (.inr ⟨_, text_append_names directory hroot hself⟩)
  · rintro (hroot | hself | ⟨rest, hbelow⟩)
    · obtain rfl := hd.text_eq_iff.mp hroot
      exact List.nil_prefix
    · rw [hp.written.text_inj hd.written hself]
    · by_cases hroot : directory.names = []
      · exact hroot ▸ List.nil_prefix
      · -- Both sides are cut at the separators; the first piece is empty on either.
        have hpieces := congrArg splitNames hbelow
        rw [splitNames_append_separator, splitNames_text hroot hd.written.free] at hpieces
        by_cases hempty : path.names = []
        · obtain rfl : path = root := ext_names hempty
          have hlength := congrArg List.length hpieces
          have hdirectory := List.length_pos_iff.mpr hroot
          have hrest := List.length_pos_iff.mpr (splitNames_ne_nil rest)
          have htwo : (splitNames root.text).length = 2 := by decide
          rw [List.length_append, List.length_cons, htwo] at hlength
          omega
        · rw [splitNames_text hempty hp.written.free, List.cons_append] at hpieces
          exact ⟨splitNames rest, (List.cons.inj hpieces).2.symm⟩

/-- A path lies below another exactly if the other's segments are its first ones, and exactly then
it can be carried over. What is carried over can be carried back, and of two paths that are carried
over together one lies below the other as it did. -/
theorem rebase_consistent {path source target : Path} (hp : path.Canonical) (hs : source.Canonical)
    (ht : target.Canonical) :
    (path.startsWith source = true ↔ source.segments <+: path.segments) ∧
    (path.startsWith source = true ↔ path.WrittenBelow source) ∧
    ((path.rebase? source target).isSome = true ↔ source.segments <+: path.segments) ∧
    (∀ moved, path.rebase? source target = some moved →
      moved.Canonical ∧ moved.startsWith target = true ∧
        moved.rebase? target source = some path) ∧
    ∀ other : Path, other.Canonical → ∀ moved moved',
      path.rebase? source target = some moved → other.rebase? source target = some moved' →
        (path.startsWith other = true ↔ moved.startsWith moved' = true) := by
  have hsegments : path.startsWith source = true ↔ source.segments <+: path.segments := by
    rw [startsWith_iff, hs.segments_eq, hp.segments_eq]
  refine ⟨hsegments, startsWith_iff_writtenBelow hp hs,
    (isSome_rebase?_iff path source target).trans hsegments, ?_, ?_⟩
  · intro moved hmoved
    obtain ⟨inner, rfl, rfl⟩ := exists_within_of_rebase? hs ht hp hmoved
    have hinner := canonical_of_within hp
    exact ⟨canonical_within ht hinner, startsWith_within target inner,
      rebase?_within ht hs hinner⟩
  · intro other ho moved moved' hmoved hmoved'
    obtain ⟨inner, rfl, rfl⟩ := exists_within_of_rebase? hs ht hp hmoved
    obtain ⟨inner', rfl, rfl⟩ := exists_within_of_rebase? hs ht ho hmoved'
    rw [startsWith_within_iff, startsWith_within_iff]

/-- A file of a directory that moves, and another directory whose name only begins alike. -/
theorem rebase_consistent_of_longer_name :
    let path : Path := ⟨["comp", "forms", "Input.jsx"]⟩
    let source : Path := ⟨["comp"]⟩
    let longer : Path := ⟨["components", "Input.jsx"]⟩
    let target : Path := .root
    let moved : Path := ⟨["forms", "Input.jsx"]⟩
    path.Canonical ∧ source.Canonical ∧ longer.Canonical ∧ target.Canonical ∧
      path.WrittenBelow source ∧ path.rebase? source target = some moved ∧
      moved.rebase? target source = some path ∧
      (path.startsWith ⟨["comp", "forms"]⟩ = true ↔ moved.startsWith ⟨["forms"]⟩ = true) ∧
      ¬ longer.WrittenBelow source ∧ longer.rebase? source target = none := by
  intro path source longer target moved
  have hp : path.Canonical := by decide
  have hs : source.Canonical := by decide
  have hl : longer.Canonical := by decide
  have ht : target.Canonical := by decide
  have hmoved : path.rebase? source target = some moved := by decide
  obtain ⟨-, hbelow, -, hback, hother⟩ := rebase_consistent hp hs ht
  obtain ⟨-, hlonger, -⟩ := rebase_consistent hl hs ht
  exact ⟨hp, hs, hl, ht, hbelow.mp (by decide), hmoved, (hback moved hmoved).2.2,
    hother ⟨["comp", "forms"]⟩ (by decide) moved _ hmoved (by decide),
    fun h => absurd (hlonger.mpr h) (by decide), by decide⟩

end LivePreview.Path
