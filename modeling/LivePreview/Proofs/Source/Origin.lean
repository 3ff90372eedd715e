import LivePreview.Proofs.Source.Exit
import LivePreview.Proofs.Source.Moved
import LivePreview.Proofs.Source.Reading

/-!
# Where faults are

Every location that a reader notes is that of an offset at which a construct or a comment opens or a
bracket closes. In a template the innermost construct is one, so a template that does not end is
reported where the innermost one opens.
-/
namespace LivePreview.Source

open LivePreview.Text

/-- At the offset something opens or closes, and the location is that of the offset. -/
structure Marks (source : List Char) (offset : Nat) (location : Location) : Prop where
  landmark : ∃ c ∈ landmarks, At source offset c
  location : location = .ofOffset source offset

theorem marks_behind {source front rest : List Char} {c : Char} (hs : source = front ++ c :: rest)
    (hc : c ∈ landmarks) : Marks source (byteLength front) (.behind front) := by
  refine ⟨⟨c, hc, front, rest, hs, rfl⟩, ?_⟩
  rw [hs, Location.ofOffset_append]

theorem mem_landmarks_of_ofCloser? {c : Char} {bracket : Bracket}
    (h : Bracket.ofCloser? c = some bracket) : c ∈ landmarks := by
  obtain rfl := eq_closer_of_ofCloser? h
  cases bracket <;> decide

namespace Reader

variable {r : Reader} {c : Char} {next : Option Char}

/-- A step leaves a part of the stack or puts one construct on it. -/
theorem stack_step (r : Reader) (c : Char) (next : Option Char) :
    (r.step c next).stack <:+ r.stack ∨
      c ∈ landmarks ∧ ∃ construct, (r.step c next).stack = ⟨construct, r.location⟩ :: r.stack ∧
        (construct = .template → c = '\x60') ∧
        (construct = .substitution → r.mode = .template) := by
  by_cases hc : r.Closes c
  · obtain ⟨bracket, hb⟩ := hc.2.1
    obtain ⟨hstack, -, -, -⟩ := step_of_closes hc hb next
    rw [hstack]
    exact .inl (List.tail_suffix _)
  · rcases (notes_step hc next).stack with hs | ⟨top, hs⟩ | hs
    · exact .inl (hs ▸ List.suffix_rfl)
    · exact .inl (hs ▸ List.suffix_cons _ _)
    · exact .inr hs

/-! ### Templates -/

/-- A reader in a template has a template on top of its stack, and every substitution lies upon
one. -/
structure Steady (r : Reader) : Prop where
  template : r.mode = .template → r.stack.head?.map (·.construct) = some .template
  substitution : ∀ top below, (top :: below) <:+ r.stack → top.construct = .substitution →
    below.head?.map (·.construct) = some .template

theorem Steady.step (h : r.Steady) (c : Char) (next : Option Char) : (r.step c next).Steady := by
  refine ⟨fun hm => ?_, fun top below hs hsub => ?_⟩
  · by_cases hc : r.Closes c
    · obtain ⟨bracket, hb⟩ := hc.2.1
      obtain ⟨hstack, -, -, htemplate⟩ := step_of_closes hc hb next
      -- The bracket ends a substitution, so a template is below it.
      obtain ⟨top, htop, hsub⟩ := Option.map_eq_some_iff.mp (htemplate hm)
      obtain ⟨below, hbelow⟩ := List.head?_eq_some_iff.mp htop
      rw [hstack, hbelow]
      exact h.substitution top below (hbelow ▸ List.suffix_rfl) hsub
    · rcases (notes_step hc next).template hm with ⟨hr, hs⟩ | hs
      · rw [hs]
        exact h.template hr
      · rw [hs]
        rfl
  · rcases r.stack_step c next with hstack | ⟨-, construct, hstack, -, hconstruct⟩
    · exact h.substitution top below (hs.trans hstack) hsub
    · rw [hstack, List.suffix_cons_iff] at hs
      rcases hs with hs | hs
      · obtain ⟨rfl, rfl⟩ := List.cons.inj hs
        exact h.template (hconstruct hsub)
      · exact h.substitution top below hs hsub

end Reader

variable {markup : Bool} {front rest : List Char} {top : OpenConstruct} {below : List OpenConstruct}

theorem steady_readerAt (front rest : List Char) : (readerAt markup front rest).Steady := by
  induction front using List.reverseRecOn generalizing rest with
  | nil => exact ⟨(fun h => by cases h), fun _ _ h => by cases List.suffix_nil.mp h⟩
  | append_singleton front c ih =>
    rw [readerAt_concat]
    exact (ih (c :: rest)).step c _

/-! ### Openings -/

/-- The constructs are open, below whatever else is, from behind `front` up to `upto`. -/
def Stays (markup : Bool) (source front upto : List Char) (stack : List OpenConstruct) : Prop :=
  ∀ later rest, source = later ++ rest → front <+: later → later <+: upto →
    stack <:+ (readerAt markup later rest).stack

/-- Where a construct was opened that is open behind the front of a source, and what was open
there. -/
structure Opening (markup : Bool) (front rest : List Char) (top : OpenConstruct)
    (below : List OpenConstruct) where
  lead : List Char
  opener : Char
  inside : List Char
  text : front = lead ++ opener :: inside
  landmark : opener ∈ landmarks
  grave : top.construct = .template → opener = '\x60'
  openedAt : top.openedAt = .behind lead
  below_eq : below = (readerAt markup lead (opener :: inside ++ rest)).stack
  stays : Stays markup (front ++ rest) (lead ++ [opener]) front (top :: below)

namespace Opening

variable {c : Char}

/-- A construct that is still open behind one more character. -/
def concat (o : Opening markup front (c :: rest) top below)
    (h : (top :: below) <:+ (readerAt markup (front ++ [c]) rest).stack) :
    Opening markup (front ++ [c]) rest top below where
  lead := o.lead
  opener := o.opener
  inside := o.inside ++ [c]
  text := (congrArg (· ++ [c]) o.text).trans (List.append_assoc _ _ _)
  landmark := o.landmark
  grave := o.grave
  openedAt := o.openedAt
  below_eq := o.below_eq.trans (by simp)
  stays := by
    intro later back hs hfront hupto
    rcases List.prefix_concat_iff.mp hupto with rfl | hupto
    · obtain rfl := List.append_cancel_left hs
      exact h
    · refine o.stays later back ?_ hfront hupto
      rw [← hs, List.append_assoc]
      rfl

/-- A construct that the last character opens. -/
def ofPush {construct : Construct} (hc : c ∈ landmarks) (hg : construct = .template → c = '\x60')
    (h : (readerAt markup (front ++ [c]) rest).stack =
      ⟨construct, .behind front⟩ :: (readerAt markup front (c :: rest)).stack) :
    Opening markup (front ++ [c]) rest ⟨construct, .behind front⟩
      (readerAt markup front (c :: rest)).stack where
  lead := front
  opener := c
  inside := []
  text := rfl
  landmark := hc
  grave := hg
  openedAt := rfl
  below_eq := rfl
  stays := by
    intro later back hs hfront hupto
    obtain rfl := List.IsPrefix.eq_of_length_le hupto hfront.length_le
    obtain rfl := List.append_cancel_left hs
    exact h ▸ List.suffix_rfl

theorem marks (o : Opening markup front rest top below) :
    ∃ offset < byteLength front, Marks (front ++ rest) offset top.openedAt := by
  have hc := o.opener.utf8Size_pos
  have hlength := congrArg byteLength o.text
  have htext : front ++ rest = o.lead ++ o.opener :: (o.inside ++ rest) :=
    (congrArg (· ++ rest) o.text).trans (List.append_assoc _ _ _)
  rw [byteLength_append, byteLength_cons] at hlength
  exact ⟨byteLength o.lead, by omega, o.openedAt ▸ marks_behind htext o.landmark⟩

end Opening

/-- Every open construct was opened somewhere. -/
theorem nonempty_opening (h : (top :: below) <:+ (readerAt markup front rest).stack) :
    Nonempty (Opening markup front rest top below) := by
  induction front using List.reverseRecOn generalizing rest with
  | nil => cases List.suffix_nil.mp h
  | append_singleton front c ih =>
    have hstep := (readerAt markup front (c :: rest)).stack_step c rest.head?
    rw [← readerAt_concat, location_readerAt] at hstep
    rcases hstep with hs | ⟨hc, construct, hs, hg, -⟩
    · obtain ⟨o⟩ := ih (h.trans hs)
      exact ⟨o.concat h⟩
    · have hcases := h
      rw [hs, List.suffix_cons_iff] at hcases
      rcases hcases with he | hbelow
      · obtain ⟨rfl, rfl⟩ := List.cons.inj he
        exact ⟨.ofPush hc hg hs⟩
      · obtain ⟨o⟩ := ih hbelow
        exact ⟨o.concat h⟩

theorem nonempty_opening_top (h : (readerAt markup front rest).stack = top :: below) :
    Nonempty (Opening markup front rest top below) :=
  nonempty_opening (h ▸ List.suffix_rfl)

/-- The backtick at the offset opens a template that is still open at the end of the source. -/
def TemplateOpen (markup : Bool) (source : List Char) (offset : Nat) : Prop :=
  ∃ front rest, source = front ++ '\x60' :: rest ∧ byteLength front = offset ∧
    Stays markup source (front ++ ['\x60']) source
      (⟨.template, .ofOffset source offset⟩ :: (readerAt markup front ('\x60' :: rest)).stack)

/-- The template that is open in the innermost place is the last of those that stay open. -/
theorem TemplateOpen.le_of_innermost {source : List Char} {offset other : Nat}
    {front rest : List Char} (hs : source = front ++ '\x60' :: rest)
    (hstays : Stays markup source (front ++ ['\x60']) source (top :: below))
    (hend : (readerAt markup source []).stack = top :: below) (ho : byteLength front = offset)
    (h : TemplateOpen markup source other) : other ≤ offset := by
  obtain ⟨front', rest', hs', rfl, hstays'⟩ := h
  by_contra hlt
  have hbehind : front ++ ['\x60'] <+: front' := by
    have hle : byteLength front ≤ byteLength front' := by omega
    obtain ⟨lead, rfl, hrest⟩ := exists_of_byteLength_le (hs.symm.trans hs') hle
    cases lead with
    | nil => simp [ho] at hlt
    | cons c lead =>
      obtain ⟨rfl, -⟩ := List.cons.inj hrest
      exact ⟨lead, by simp⟩
  have hfirst := hstays front' ('\x60' :: rest') hs' hbehind ⟨_, hs'.symm⟩
  have hlast :=
    hstays' source [] (List.append_nil _).symm ⟨rest', by rw [hs']; simp⟩ List.prefix_rfl
  rw [hend] at hlast
  have hlength := hfirst.length_le.trans_lt (Nat.lt_of_succ_le hlast.length_le)
  exact Nat.lt_irrefl _ hlength

/-! ### Faults -/

/-- A comment that is being read was opened at a landmark. -/
theorem marks_comment {openedAt : Location}
    (h : (readerAt markup front rest).mode.openedAt? = some openedAt) :
    ∃ offset, Marks (front ++ rest) offset openedAt := by
  induction front using List.reverseRecOn generalizing rest with
  | nil => cases h
  | append_singleton front c ih =>
    rw [readerAt_concat] at h
    rw [List.append_assoc, List.singleton_append]
    by_cases hc : (readerAt markup front (c :: rest)).Closes c
    · obtain ⟨bracket, hb⟩ := hc.2.1
      obtain ⟨-, -, hmode, -⟩ := Reader.step_of_closes hc hb rest.head?
      rw [hmode] at h
      cases h
    · rcases (Reader.notes_step hc rest.head?).comment with hm | hm | ⟨-, hm, hmark⟩
      · rw [hm] at h
        cases h
      · exact ih (hm.symm.trans h)
      · rw [hm, location_readerAt] at h
        obtain rfl := Option.some.inj h
        exact ⟨_, marks_behind rfl hmark⟩

/-- The fault is at a landmark and names no place but that of an earlier one. -/
structure Fault.Placed (source : List Char) (fault : Fault) (offset : Nat) : Prop where
  location : ∃ location, fault.location = some location ∧ Marks source offset location
  openedAt : ∀ innermost openedAt found, fault.defect = .mismatched innermost openedAt found →
    ∃ earlier < offset, Marks source earlier openedAt

/-- A fault that names no other place. -/
theorem Fault.placed_of_marks {source : List Char} {defect : Defect} {offset : Nat}
    {location : Location} (h : Marks source offset location)
    (hd : ∀ innermost openedAt found, defect ≠ .mismatched innermost openedAt found) :
    Fault.Placed source ⟨defect, some location⟩ offset where
  location := ⟨location, rfl, h⟩
  openedAt innermost openedAt found he := absurd he (hd innermost openedAt found)

/-- A fault that is found on the way is that of a closing bracket. -/
theorem placed_of_fault {fault : Fault} (h : (readerAt markup front rest).fault = some fault) :
    (∃ offset, fault.Placed (front ++ rest) offset) ∧ fault.defect ≠ .unterminatedTemplate := by
  induction front using List.reverseRecOn generalizing rest with
  | nil => cases h
  | append_singleton front c ih =>
    rw [readerAt_concat] at h
    rw [List.append_assoc, List.singleton_append]
    cases hfault : (readerAt markup front (c :: rest)).fault with
    | some first =>
      rw [Reader.fault_step hfault] at h
      obtain rfl := Option.some.inj h
      exact ih hfault
    | none =>
      by_cases hc : (readerAt markup front (c :: rest)).Closes c
      · obtain ⟨bracket, hb⟩ := hc.2.1
        obtain ⟨-, hstep, -, -⟩ := Reader.step_of_closes hc hb rest.head?
        have hmarks : Marks (front ++ c :: rest) (byteLength front) (.behind front) :=
          marks_behind rfl (mem_landmarks_of_ofCloser? hb)
        rw [hstep, hfault, Option.none_or, Reader.closeFault?, location_readerAt] at h
        split at h
        · obtain rfl := Option.some.inj h
          exact ⟨⟨_, Fault.placed_of_marks hmarks (by simp)⟩, by simp⟩
        · rename_i top below hstack
          split at h
          · cases h
          · obtain rfl := Option.some.inj h
            obtain ⟨o⟩ := nonempty_opening_top hstack
            refine ⟨⟨_, ⟨_, rfl, hmarks⟩, fun innermost openedAt found he => ?_⟩, by simp⟩
            obtain ⟨-, rfl, -⟩ := Defect.mismatched.inj he
            exact o.marks
      · rw [(Reader.notes_step hc rest.head?).fault, hfault] at h
        cases h

/-- A reader that ends in a template has the last one that stays open on top of its stack. -/
theorem exists_templateOpen {source : List Char}
    (hm : (readerAt markup source []).mode = .template) :
    ∃ offset location, (readerAt markup source []).stack.head?.map (·.openedAt) = some location ∧
      Marks source offset location ∧ TemplateOpen markup source offset ∧
      ∀ other, TemplateOpen markup source other → other ≤ offset := by
  obtain ⟨⟨construct, openedAt⟩, htop, htemplate⟩ :=
    Option.map_eq_some_iff.mp ((steady_readerAt source []).template hm)
  obtain rfl : construct = .template := htemplate
  obtain ⟨below, hstack⟩ := List.head?_eq_some_iff.mp htop
  obtain ⟨⟨lead, opener, inside, htext, hmark, hgrave, hopened, hbelow, hstays⟩⟩ :=
    nonempty_opening_top hstack
  obtain rfl : opener = '\x60' := hgrave rfl
  obtain rfl : openedAt = .behind lead := hopened
  rw [List.append_nil] at hstays hbelow
  have hmarks := marks_behind htext hmark
  refine ⟨byteLength lead, .behind lead, by rw [htop, Option.map_some], hmarks,
    ⟨lead, inside, htext, rfl, ?_⟩,
    fun other ho => ho.le_of_innermost htext hstays hstack rfl⟩
  rwa [← hmarks.location, ← hbelow]

/-- Every fault is at an offset where something opens or closes. The place that its message names is
in front of it, and a template that does not end is reported where the last open one begins. -/
theorem firstFault?_placed {source : String} {dialect : Dialect} {fault : Fault}
    (h : firstFault? source dialect = some fault) :
    ∃ offset, fault.Placed source.toList offset ∧
      (fault.defect = .unterminatedTemplate →
        TemplateOpen dialect.allowsMarkup source.toList offset ∧
          ∀ other, TemplateOpen dialect.allowsMarkup source.toList other → other ≤ offset) := by
  rw [firstFault?, ofSource_eq, Reader.fault_finish, Option.or_eq_some_iff,
    Option.or_eq_some_iff] at h
  rcases h with (hfound | ⟨-, hend⟩) | ⟨-, hopen⟩
  · obtain ⟨⟨offset, hplaced⟩, hne⟩ := placed_of_fault hfound
    rw [List.append_nil] at hplaced
    exact ⟨offset, hplaced, fun he => absurd he hne⟩
  · rw [Reader.unterminated?] at hend
    split at hend
    · rename_i openedAt hm
      obtain rfl := Option.some.inj hend
      have hcomment : (readerAt dialect.allowsMarkup source.toList []).mode.openedAt? =
          some openedAt := by rw [hm]; rfl
      obtain ⟨offset, hmarks⟩ := marks_comment hcomment
      rw [List.append_nil] at hmarks
      exact ⟨offset, Fault.placed_of_marks hmarks (by simp), by simp⟩
    · rename_i hm
      obtain rfl := Option.some.inj hend
      obtain ⟨offset, location, htop, hmarks, htemplate⟩ := exists_templateOpen hm
      rw [htop]
      exact ⟨offset, Fault.placed_of_marks hmarks (by simp), fun _ => htemplate⟩
    · cases hend
  · obtain ⟨top, htop, rfl⟩ := Option.map_eq_some_iff.mp hopen
    obtain ⟨below, hstack⟩ := List.head?_eq_some_iff.mp htop
    obtain ⟨o⟩ := nonempty_opening_top hstack
    obtain ⟨offset, -, hmarks⟩ := o.marks
    rw [List.append_nil] at hmarks
    exact ⟨offset, Fault.placed_of_marks hmarks (by simp), by simp⟩

/-- A template in a substitution of another one: both stay open. -/
theorem firstFault?_placed_of_nested_template :
    let source := "a\n\x60b\\\x60$\x7b \x60c\n"
    let fault : Fault := ⟨.unterminatedTemplate, some ⟨2, 8⟩⟩
    firstFault? source .jsx = some fault ∧ ∃ offset, fault.Placed source.toList offset ∧
      TemplateOpen true source.toList offset ∧
      ∀ other, TemplateOpen true source.toList other → other ≤ offset := by
  intro source fault
  have hfault : firstFault? source .jsx = some fault := by decide +kernel
  obtain ⟨offset, hplaced, htemplate⟩ := firstFault?_placed hfault
  exact ⟨hfault, offset, hplaced, htemplate rfl⟩

end LivePreview.Source
