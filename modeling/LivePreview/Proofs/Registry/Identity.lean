import LivePreview.Proofs.Registry.Lifetime
import LivePreview.Proofs.Text.Pieces

/-!
# What a handle stands for

Over any run of calls a handle stands for one path in one generation, as long as that generation is
not discarded, and its address for the handle alone. What it fetches is what was registered last
under it. The numbers in it are no greater than those of the calls that give them.
-/
namespace LivePreview

/-! ### Addresses -/

theorem exists_of_mem_toDigits {n : Nat} {c : Char} (h : c ∈ Nat.toDigits 16 n) :
    ∃ digit < 16, c = Nat.digitChar digit := by
  induction n using Nat.strongRecOn with
  | ind n ih =>
    rw [Nat.toDigits_eq_if (by decide)] at h
    split at h
    · rename_i hlt
      exact ⟨n, hlt, List.mem_singleton.mp h⟩
    · rcases List.mem_append.mp h with h | h
      · exact ih (n / 16) (by omega) h
      · exact ⟨n % 16, Nat.mod_lt _ (by decide), List.mem_singleton.mp h⟩

theorem digitChar_inj : ∀ a < 16, ∀ b < 16, Nat.digitChar a = Nat.digitChar b → a = b := by decide

theorem toDigits_injective : Function.Injective (Nat.toDigits 16) := by
  intro n
  induction n using Nat.strongRecOn with
  | ind n ih =>
    intro m h
    rw [Nat.toDigits_eq_if (by decide), Nat.toDigits_eq_if (b := 16) (n := m) (by decide)] at h
    split at h <;> split at h
    · rename_i hn hm
      exact digitChar_inj n hn m hm (List.singleton_inj.mp h)
    · exact absurd (List.append_eq_singleton_iff.mp h.symm) (by simp [Nat.toDigits_ne_nil])
    · exact absurd (List.append_eq_singleton_iff.mp h) (by simp [Nat.toDigits_ne_nil])
    · obtain ⟨hfront, hlast⟩ := List.append_inj' h rfl
      have hdiv := ih (n / 16) (by omega) hfront
      have hmod := digitChar_inj _ (Nat.mod_lt n (by decide)) _ (Nat.mod_lt m (by decide))
        (List.singleton_inj.mp hlast)
      omega

theorem dash_not_mem_toDigits (n : Nat) : '-' ∉ Nat.toDigits 16 n := by
  intro h
  obtain ⟨digit, hlt, he⟩ := exists_of_mem_toDigits h
  exact absurd he ((by decide : ∀ digit < 16, '-' ≠ Nat.digitChar digit) digit hlt)

theorem Handle.text_injective : Function.Injective Handle.text := by
  rintro ⟨generation, sequence⟩ ⟨generation', sequence'⟩ h
  have hcs := congrArg String.toList h
  simp only [Handle.text, hexadecimal, String.toList_append, String.toList_ofList,
    List.append_assoc, List.append_cancel_left_eq] at hcs
  obtain ⟨hg, hs⟩ := Text.append_separator_inj (dash_not_mem_toDigits _)
    (dash_not_mem_toDigits _) hcs
  rw [toDigits_injective hg, toDigits_injective hs]

namespace Registry

variable {registry : Registry} {handle : Handle} {path : Path} {code : String}

/-! ### Paths and handles -/

theorem handle?_register_self (registry : Registry) (path : Path) (code : String) :
    (registry.register path code).1.handle? path = some (registry.register path code).2 := by
  rw [register]
  cases hh : registry.handle? path with
  | some handle => exact hh
  | none =>
    rw [handle?] at hh ⊢
    dsimp only [setCode]
    rw [Table.get?_append, hh, Table.get?, if_pos rfl, Option.none_or]

/-- A path keeps its handle when another one is registered. -/
theorem handle?_register (h : registry.handle? path = some handle) (other : Path) (code : String) :
    (registry.register other code).1.handle? path = some handle := by
  rw [handle?] at h ⊢
  rcases register_cases registry other code with ⟨-, hc⟩ | ⟨-, -, hc⟩
  · rw [hc, h]
  · rw [hc, Table.get?_append, h, Option.some_or]

theorem generation_register_handle (h : registry.Own) (path : Path) (code : String) :
    (registry.register path code).2.generation = registry.generation := by
  rcases register_cases registry path code with ⟨hm, -⟩ | ⟨hh, -⟩
  · exact h _ hm
  · rw [hh]

/-- No two paths have one handle. -/
def Distinct (registry : Registry) : Prop :=
  ∀ a ∈ registry.current, ∀ b ∈ registry.current, a.2 = b.2 → a = b

theorem Distinct.pruned {old : Registry} (h : old.Distinct) (hp : Pruned old registry) :
    registry.Distinct :=
  fun a ha b hb => h a (hp.current a ha) b (hp.current b hb)

theorem Distinct.register (h : registry.Distinct) (hn : registry.Numbered) (path : Path)
    (code : String) : (registry.register path code).1.Distinct := by
  rcases register_cases registry path code with ⟨-, hc⟩ | ⟨hh, -, hc⟩
  · rw [Distinct, hc]
    exact h
  · have hnew : ∀ entry ∈ registry.current, entry.2 ≠ (registry.register path code).2 :=
      fun entry hm => hh ▸ (hn.current entry hm).ne_next
    rw [Distinct, hc]
    intro a ha b hb he
    rw [List.mem_append, List.mem_singleton] at ha hb
    rcases ha with ha | rfl <;> rcases hb with hb | rfl
    · exact h a ha b hb he
    · exact absurd he (hnew a ha)
    · exact absurd he.symm (hnew b hb)
    · rfl

theorem Reachable.distinct (h : Reachable registry) : registry.Distinct := by
  induction h with
  | new => exact fun _ hm => nomatch hm
  | @called registry h c ih =>
    cases c with
    | start => exact fun _ hm => nomatch hm
    | register path code => exact ih.register h.numbered path code
    | install generation => exact ih.pruned (pruned_install registry generation)
    | discard generation => exact ih.pruned (pruned_discard registry generation)

/-- A path that has another handle, or none, is not given one that is in use. -/
theorem register_eq_iff (hd : registry.Distinct) (hn : registry.Numbered)
    (h : registry.handle? path = some handle) (other : Path) (code : String) :
    (registry.register other code).2 = handle ↔ other = path := by
  have hm : (path, handle) ∈ registry.current := Table.mem_of_get?_eq_some h
  constructor
  · intro he
    rcases register_cases registry other code with ⟨hother, -⟩ | ⟨hh, -⟩
    · exact congrArg Prod.fst (hd _ hother _ hm he)
    · exact absurd (he.symm.trans hh) (hn.current _ hm).ne_next
  · rintro rfl
    rw [register, h]

/-! ### Runs -/

/-- The registry after the first `n` of the calls. -/
def after (calls : List Call) (n : Nat) : Registry := (calls.take n).foldl call {}

theorem reachable_after (calls : List Call) (n : Nat) : Reachable (after calls n) :=
  Reachable.new.run _

variable {calls : List Call} {i j n : Nat}

theorem after_succ {c : Call} (h : calls[n]? = some c) :
    after calls (n + 1) = (after calls n).call c := by
  rw [after, List.take_add_one, h, Option.toList_some, List.foldl_append]
  rfl

theorem after_succ_of_none (h : calls[n]? = none) : after calls (n + 1) = after calls n := by
  rw [after, List.take_add_one, h, Option.toList_none, List.append_nil, after]

/-- The call at a place registers code under a path and answers the handle. -/
structure Answers (calls : List Call) (i : Nat) (path : Path) (code : String) (handle : Handle) :
    Prop where
  call : calls[i]? = some (.register path code)
  handle : ((after calls i).register path code).2 = handle

/-- The call at a place discards the generation, and it is not the installed one. -/
structure Discards (calls : List Call) (k generation : Nat) : Prop where
  call : calls[k]? = some (.discard generation)
  installed : (after calls k).installed ≠ some generation

theorem Answers.generation_eq (h : Answers calls i path code handle) :
    handle.generation = (after calls i).generation :=
  h.handle ▸ generation_register_handle (reachable_after calls i).numbered.own path code

/-! ### Counting calls -/

def Call.registers : Call → Bool
  | .register _ _ => true
  | _ => false

theorem generation_call (registry : Registry) (c : Call) :
    (registry.call c).generation = registry.generation + if c == .start then 1 else 0 := by
  cases c with
  | start => rfl
  | register path code => exact generation_register registry path code
  | install generation => rfl
  | discard generation => exact (frame_discard registry generation).1

theorem generation_foldl (registry : Registry) (calls : List Call) :
    (calls.foldl call registry).generation = registry.generation + calls.count .start := by
  induction calls generalizing registry with
  | nil => rfl
  | cons c calls ih =>
    rw [List.foldl_cons, ih, generation_call, List.count_cons]
    omega

theorem nextSequence_call_le (registry : Registry) (c : Call) :
    (registry.call c).nextSequence ≤ registry.nextSequence + if c.registers then 1 else 0 := by
  cases c with
  | start => exact Nat.zero_le _
  | register path code =>
    show (registry.register path code).1.nextSequence ≤ registry.nextSequence + 1
    rw [nextSequence_register]
    split <;> omega
  | install generation => exact Nat.le_refl _
  | discard generation => exact Nat.le_of_eq (frame_discard registry generation).2.1

theorem nextSequence_foldl_le (registry : Registry) (calls : List Call) :
    (calls.foldl call registry).nextSequence ≤
      registry.nextSequence + calls.countP Call.registers := by
  induction calls generalizing registry with
  | nil => exact Nat.le_refl _
  | cons c calls ih =>
    have hcall := nextSequence_call_le registry c
    have hrest := ih (registry.call c)
    rw [List.foldl_cons, List.countP_cons]
    omega

theorem generation_after (calls : List Call) (n : Nat) :
    (after calls n).generation = (calls.take n).count .start :=
  (generation_foldl _ _).trans (Nat.zero_add _)

theorem nextSequence_after_le (calls : List Call) (n : Nat) :
    (after calls n).nextSequence ≤ calls.countP Call.registers := by
  have hle : (calls.take n).countP Call.registers ≤ calls.countP Call.registers :=
    (List.take_sublist n calls).countP_le
  have hnext : (after calls n).nextSequence ≤ 0 + (calls.take n).countP Call.registers :=
    nextSequence_foldl_le {} (calls.take n)
  omega

theorem generation_after_le (h : i ≤ j) :
    (after calls i).generation ≤ (after calls j).generation := by
  rw [generation_after, generation_after]
  exact (List.take_prefix_take_left h).sublist.count_le _

theorem generation_after_lt {k : Nat} (h : calls[k]? = some .start) (hik : i ≤ k) (hkj : k < j) :
    (after calls i).generation < (after calls j).generation := by
  have hbefore : (after calls i).generation ≤ (after calls k).generation :=
    generation_after_le hik
  have hnext : (after calls (k + 1)).generation = (after calls k).generation + 1 := by
    rw [after_succ h]
    rfl
  have hbehind : (after calls (k + 1)).generation ≤ (after calls j).generation :=
    generation_after_le hkj
  omega

/-- The numbers of a handle are no greater than those of the generations and the registrations. -/
theorem Answers.bounds (h : Answers calls i path code handle) :
    handle.generation ≤ calls.count .start ∧ handle.sequence < calls.countP Call.registers := by
  have hgeneration := h.generation_eq
  have hissued := issued_register (reachable_after calls i).numbered.current path code
  have hnext := nextSequence_after_le calls (i + 1)
  rw [after_succ h.call] at hnext
  rw [h.handle, Issued, generation_register, hgeneration] at hissued
  have hsequence := (hissued.resolve_left (Nat.lt_irrefl _)).2
  refine ⟨?_, Nat.lt_of_lt_of_le hsequence hnext⟩
  rw [hgeneration, generation_after]
  exact (List.take_sublist i calls).count_le _

/-! ### How long a path keeps its handle -/

/-- The call at a place begins another generation, or discards that of the handle. -/
def EndsAt (calls : List Call) (handle : Handle) (k : Nat) : Prop :=
  calls[k]? = some .start ∨ Discards calls k handle.generation

theorem held_succ (h : (after calls n).handle? path = some handle)
    (hk : ¬ EndsAt calls handle n) : (after calls (n + 1)).handle? path = some handle := by
  obtain ⟨hstart, hdiscard⟩ := not_or.mp hk
  cases hc : calls[n]? with
  | none => rwa [after_succ_of_none hc]
  | some c =>
    rw [after_succ hc]
    cases c with
    | start => exact absurd hc hstart
    | register other code => exact handle?_register h other code
    | install generation => exact h
    | discard generation =>
      show ((after calls n).discard generation).handle? path = some handle
      by_cases hi : (after calls n).installed = some generation
      · rwa [discard, if_pos hi]
      · rw [handle?, current_discard hi, if_neg]
        · exact h
        · rintro rfl
          have hm : (path, handle) ∈ (after calls n).current := Table.mem_of_get?_eq_some h
          have hg := (reachable_after calls n).numbered.own _ hm
          exact hdiscard ⟨hg ▸ hc, hg ▸ hi⟩

theorem retired_succ (h : (after calls n).handle? path = some handle)
    (hk : EndsAt calls handle n) : (after calls (n + 1)).Retired handle := by
  have hn := (reachable_after calls n).numbered
  have hm : (path, handle) ∈ (after calls n).current := Table.mem_of_get?_eq_some h
  have hissued := hn.current _ hm
  rcases hk with hc | ⟨hc, hi⟩
  · rw [after_succ hc]
    exact ⟨hissued.call .start, fun _ hm => nomatch hm⟩
  · rw [after_succ hc]
    refine ⟨hissued.call _, fun entry hentry => ?_⟩
    have hentry : entry ∈ ((after calls n).discard handle.generation).current := hentry
    rw [current_discard hi, if_pos (hn.own _ hm).symm] at hentry
    exact absurd hentry List.not_mem_nil

/-- The path keeps the handle up to the first call that ends that, and then no path has it. -/
theorem Answers.held_or_retired (h : Answers calls i path code handle) (hij : i < j) :
    (∀ k, i < k → k < j → ¬ EndsAt calls handle k) ∧
        (after calls j).handle? path = some handle ∨
      (∃ k, i < k ∧ k < j ∧ EndsAt calls handle k) ∧ (after calls j).Retired handle := by
  induction hij with
  | refl =>
    refine .inl ⟨fun k hk hk' => by omega, ?_⟩
    rw [after_succ h.call]
    exact h.handle ▸ handle?_register_self _ _ _
  | @step j hij ih =>
    rcases ih with ⟨hkept, hheld⟩ | ⟨⟨k, hk, hk', hend⟩, hretired⟩
    · by_cases hend : EndsAt calls handle j
      · exact .inr ⟨⟨j, hij, Nat.lt_succ_self j, hend⟩, retired_succ hheld hend⟩
      · refine .inl ⟨fun k hk hk' => ?_, held_succ hheld hend⟩
        rcases Nat.lt_succ_iff_lt_or_eq.mp hk' with hlt | rfl
        · exact hkept k hk hlt
        · exact hend
    · refine .inr ⟨⟨k, hk, Nat.lt_succ_of_lt hk', hend⟩, ?_⟩
      cases hc : calls[j]? with
      | none => rwa [after_succ_of_none hc]
      | some c =>
        rw [after_succ hc]
        exact hretired.call c

/-- A path has the same handle in the same generation, unless that was discarded meanwhile, and any
other registration is answered another handle. -/
theorem Answers.handle_eq_iff {other : Path} {code' : String} {handle' : Handle}
    (h : Answers calls i path code handle) (h' : Answers calls j other code' handle')
    (hij : i ≤ j) :
    handle = handle' ↔
      path = other ∧ (after calls i).generation = (after calls j).generation ∧
        ∀ k, i < k → k < j → ¬ Discards calls k (after calls i).generation := by
  rw [← h.generation_eq]
  rcases Nat.eq_or_lt_of_le hij with rfl | hlt
  · obtain ⟨rfl, rfl⟩ := Call.register.inj (Option.some.inj (h.call.symm.trans h'.call))
    have hsame : handle = handle' := h.handle.symm.trans h'.handle
    exact iff_of_true hsame ⟨rfl, h.generation_eq, fun k hk hk' => by omega⟩
  · have hj := reachable_after calls j
    rcases h.held_or_retired hlt with ⟨hkept, hheld⟩ | ⟨⟨k, hk, hk', hend⟩, hretired⟩
    · have hgeneration : handle.generation = (after calls j).generation :=
        hj.numbered.own _ (Table.mem_of_get?_eq_some hheld)
      have hanswer := register_eq_iff hj.distinct hj.numbered hheld other code'
      rw [h'.handle] at hanswer
      rw [eq_comm, hanswer, eq_comm]
      exact (and_iff_left ⟨hgeneration, fun k hk hk' hd => hkept k hk hk' (.inr hd)⟩).symm
    · refine iff_of_false (fun he => ?_) ?_
      · exact hretired.ne_register other code' (h'.handle.trans he.symm)
      · rintro ⟨-, hgeneration, hdiscards⟩
        rcases hend with hstart | hdiscard
        · have hlater := generation_after_lt hstart (Nat.le_of_lt hk) hk'
          rw [h.generation_eq] at hgeneration
          omega
        · exact hdiscards k hk hk' hdiscard

/-! ### What a handle fetches -/

/-- What a handle fetches after a call is the code that the call answered it for, or, if the call
did not answer it, what it fetched before. -/
theorem fetch?_succ (h : (after calls (n + 1)).fetch? handle = some code) :
    (∃ path, Answers calls n path code handle) ∨
      (after calls n).fetch? handle = some code ∧
        ∀ path code', ¬ Answers calls n path code' handle := by
  cases hc : calls[n]? with
  | none =>
    rw [after_succ_of_none hc] at h
    exact .inr ⟨h, fun path code' ha => nomatch hc.symm.trans ha.call⟩
  | some c =>
    rw [after_succ hc] at h
    have hother (hr : c.registers = false) (path : Path) (code' : String) :
        ¬ Answers calls n path code' handle := by
      intro ha
      obtain rfl := Option.some.inj (hc.symm.trans ha.call)
      cases hr
    have hpruned (hp : Pruned (after calls n) ((after calls n).call c)) :
        (after calls n).fetch? handle = some code := by
      rcases hp.fetch? handle with hnone | he
      · cases hnone.symm.trans h
      · exact he.symm.trans h
    cases c with
    | start => exact .inr ⟨h, hother rfl⟩
    | install generation => exact .inr ⟨hpruned (pruned_install _ generation), hother rfl⟩
    | discard generation => exact .inr ⟨hpruned (pruned_discard _ generation), hother rfl⟩
    | register path new =>
      have hfetch := (fetch?_register (after calls n) path new handle).symm.trans h
      split at hfetch
      · rename_i he
        obtain rfl := Option.some.inj hfetch
        exact .inl ⟨path, hc, he.symm⟩
      · rename_i hne
        refine .inr ⟨hfetch, fun path' code' ha => hne ?_⟩
        obtain ⟨rfl, rfl⟩ := Call.register.inj (Option.some.inj (hc.symm.trans ha.call))
        exact ha.handle.symm

/-- A handle fetches the code of the last call that answered it. -/
theorem exists_latest (h : (after calls n).fetch? handle = some code) :
    ∃ i path, i < n ∧ Answers calls i path code handle ∧
      ∀ j, i < j → j < n → ∀ other code', ¬ Answers calls j other code' handle := by
  induction n with
  | zero => cases h
  | succ n ih =>
    rcases fetch?_succ h with ⟨path, hanswers⟩ | ⟨hbefore, hn⟩
    · exact ⟨n, path, Nat.lt_succ_self n, hanswers, fun j hj hj' => by omega⟩
    · obtain ⟨i, path, hi, hanswers, hlast⟩ := ih hbefore
      refine ⟨i, path, Nat.lt_succ_of_lt hi, hanswers, fun j hj hj' => ?_⟩
      rcases Nat.lt_succ_iff_lt_or_eq.mp hj' with hlt | rfl
      · exact hlast j hj hlt
      · exact hn

/-- Over any run of calls, two registrations are answered one handle exactly when they are of one
path in one generation that is not discarded between them. Different handles have different
addresses, and what a handle fetches is the code of the last registration that was answered it. Its
numbers do not exceed those of the generations and registrations, so they fit in 64 bits while these
do. -/
theorem handles_identify (calls : List Call) :
    (∀ i j path other code code' handle handle', i ≤ j → Answers calls i path code handle →
      Answers calls j other code' handle' →
        (handle = handle' ↔
          path = other ∧ (after calls i).generation = (after calls j).generation ∧
            ∀ k, i < k → k < j → ¬ Discards calls k (after calls i).generation)) ∧
      (∀ handle handle' : Handle, handle ≠ handle' → handle.text ≠ handle'.text) ∧
      (∀ n handle code, (after calls n).fetch? handle = some code →
        ∃ i path, i < n ∧ Answers calls i path code handle ∧
          ∀ j, i < j → j < n → ∀ other code', ¬ Answers calls j other code' handle) ∧
      ∀ i path code handle, Answers calls i path code handle →
        handle.generation ≤ calls.count .start ∧
          handle.sequence < calls.countP Call.registers := by
  refine ⟨?_, fun _ _ hne he => hne (Handle.text_injective he), fun _ _ _ h => exists_latest h,
    fun _ _ _ _ h => h.bounds⟩
  intro i j path other code code' handle handle' hij h h'
  exact h.handle_eq_iff h' hij

/-- A path is registered twice in a generation and once more after that was discarded. -/
theorem handles_identify_around_discard :
    let calls : List Call := [.start, .register ⟨["a.js"]⟩ "1", .install 1, .start,
      .register ⟨["a.js"]⟩ "2", .register ⟨["a.js"]⟩ "3", .discard 2, .register ⟨["a.js"]⟩ "4"]
    Answers calls 4 ⟨["a.js"]⟩ "2" ⟨2, 0⟩ ∧ Answers calls 5 ⟨["a.js"]⟩ "3" ⟨2, 0⟩ ∧
      Answers calls 7 ⟨["a.js"]⟩ "4" ⟨2, 1⟩ ∧
      (∀ k, 4 < k → k < 5 → ¬ Discards calls k 2) ∧
      (¬ ∀ k, 5 < k → k < 7 → ¬ Discards calls k 2) ∧
      (Handle.mk 2 0).text ≠ (Handle.mk 2 1).text ∧
      (after calls 6).fetch? ⟨2, 0⟩ = some "3" ∧
      ∃ i path, i < 6 ∧ Answers calls i path "3" ⟨2, 0⟩ := by
  intro calls
  have h₄ : Answers calls 4 ⟨["a.js"]⟩ "2" ⟨2, 0⟩ := ⟨rfl, rfl⟩
  have h₅ : Answers calls 5 ⟨["a.js"]⟩ "3" ⟨2, 0⟩ := ⟨rfl, rfl⟩
  have h₇ : Answers calls 7 ⟨["a.js"]⟩ "4" ⟨2, 1⟩ := ⟨rfl, rfl⟩
  have hfetch : (after calls 6).fetch? ⟨2, 0⟩ = some "3" := by decide
  obtain ⟨hidentify, haddress, hlatest, -⟩ := handles_identify calls
  have hsame := hidentify 4 5 _ _ _ _ _ _ (by decide) h₄ h₅
  have hother := hidentify 5 7 _ _ _ _ _ _ (by decide) h₅ h₇
  obtain ⟨i, path, hi, hanswers, -⟩ := hlatest 6 _ _ hfetch
  exact ⟨h₄, h₅, h₇, (hsame.mp rfl).2.2, fun hd => absurd (hother.mpr ⟨rfl, rfl, hd⟩) (by decide),
    haddress _ _ (by decide), hfetch, i, path, hi, hanswers⟩

end Registry

end LivePreview
