import LivePreview.Broadcast

/-!
# Mailboxes

What each operation on a broadcast does to the mailbox of one receiver.
-/
namespace LivePreview.Broadcast

variable {α : Type}

theorem lt_next_of_mailbox? {b : Broadcast α} {receiver : Nat} {mailbox : Mailbox α}
    (h : b.mailbox? receiver = some mailbox) : receiver < b.next := by
  rw [mailbox?] at h
  cases hm : b.mailboxes[receiver]? with
  | none => rw [hm] at h; cases h
  | some found => exact (List.getElem?_eq_some_iff.mp hm).1

theorem mailbox?_subscribe (b : Broadcast α) (backlog : List α) (receiver : Nat) :
    (b.subscribe backlog).mailbox? receiver =
      if receiver = b.next then some { pending := backlog } else b.mailbox? receiver := by
  rw [mailbox?, subscribe, List.getElem?_append, mailbox?, next]
  split
  · rename_i hlt
    rw [if_neg (by omega)]
  · rename_i hge
    split
    · rename_i he
      rw [he, Nat.sub_self]
      rfl
    · rename_i hne
      have hout : [some ({ pending := backlog } : Mailbox α)].length ≤
          receiver - b.mailboxes.length := by
        rw [List.length_singleton]
        omega
      rw [List.getElem?_eq_none hout, List.getElem?_eq_none (by omega)]

theorem mailbox?_unsubscribe (b : Broadcast α) (dropped receiver : Nat) :
    (b.unsubscribe dropped).mailbox? receiver =
      if receiver = dropped then none else b.mailbox? receiver := by
  rw [mailbox?, unsubscribe, List.getElem?_set, mailbox?]
  by_cases h : dropped = receiver
  · subst h
    rw [if_pos rfl, if_pos rfl]
    split <;> rfl
  · rw [if_neg h, if_neg fun he => h he.symm]

theorem mailbox?_publish (b : Broadcast α) (item : α) (receiver : Nat) :
    (b.publish item).mailbox? receiver = (b.mailbox? receiver).map fun mailbox =>
      if mailbox.attached then { mailbox with pending := mailbox.pending ++ [item] }
      else mailbox := by
  rw [mailbox?, publish, List.getElem?_map, mailbox?]
  cases b.mailboxes[receiver]? <;> rfl

theorem mailbox?_close (b : Broadcast α) (receiver : Nat) :
    b.close.mailbox? receiver =
      (b.mailbox? receiver).map fun mailbox => { mailbox with attached := false } := by
  rw [mailbox?, close, List.getElem?_map, mailbox?]
  cases b.mailboxes[receiver]? <;> rfl

/-- A receiver that takes something touches its own mailbox only. -/
theorem mailbox?_modify (b : Broadcast α) (change : Mailbox α → Mailbox α)
    (taker receiver : Nat) :
    mailbox? ⟨b.mailboxes.modify taker (Option.map change)⟩ receiver =
      if receiver = taker then (b.mailbox? receiver).map change else b.mailbox? receiver := by
  rw [mailbox?, List.getElem?_modify, mailbox?]
  by_cases h : taker = receiver
  · subst h
    rw [if_pos rfl]
    cases b.mailboxes[taker]? with
    | none => rfl
    | some found => simp
  · rw [if_neg fun he => h he.symm]
    cases b.mailboxes[receiver]? <;> simp [h]

/-- An empty mailbox, or none, has nothing to give up. -/
theorem drain_eq_self {b : Broadcast α} {receiver : Nat}
    (h : ∀ mailbox, b.mailbox? receiver = some mailbox → mailbox.pending = []) :
    b.drain receiver = b := by
  refine congrArg Broadcast.mk (List.ext_getElem? fun index => ?_)
  rw [List.getElem?_modify]
  split
  · rename_i he
    subst he
    cases hm : b.mailboxes[receiver]? with
    | none => rfl
    | some slot =>
      cases slot with
      | none => rfl
      | some mailbox =>
        have hp := h mailbox (by rw [mailbox?, hm]; rfl)
        change some (some { mailbox with pending := [] }) = some (some mailbox)
        rw [← hp]
  · exact id_map _

@[simp] theorem next_subscribe (b : Broadcast α) (backlog : List α) :
    (b.subscribe backlog).next = b.next + 1 := by
  simp [next, subscribe]

@[simp] theorem next_unsubscribe (b : Broadcast α) (receiver : Nat) :
    (b.unsubscribe receiver).next = b.next := by
  simp [next, unsubscribe]

@[simp] theorem next_publish (b : Broadcast α) (item : α) : (b.publish item).next = b.next := by
  simp [next, publish]

@[simp] theorem next_close (b : Broadcast α) : b.close.next = b.next := by
  simp [next, close]

@[simp] theorem next_receive (b : Broadcast α) (receiver : Nat) :
    (b.receive receiver).next = b.next := by
  simp [next, receive]

@[simp] theorem next_drain (b : Broadcast α) (receiver : Nat) :
    (b.drain receiver).next = b.next := by
  simp [next, drain]

end LivePreview.Broadcast
