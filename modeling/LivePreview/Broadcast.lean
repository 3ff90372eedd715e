/-!
# Broadcasts

One side publishes items, any number of receivers take them in their own time. Every receiver has a
mailbox of what it has not taken yet. Receivers are numbered in the order in which they subscribe.
-/
namespace LivePreview

/-- What one receiver still has to take. -/
structure Mailbox (α : Type) where
  pending : List α
  /-- The sending side still delivers here. -/
  attached : Bool := true
deriving Repr

/-- The mailboxes by number; a receiver that was dropped has none. -/
structure Broadcast (α : Type) where
  mailboxes : List (Option (Mailbox α)) := []
deriving Repr

namespace Broadcast

variable {α : Type}

/-- The number of the next receiver. -/
def next (b : Broadcast α) : Nat := b.mailboxes.length

/-- Adds a receiver that finds `backlog` in its mailbox. -/
def subscribe (b : Broadcast α) (backlog : List α) : Broadcast α :=
  ⟨b.mailboxes ++ [some { pending := backlog }]⟩

/-- Drops a receiver and what it has not taken. -/
def unsubscribe (b : Broadcast α) (receiver : Nat) : Broadcast α :=
  ⟨b.mailboxes.set receiver none⟩

/-- Delivers an item to every attached receiver. -/
def publish (b : Broadcast α) (item : α) : Broadcast α :=
  ⟨b.mailboxes.map (Option.map fun mailbox =>
    if mailbox.attached then { mailbox with pending := mailbox.pending ++ [item] } else mailbox)⟩

/-- Detaches every receiver. What they have not taken stays with them. -/
def close (b : Broadcast α) : Broadcast α :=
  ⟨b.mailboxes.map (Option.map fun mailbox => { mailbox with attached := false })⟩

/-- The mailbox of a receiver that was not dropped. -/
def mailbox? (b : Broadcast α) (receiver : Nat) : Option (Mailbox α) :=
  (b.mailboxes[receiver]?).join

/-- Takes the oldest item out of the mailbox of a receiver. -/
def receive (b : Broadcast α) (receiver : Nat) : Broadcast α :=
  ⟨b.mailboxes.modify receiver (Option.map fun mailbox =>
    { mailbox with pending := mailbox.pending.tail })⟩

/-- Empties the mailbox of a receiver. -/
def drain (b : Broadcast α) (receiver : Nat) : Broadcast α :=
  ⟨b.mailboxes.modify receiver (Option.map fun mailbox => { mailbox with pending := [] })⟩

end Broadcast

end LivePreview
