/-!
# Unbounded channels

A channel carries items from any number of sending handles to one receiver, in
the order they were sent. It closes when it is told to or when its last sending
handle is dropped; what was sent before is still received. The receiver therefore
learns one of three things: the next item, that there will be none any more, or
that there is none yet.
-/

namespace HttpWire

/-- The receiver's side of a channel, with the number of sending
handles that are still held. -/
structure Channel (α : Type) where
  items : List α := []
  senders : Nat := 1
  closed : Bool := false

/-- What the receiver finds. -/
inductive Received (α : Type)
  | item (a : α) (rest : Channel α)
  | ended
  | pending

namespace Channel

variable {α : Type}

/-- Sends an item behind all others; a closed channel takes none. -/
def send? (ch : Channel α) (a : α) : Option (Channel α) :=
  if ch.closed then none else some { ch with items := ch.items ++ [a] }

/-- Closes the channel for every sending handle. -/
def close (ch : Channel α) : Channel α :=
  { ch with closed := true }

/-- One more sending handle. -/
def cloneSender (ch : Channel α) : Channel α :=
  { ch with senders := ch.senders + 1 }

/-- One sending handle less; the last one closes the channel. -/
def dropSender (ch : Channel α) : Channel α :=
  { ch with senders := ch.senders - 1, closed := ch.closed || ch.senders ≤ 1 }

/-- Takes the next item, if there is one. -/
def receive (ch : Channel α) : Received α :=
  match ch.items with
  | a :: rest => .item a { ch with items := rest }
  | [] => if ch.closed then .ended else .pending

/-- What is received is the first of the items. -/
theorem items_of_receive {ch rest : Channel α} {a : α}
    (h : ch.receive = .item a rest) :
    ch.items = a :: rest.items := by
  unfold receive at h
  split at h
  · next heq =>
    cases h
    exact heq
  · split at h <;> cases h

theorem length_items_of_receive {ch rest : Channel α} {a : α}
    (h : ch.receive = .item a rest) :
    rest.items.length < ch.items.length := by
  rw [items_of_receive h]
  exact Nat.lt_succ_self _

/-- What is sent comes behind all that was sent before. -/
theorem items_of_send {ch ch' : Channel α} {a : α} (h : ch.send? a = some ch') :
    ch'.items = ch.items ++ [a] := by
  unfold send? at h
  split at h
  · cases h
  · cases h
    rfl

end Channel

end HttpWire
