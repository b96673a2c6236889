import HttpWire.Channel
import HttpWire.Source

/-!
# Bodies fed through a channel

The receiving end of a channel whose items are pieces of body data, or an error by
which a producer gives up. The piece at hand is handed out in as many reads as it
takes; an error is reported once, at its place between the data; and the body ends
when the channel does.
-/

namespace HttpWire

/-- The receiving end of a body channel. -/
structure Feed where
  channel : Channel (Except IoError Bytes) := {}
  /-- what is left of the piece at hand -/
  held : Bytes := []
  /-- the end of the channel has been seen -/
  ended : Bool := false

namespace Feed

/-- Receives items until there is data at hand, an error, or the end; empty
pieces are passed over. -/
def receive (f : Feed) : Readiness × Feed :=
  match _h : f.channel.receive with
  | .item (.ok piece) rest =>
    if piece.isEmpty then receive { f with channel := rest }
    else (.ready, { f with channel := rest, held := piece })
  | .item (.error e) rest => (.failed e, { f with channel := rest })
  | .ended => (.ready, { f with ended := true })
  | .pending => (.pending, f)
termination_by f.channel.items.length
decreasing_by exact Channel.length_items_of_receive _h

/-- Ready when there is data at hand or the end was seen; otherwise
what receiving finds. -/
def poll (f : Feed) : Readiness × Feed :=
  if !f.held.isEmpty || f.ended then (.ready, f) else f.receive

/-- Hands out what fits of the piece at hand, after receiving one
if there is none. -/
def read (f : Feed) (slice : Bytes) : ReadReport × Bytes × Feed :=
  match f.poll with
  | (.failed e, f) => (.failed e, slice, f)
  | (.pending, f) => (.pending, slice, f)
  | (.ready, f) =>
    if f.held.isEmpty then (.ended, slice, f)
    else
      let part := f.held.take slice.length
      (.data part.length, copyFront part slice,
        { f with held := f.held.drop slice.length })

instance : Source Feed where
  read := read
  poll := poll
  length_read f slice := by
    unfold read
    split
    · rfl
    · rfl
    · split
      · rfl
      · exact length_copyFront _ _

end Feed

end HttpWire
