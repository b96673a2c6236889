import HttpWire.Header
import HttpWire.Source

/-!
# Bodies made of frames

A body that answers each poll with a frame: data, trailers, an error, nothing yet,
or its end. Only the data is handed out. Empty data and trailers are passed over,
an error is reported once at its place, and the body is not polled again after its
end nor while data of a frame is left.
-/

namespace HttpWire

/-- What a body answers to one poll. -/
inductive BodyFrame
  | data (piece : Bytes)
  | trailers (fields : Headers)
  | failed (text : String)
  | pending
  | finished
  deriving DecidableEq, Repr

/-- A body given by its answers to successive polls, with the data at hand. Past
the last answer the body is finished. -/
structure Frames where
  answers : List BodyFrame
  /-- what is left of the data frame at hand -/
  held : Bytes := []
  /-- the body has answered that it is finished -/
  ended : Bool := false
  deriving DecidableEq, Repr

namespace Frames

/-- Polls a body until there is data at hand, an error, the end, or nothing yet. -/
def pull : List BodyFrame → Readiness × Frames
  | [] => (.ready, { answers := [], ended := true })
  | .finished :: rest => (.ready, { answers := rest, ended := true })
  | .data piece :: rest =>
    if piece.isEmpty then pull rest else (.ready, { answers := rest, held := piece })
  | .trailers _ :: rest => pull rest
  | .failed text :: rest => (.failed ⟨.other, some text⟩, { answers := rest })
  | .pending :: rest => (.pending, { answers := rest })

/-- Ready when there is data at hand or the end was seen; otherwise what
polling the body finds. -/
def poll (b : Frames) : Readiness × Frames :=
  if !b.held.isEmpty || b.ended then (.ready, b) else pull b.answers

/-- Hands out what fits of the data at hand, after pulling a frame
if there is none. -/
def read (b : Frames) (slice : Bytes) : ReadReport × Bytes × Frames :=
  match b.poll with
  | (.failed e, b) => (.failed e, slice, b)
  | (.pending, b) => (.pending, slice, b)
  | (.ready, b) =>
    if b.held.isEmpty then (.ended, slice, b)
    else
      let part := b.held.take slice.length
      (.data part.length, copyFront part slice,
        { b with held := b.held.drop slice.length })

instance : Source Frames where
  read := read
  poll := poll
  length_read b slice := by
    unfold read
    split
    · rfl
    · rfl
    · split
      · rfl
      · exact length_copyFront _ _

end Frames

end HttpWire
