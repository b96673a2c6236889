import HttpWire.Source.Feed
import HttpWire.Source.Frames
import HttpWire.Source.Memory
import HttpWire.Source.Scripted

/-!
# Bodies of a session

The bodies that a session can give a message, as one type of source. A body fed
through a channel carries the number of its channel, by which its senders find it.
-/

namespace HttpWire

/-- A body of any kind. -/
inductive Body
  | memory (bytes : Bytes)
  | feed (channel : Nat) (feed : Feed)
  | frames (frames : Frames)
  | scripted (script : Scripted)

namespace Body

/-- Reads from the source behind the body. -/
def read (b : Body) (slice : Bytes) : ReadReport × Bytes × Body :=
  match b with
  | .memory source =>
    let (report, slice, source) := Source.read source slice
    (report, slice, .memory source)
  | .feed channel source =>
    let (report, slice, source) := Source.read source slice
    (report, slice, .feed channel source)
  | .frames source =>
    let (report, slice, source) := Source.read source slice
    (report, slice, .frames source)
  | .scripted source =>
    let (report, slice, source) := Source.read source slice
    (report, slice, .scripted source)

/-- Asks the source behind the body. -/
def poll (b : Body) : Readiness × Body :=
  match b with
  | .memory source =>
    let (readiness, source) := Source.poll source
    (readiness, .memory source)
  | .feed channel source =>
    let (readiness, source) := Source.poll source
    (readiness, .feed channel source)
  | .frames source =>
    let (readiness, source) := Source.poll source
    (readiness, .frames source)
  | .scripted source =>
    let (readiness, source) := Source.poll source
    (readiness, .scripted source)

instance : Source Body where
  read := read
  poll := poll
  length_read b slice := by
    match b with
    | .memory source => exact Source.length_read source slice
    | .feed _ source => exact Source.length_read source slice
    | .frames source => exact Source.length_read source slice
    | .scripted source => exact Source.length_read source slice

/-- The lengths of the slices that a scripted body was lent since they were last
told, and the body with all of them told. -/
def takeOffered : Body → List Nat × Body
  | .scripted script =>
    (script.offered.reverse, .scripted { script with offered := [] })
  | b => ([], b)

end Body

/-- How a body is made. -/
inductive BodySpec
  | memory (bytes : Bytes)
  | channel
  | frames (answers : List BodyFrame)
  | scripted (reads : List ScriptedRead) (polls : List Readiness)
  deriving DecidableEq, Repr

end HttpWire
