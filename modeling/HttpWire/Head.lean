import HttpWire.Output.Cursor
import HttpWire.Plan

/-!
# The head of a message

The head is the start line, a line for each field and a blank line. It is copied
line by line from the pieces of the plan; what is kept between the calls is which
lines are left and how far the first of them has come.
-/

namespace HttpWire

/-- The protocol version as it stands in a start line. -/
def httpVersion : Bytes := Bytes.ofString "HTTP/1.1"

/-- A single space. -/
def space : Bytes := [32]

/-- The pieces of a start line. -/
def CheckedLine.pieces : CheckedLine → List Bytes
  | .request method target => [method, space, target, space, httpVersion, Bytes.crlf]
  | .response status reason =>
    [httpVersion, space, status.digits, space, reason, Bytes.crlf]

/-- The pieces of a field line. -/
def Header.pieces (h : Header) : List Bytes :=
  [h.name, [58, 32], h.value, Bytes.crlf]

/-- The lines of the head, each as the pieces it is copied from. -/
def Plan.headLines (p : Plan) : List (List Bytes) :=
  p.startLine.pieces :: p.headers.map Header.pieces ++ [[Bytes.crlf]]

/-- The head as one byte string. -/
def Plan.headWire (p : Plan) : Bytes :=
  p.headLines.flatten.flatten

/-- How far the head has been written. -/
structure HeadState where
  /-- the lines that are not completely written -/
  lines : List (List Bytes)
  /-- how far the first of them is written -/
  cursor : Cursor := {}
  deriving DecidableEq, Repr

namespace HeadState

/-- The state before the first byte. -/
def start (p : Plan) : HeadState :=
  { lines := p.headLines }

/-- Writes lines as long as they fit; the cursor belongs to the first of them. -/
def writeLines : List (List Bytes) → Cursor → Buffer → HeadState × Buffer
  | [], cursor, dst => ({ lines := [], cursor := cursor }, dst)
  | line :: more, cursor, dst =>
    match cursor.write line dst with
    | (true, cursor, dst) => writeLines more cursor dst
    | (false, cursor, dst) => ({ lines := line :: more, cursor := cursor }, dst)

/-- Writes as much of the head as fits. -/
def write (h : HeadState) (dst : Buffer) : HeadState × Buffer :=
  writeLines h.lines h.cursor dst

/-- The whole head is written. -/
def isDone (h : HeadState) : Bool :=
  h.lines.isEmpty

end HeadState

end HttpWire
