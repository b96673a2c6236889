import HttpWire.Chunk
import HttpWire.Numeral.Hex

/-!
# Chunks on the wire

The written form of a chunk. A chunk with data is its size line, the data and
a line end; the last chunk is a size line of zero, its trailers a line each,
and a blank line. `pieces` gives the form as the parts it is copied from and
`wire` as one byte string.
-/

namespace HttpWire.Chunk

/-- The written form of one extension. -/
def extensionWire (e : Extension) : Bytes :=
  59 :: e.name ++
    match e.value with
    | none => []
    | some value => 61 :: value

/-- The size line: the size in base 16, the extensions, and the line end. -/
def sizeLine (c : Chunk) : Bytes :=
  Hex.digits c.data.length ++ c.extensions.flatMap extensionWire ++ Bytes.crlf

/-- The written form of one trailer. -/
def trailerWire (h : Header) : Bytes :=
  h.name ++ [58, 32] ++ h.value ++ Bytes.crlf

/-- The parts a chunk is copied from, in order. -/
def pieces (c : Chunk) : List Bytes :=
  if c.isLast then
    [c.sizeLine ++ (c.trailers.getD []).flatMap trailerWire ++ Bytes.crlf]
  else [c.sizeLine, c.data, Bytes.crlf]

/-- The written form of a chunk. -/
def wire (c : Chunk) : Bytes :=
  c.pieces.flatten

theorem length_wire_pos (c : Chunk) : 0 < c.wire.length := by
  have hcrlf : Bytes.crlf.length = 2 := rfl
  unfold wire pieces
  split
  · simp only [List.flatten_cons, List.length_append, hcrlf]
    omega
  · simp only [List.flatten_cons, List.length_append, hcrlf]
    omega

end HttpWire.Chunk
