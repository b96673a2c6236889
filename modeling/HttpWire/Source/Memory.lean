import HttpWire.Source

/-!
# Bodies in memory

A byte string is a source: every read takes what fits off its front, and it
ends when it is empty.
-/

namespace HttpWire.Memory

/-- Reads the front of a byte string. -/
def read (body slice : Bytes) : ReadReport × Bytes × Bytes :=
  if body.isEmpty then (.ended, slice, body)
  else
    let part := body.take slice.length
    (.data part.length, copyFront part slice, body.drop slice.length)

instance : Source Bytes where
  read := read
  poll body := (.ready, body)
  length_read body slice := by
    unfold read
    split
    · rfl
    · exact length_copyFront _ _

end HttpWire.Memory
