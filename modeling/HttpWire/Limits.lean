/-!
# Size limits

Two sizes can be set: how much data one chunk cut from a body may carry, and how
large the buffer is that a message is written through. Both have a least value
below which no progress would be possible.
-/

namespace HttpWire

/-- The smallest buffer that a message is written through: room for a byte of
chunked data and its framing. -/
def leastBuffer : Nat := 64

/-- The size limits of an encoder. -/
structure Limits where
  /-- the most data that a chunk cut from a body carries -/
  maxChunk : Nat := 16384
  /-- the size of the buffer that messages are written through -/
  writeBuffer : Nat := 8192
  maxChunk_pos : 1 ≤ maxChunk := by decide
  leastBuffer_le : leastBuffer ≤ writeBuffer := by decide
  deriving DecidableEq

namespace Limits

/-- Sets the largest chunk; zero is raised to one. -/
def withMaxChunk (l : Limits) (size : Nat) : Limits :=
  { l with maxChunk := max size 1, maxChunk_pos := Nat.le_max_right _ _ }

/-- Sets the size of the write buffer, raised to the least one. -/
def withWriteBuffer (l : Limits) (size : Nat) : Limits :=
  { l with
    writeBuffer := max size leastBuffer, leastBuffer_le := Nat.le_max_right _ _ }

end Limits

end HttpWire
