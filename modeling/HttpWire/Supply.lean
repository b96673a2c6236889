import HttpWire.Chunk.Queue
import HttpWire.Failure
import HttpWire.Output

/-!
# What a message is fed from, and what a call leaves

While a message is written, its body bytes come from two places, each of which may
be missing: its body source and a queue of prepared chunks. Every writing call
takes both and gives both back, with the buffer and with its own progress.
-/

namespace HttpWire

/-- The places body bytes come from. -/
structure Supply (σ : Type) where
  body : Option σ := none
  queue : Option ChunkQueue := none

/-- How far a writing call came without failing. -/
inductive Progress
  /-- more calls are needed -/
  | inProgress
  /-- everything is written -/
  | done
  deriving DecidableEq, Repr

/-- What a writing call leaves behind: its result, the state it goes on from, the
supply, and the buffer. -/
structure Written (π σ : Type) where
  result : Except Failure Progress
  state : π
  supply : Supply σ
  dst : Buffer

end HttpWire
