import HttpWire.Body.Chunked
import HttpWire.Body.Fixed
import HttpWire.Plan

/-!
# The body of a message

What follows the head, in the framing that was planned: a declared number of
bytes, chunks, or nothing.
-/

namespace HttpWire

/-- How far the body of a message has been written. -/
inductive Payload
  | fixed (body : FixedBody)
  | chunked (body : ChunkedBody)
  | empty
  deriving DecidableEq, Repr

namespace Payload

variable {σ : Type} [Source σ]

/-- The body before its first byte. -/
def start (framing : Framing) (maxChunk : Nat) : Payload :=
  match framing with
  | .length n => .fixed { length := n }
  | .chunked => .chunked { maxChunk := maxChunk }
  | .empty => .empty

/-- Writes what there is and what fits. -/
def write (p : Payload) (supply : Supply σ) (dst : Buffer) : Written Payload σ :=
  match p with
  | .fixed body =>
    let w := body.write supply dst
    ⟨w.result, .fixed w.state, w.supply, w.dst⟩
  | .chunked body =>
    let w := body.write supply dst
    ⟨w.result, .chunked w.state, w.supply, w.dst⟩
  | .empty => ⟨.ok .done, .empty, supply, dst⟩

/-- Whether writing would get anywhere. -/
def poll (p : Payload) (supply : Supply σ) : Readiness × Supply σ :=
  match p with
  | .fixed body => body.poll supply
  | .chunked body => body.poll supply
  | .empty => (.ready, supply)

end Payload

end HttpWire
