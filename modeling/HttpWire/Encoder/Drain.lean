import HttpWire.Encoder

/-!
# Draining an encoder

An encoder is driven with one fresh buffer after another, all of one capacity,
until it is done, fails, or has nothing to write.
-/

namespace HttpWire.Encoder

variable {σ : Type} [Source σ]

/-- Why draining ended without a failure. -/
inductive DrainEnd
  /-- the message is completely written -/
  | done
  /-- a call wrote nothing -/
  | stalled
  /-- the calls are used up -/
  | limit
  deriving DecidableEq, Repr

/-- What draining leaves behind. -/
structure Drained (σ : Type) where
  result : Except Failure DrainEnd
  encoder : Encoder
  supply : Supply σ
  /-- what each call wrote, in order; the failing one included -/
  outputs : List Bytes

/-- Drains an encoder with at most `calls` more buffers of the given capacity;
`outputs` is what the earlier calls wrote, the last one first. -/
def drainFrom (capacity : Nat)
    (outputs : List Bytes) : Nat → Encoder → Supply σ → Drained σ
  | 0, e, supply => ⟨.ok .limit, e, supply, outputs.reverse⟩
  | calls + 1, e, supply =>
    let w := e.write supply (Buffer.empty capacity)
    let outputs := w.dst.bytes :: outputs
    match w.result with
    | .error failure => ⟨.error failure, w.state, w.supply, outputs.reverse⟩
    | .ok .done => ⟨.ok .done, w.state, w.supply, outputs.reverse⟩
    | .ok .inProgress =>
      if w.dst.bytes.isEmpty then ⟨.ok .stalled, w.state, w.supply, outputs.reverse⟩
      else drainFrom capacity outputs calls w.state w.supply

/-- Drains an encoder with at most `calls` buffers of the given capacity. -/
def drain (capacity calls : Nat) (e : Encoder) (supply : Supply σ) : Drained σ :=
  drainFrom capacity [] calls e supply

end HttpWire.Encoder
