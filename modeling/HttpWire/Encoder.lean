import HttpWire.Body.Payload
import HttpWire.Head
import HttpWire.Limits

/-!
# Writing one message

An encoder turns a planned message into bytes, one lent buffer at a time. It
writes the head, then the body, and is done; or it fails, and then it stays
failed. It never waits: when there is nothing to write, it says that it is in
progress, and `poll` tells whether calling again would get anywhere.
-/

namespace HttpWire

/-- Where an encoder stands. -/
inductive Phase
  | head (head : HeadState)
  | body (body : Payload)
  | done
  | failed
  deriving DecidableEq, Repr

/-- The encoder of one message. -/
structure Encoder where
  plan : Plan
  limits : Limits
  phase : Phase
  deriving DecidableEq

/-- What an encoder answers when it is asked whether writing would get anywhere. -/
inductive Poll
  | ready
  | pending
  | failed (failure : Failure)
  deriving DecidableEq, Repr

namespace Encoder

variable {σ : Type} [Source σ]

/-- The encoder before the first byte of its message. -/
def start (plan : Plan) (limits : Limits) : Encoder :=
  { plan := plan, limits := limits, phase := .head (HeadState.start plan) }

/-- Every byte of the message is written. -/
def isDone (e : Encoder) : Bool :=
  e.phase == .done

/-- Writes on with the body and takes note of how it ended. -/
def writeBody (e : Encoder) (body : Payload) (supply : Supply σ)
    (dst : Buffer) : Written Encoder σ :=
  let w := body.write supply dst
  let phase :=
    match w.result with
    | .ok .done => .done
    | .ok .inProgress => .body w.state
    | .error _ => .failed
  ⟨w.result, { e with phase := phase }, w.supply, w.dst⟩

/-- Writes the next part of the message into the spare room of `dst`. -/
def write (e : Encoder) (supply : Supply σ) (dst : Buffer) : Written Encoder σ :=
  match e.phase with
  | .head head =>
    let (head, dst) := head.write dst
    if head.isDone then
      e.writeBody (Payload.start e.plan.framing e.limits.maxChunk) supply dst
    else ⟨.ok .inProgress, { e with phase := .head head }, supply, dst⟩
  | .body body => e.writeBody body supply dst
  | .done => ⟨.ok .done, e, supply, dst⟩
  | .failed => ⟨.error .aborted, e, supply, dst⟩

/-- Whether writing would get anywhere. Only the body can keep an encoder
waiting. -/
def poll (e : Encoder) (supply : Supply σ) : Poll × Supply σ :=
  match e.phase with
  | .body body =>
    match body.poll supply with
    | (.ready, supply) => (.ready, supply)
    | (.pending, supply) => (.pending, supply)
    | (.failed error, supply) => (.failed (.io error), supply)
  | .failed => (.failed .aborted, supply)
  | .head _ | .done => (.ready, supply)

end Encoder

end HttpWire
