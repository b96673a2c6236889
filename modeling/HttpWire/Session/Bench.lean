import HttpWire.Session.Producers

/-!
# Reading a body by hand

A bench holds one body, without a message, and reads it into buffers of any size.
-/

namespace HttpWire

/-- A body on a bench, if it is not dropped, with its senders. -/
structure Bench where
  body : Option Body := none
  producers : Producers := {}

/-- A step on a bench. -/
inductive BenchStep
  | produce (step : ProducerStep)
  /-- reads into a buffer of this size -/
  | read (size : Nat)
  | poll
  | drop
  deriving DecidableEq, Repr

/-- What comes of a step on a bench. -/
inductive BenchAnswer
  | ok
  | noBody
  | produced (answer : ProducerAnswer)
  | read (report : ReadReport) (buffer : Bytes)
  | polled (readiness : Readiness)
  deriving DecidableEq

namespace Bench

/-- What a buffer is filled with before it is read into. -/
def blank : UInt8 := 46

/-- A bench with a body that is made as given. -/
def start (body : Option BodySpec) : Bench :=
  match body with
  | none => {}
  | some spec =>
    let (body, producers) := ({} : Producers).makeBody spec
    { body := some body, producers := producers }

/-- One step on a bench. -/
def step (b : Bench) : BenchStep → BenchAnswer × Bench
  | .produce step =>
    let (answer, producers, supply) := b.producers.act { body := b.body } step
    (.produced answer, { body := supply.body, producers := producers })
  | .read size =>
    match b.body with
    | none => (.noBody, b)
    | some body =>
      let (report, buffer, body) := Source.read body (List.replicate size blank)
      (.read report buffer, { b with body := some body })
  | .poll =>
    match b.body with
    | none => (.noBody, b)
    | some body =>
      let (readiness, body) := Source.poll body
      (.polled readiness, { b with body := some body })
  | .drop => (.ok, { b with body := none })

/-- The answers to a list of steps. -/
def answers (b : Bench) : List BenchStep → List BenchAnswer
  | [] => []
  | step :: more =>
    let (answer, b) := b.step step
    answer :: answers b more

end Bench

end HttpWire
