import HttpWire.Encoder
import HttpWire.Transport

/-!
# Sending a message over a transport

A transmission runs an encoder to its end in rounds. A round encodes into an empty
buffer and offers the transport what came of it until all is accepted. A round
that brought nothing flushes instead and waits for the body. Twice in a row a body
may say that it is ready and bring nothing only once: the second time the
transmission gives up. After the last round everything is flushed.

`step` is one action of a transmission, and everything that can be said of one is
said of its steps. `run` takes steps until the transmission is finished, or
suspended because the transport or the body has to be waited for.
-/

namespace HttpWire

/-- What a transmission does next. -/
inductive Stage
  /-- encodes the next round -/
  | encode
  /-- offers the transport what it has not accepted of the round, which ended so -/
  | write (rest : Bytes) (progress : Progress)
  /-- flushes after a round that brought nothing -/
  | flush
  /-- asks the body, which has or has not kept it waiting since the flush -/
  | await (waited : Bool)
  /-- flushes after the last round -/
  | finish
  deriving DecidableEq, Repr

/-- A transmission of one message. -/
structure Transmission where
  /-- the size of the buffer a round is encoded into -/
  capacity : Nat
  stage : Stage := .encode
  /-- how many rounds in a row brought nothing although the body was ready at
  once -/
  idleRounds : Nat := 0
  deriving DecidableEq, Repr

/-- What a transmission works on. -/
structure Link (σ τ : Type) where
  encoder : Encoder
  supply : Supply σ
  transport : τ

/-- How a transmission stands after a step. -/
inductive Standing
  /-- there is more to do at once -/
  | running (t : Transmission)
  /-- the transport or the body has to be waited for -/
  | suspended (t : Transmission)
  /-- the message is sent, or sending it has failed -/
  | finished (result : Except Failure Unit)

namespace Transmission

variable {σ τ : Type} [Source σ] [Transport τ]

/-- This many idle rounds in a row are too many. -/
def mostIdleRounds : Nat := 2

/-- The stage after a round that is completely accepted. -/
def afterRound : Progress → Stage
  | .done => .finish
  | .inProgress => .encode

/-- The stage after a round that brought nothing. -/
def afterEmptyRound : Progress → Stage
  | .done => .finish
  | .inProgress => .flush

/-- Encodes a round. What a failing round wrote is not sent. -/
def encodeRound (t : Transmission) (l : Link σ τ) : Standing × Link σ τ :=
  let w := l.encoder.write l.supply (Buffer.empty t.capacity)
  let l := { l with encoder := w.state, supply := w.supply }
  match w.result with
  | .error failure => (.finished (.error failure), l)
  | .ok progress =>
    if w.dst.bytes.isEmpty then
      (.running { t with stage := afterEmptyRound progress }, l)
    else (.running { t with stage := .write w.dst.bytes progress, idleRounds := 0 }, l)

/-- Offers the transport the rest of a round. Accepting nothing is a failure, and
an interrupted write is tried again at once. -/
def offer (t : Transmission) (rest : Bytes) (progress : Progress) (l : Link σ τ) :
    Standing × Link σ τ :=
  let (report, transport) := Transport.write l.transport rest
  let l := { l with transport := transport }
  match report with
  | .accepted 0 => (.finished (.error (.io ⟨.writeZero, none⟩)), l)
  | .accepted (n + 1) =>
    let rest := rest.drop (n + 1)
    if rest.isEmpty then (.running { t with stage := afterRound progress }, l)
    else (.running { t with stage := .write rest progress }, l)
  | .pending => (.suspended t, l)
  | .failed error =>
    if error.kind = .interrupted then (.running t, l)
      else (.finished (.error (.io error)), l)

/-- Flushes the transport and goes on as given. -/
def flushThen (t : Transmission) (next : Standing)
    (l : Link σ τ) : Standing × Link σ τ :=
  let (report, transport) := Transport.flush l.transport
  let l := { l with transport := transport }
  match report with
  | .flushed => (next, l)
  | .pending => (.suspended t, l)
  | .failed error => (.finished (.error (.io error)), l)

/-- Asks the body. A body that had to be waited for starts the count of idle
rounds anew; one that was ready at once adds to it. -/
def awaitBody (t : Transmission) (waited : Bool)
    (l : Link σ τ) : Standing × Link σ τ :=
  let (poll, supply) := l.encoder.poll l.supply
  let l := { l with supply := supply }
  match poll with
  | .pending => (.suspended { t with stage := .await true }, l)
  | .failed failure => (.finished (.error failure), l)
  | .ready =>
    if waited then (.running { t with stage := .encode, idleRounds := 0 }, l)
    else if t.idleRounds + 1 < mostIdleRounds then
      (.running { t with stage := .encode, idleRounds := t.idleRounds + 1 }, l)
    else (.finished (.error (.noProgress t.capacity)), l)

/-- One action of a transmission. -/
def step (t : Transmission) (l : Link σ τ) : Standing × Link σ τ :=
  match t.stage with
  | .encode => t.encodeRound l
  | .write rest progress => t.offer rest progress l
  | .flush => t.flushThen (.running { t with stage := .await false }) l
  | .await waited => t.awaitBody waited l
  | .finish => t.flushThen (.finished (.ok ())) l

/-- Takes steps until there is no more to do at once, but no more than `budget`. -/
def run : Nat → Transmission → Link σ τ → Standing × Link σ τ
  | 0, t, l => (.running t, l)
  | budget + 1, t, l =>
    match t.step l with
    | (.running t, l) => run budget t l
    | ended => ended

end Transmission

end HttpWire
