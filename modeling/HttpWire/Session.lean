import HttpWire.Encoder.Drain
import HttpWire.Session.Producers
import HttpWire.Transmission
import HttpWire.Transport.Scripted

/-!
# Sessions

A session is the life of one message from the side of those who work on it. At the
message level it is built and planned; at the encoder level it is written to
buffers; at the sending level it is written to the session's transport. The
encoder works on the message's own body and on the session's queue, so what an
encoder leaves of them is there for the next one. Producers act at every level;
any other step belongs to one level and does nothing at another.
-/

namespace HttpWire

/-- The transport of a session with the size of the buffer it is written
through. -/
structure Writer where
  capacity : Nat
  transport : ScriptedTransport := {}
  deriving DecidableEq, Repr

/-- What a session is at. -/
inductive Level
  | message
  /-- writes the message; the queue is lent to the encoder or not -/
  | encoder (encoder : Encoder) (lendsQueue : Bool)
  /-- sends the message -/
  | sending (encoder : Encoder) (lendsQueue : Bool) (transmission : Transmission)

/-- The state of a session. -/
structure Session where
  limits : Limits := {}
  message : Message Body
  queue : Option ChunkQueue := none
  producers : Producers := {}
  writer : Option Writer := none
  level : Level := .message

/-- A step at the message level. -/
inductive MessageStep
  | setMethod (method : Bytes)
  | setTarget (target : Bytes)
  | setReason (reason : Bytes)
  | addHeader (name value : Bytes)
  | setBody (body : BodySpec)
  | takeBody
  | inspect
  | pollQueue
  | dropQueue
  /-- makes the writer, with a buffer of its own size or of the session's -/
  | makeWriter (capacity : Option Nat) (writes : List ScriptedWrite)
      (flushes : List FlushReport)
  | takeWriter
  /-- plans the message and goes to the encoder level; the queue is lent or not -/
  | plan (options : PlanOptions) (lendsQueue : Bool)

/-- A step at the encoder level. -/
inductive EncoderStep
  /-- writes into a buffer that holds some bytes already -/
  | write (capacity : Nat) (held : Bytes)
  | drain (capacity calls : Nat)
  | poll
  | inspect
  /-- goes to the sending level -/
  | send
  | flush
  /-- goes back to the message level -/
  | drop

/-- A step at the sending level. -/
inductive SendingStep
  /-- lets the transmission run as far as it gets -/
  | run
  /-- drops the transmission -/
  | cancel

/-- A step of a session. -/
inductive SessionStep
  | produce (step : ProducerStep)
  | message (step : MessageStep)
  | encoder (step : EncoderStep)
  | sending (step : SendingStep)

/-- What comes of a step of a session. -/
inductive SessionAnswer
  | ok
  | wrongLevel
  | noQueue
  | noWriter
  | produced (answer : ProducerAnswer)
  | headerCount (count : Nat)
  | taken (hadBody : Bool)
  | message (startLine : StartLine) (headers : Headers) (hasBody : Bool)
  | queueState (ready finished : Bool)
  | dropped (hadQueue : Bool)
  | output (bytes : Bytes)
  | rejected (cause : Rejection)
  | planned (plan : Plan) (hasBody hasQueue : Bool)
  | encoder (plan : Plan) (hasBody hasQueue isDone : Bool)
  | wrote (result : Except Failure Progress) (bytes : Bytes) (isDone : Bool)
      (offered : List Nat)
  | drained (result : Except Failure Encoder.DrainEnd) (outputs : List Bytes)
      (offered : List Nat)
  | polled (poll : Poll)
  /-- how a transmission or a flush stands, what happened on the transport since
  that was last told, all it has accepted, and the slices lent to a scripted
  body -/
  | ran (poll : Poll) (events : List TransportEvent) (output : Bytes)
      (offered : List Nat)

namespace Session

/-- How many steps one run of a transmission may take. Every step encodes, moves
bytes or uses up an entry of a script, so no message that fits in memory comes
near it; a run that it cuts off goes on with the next one. -/
def stepBudget : Nat := 1 <<< 60

/-- Begins a session with a message whose body is made as given, and
with a queue or without. -/
def start (limits : Limits) (message : Message Body) (body : Option BodySpec)
    (hasQueue : Bool) : Session :=
  let producers : Producers := { chunkSenders := if hasQueue then [true] else [] }
  let queue : Option ChunkQueue := if hasQueue then some {} else none
  match body with
  | none =>
    { limits := limits, message := message, queue := queue, producers := producers }
  | some spec =>
    let (body, producers) := producers.makeBody spec
    { limits := limits, message := message.withBody (some body)
      queue := queue, producers := producers }

/-- What the producers act on. -/
def supply (s : Session) : Supply Body :=
  ⟨s.message.body, s.queue⟩

/-- What an encoder works on, with the queue lent or not. -/
def lent (s : Session) (lendsQueue : Bool) : Supply Body :=
  ⟨s.message.body, if lendsQueue then s.queue else none⟩

/-- Takes back what was lent. -/
def restore (s : Session) (lendsQueue : Bool) (supply : Supply Body) : Session :=
  { s with
    message := s.message.withBody supply.body
    queue := if lendsQueue then supply.queue else s.queue }

/-- The lengths of the slices lent to a scripted body since they were last told. -/
def takeOffered (s : Session) : List Nat × Session :=
  match s.message.body with
  | none => ([], s)
  | some body =>
    let (offered, body) := body.takeOffered
    (offered, { s with message := s.message.withBody (some body) })

/-- One step at the message level. -/
def stepMessage (s : Session) : MessageStep → SessionAnswer × Session
  | .setMethod method => (.ok, { s with message := s.message.setMethod method })
  | .setTarget target => (.ok, { s with message := s.message.setTarget target })
  | .setReason reason => (.ok, { s with message := s.message.setReason reason })
  | .addHeader name value =>
    let message := s.message.addHeader name value
    (.headerCount message.headers.length, { s with message := message })
  | .setBody spec =>
    let (body, producers) := s.producers.makeBody spec
    (.ok, { s with message := s.message.withBody (some body), producers := producers })
  | .takeBody =>
    (.taken s.message.body.isSome, { s with message := s.message.withBody none })
  | .inspect =>
    (.message s.message.startLine s.message.headers s.message.body.isSome, s)
  | .pollQueue =>
    match s.queue with
    | none => (.noQueue, s)
    | some queue =>
      let (ready, queue) := queue.poll
      (.queueState ready queue.isFinished, { s with queue := some queue })
  | .dropQueue => (.dropped s.queue.isSome, { s with queue := none })
  | .makeWriter capacity writes flushes =>
    let writer : Writer :=
      { capacity := max (capacity.getD s.limits.writeBuffer) leastBuffer
        transport := { writes := writes, flushes := flushes } }
    (.ok, { s with writer := some writer })
  | .takeWriter =>
    match s.writer with
    | none => (.noWriter, s)
    | some writer => (.output writer.transport.output, { s with writer := none })
  | .plan options lendsQueue =>
    match s.message.plan options with
    | .error cause => (.rejected cause, s)
    | .ok plan =>
      let supply := s.lent lendsQueue
      (.planned plan supply.body.isSome supply.queue.isSome,
        { s with level := .encoder (Encoder.start plan s.limits) lendsQueue })

/-- Tells how a transmission or a flush stands. -/
def tellRun (s : Session) (writer : Writer) (poll : Poll) : SessionAnswer × Session :=
  let (events, transport) := writer.transport.takeEvents
  let (offered, s) := s.takeOffered
  (.ran poll events transport.output offered,
    { s with writer := some { writer with transport := transport } })

/-- One step at the encoder level. -/
def stepEncoder (s : Session) (e : Encoder)
    (lendsQueue : Bool) : EncoderStep → SessionAnswer × Session
  | .write capacity held =>
    let w := e.write (s.lent lendsQueue) (Buffer.holding capacity held)
    let s :=
      { s.restore lendsQueue w.supply with level := .encoder w.state lendsQueue }
    let (offered, s) := s.takeOffered
    (.wrote w.result w.dst.bytes w.state.isDone offered, s)
  | .drain capacity calls =>
    let d := e.drain capacity calls (s.lent lendsQueue)
    let s :=
      { s.restore lendsQueue d.supply with level := .encoder d.encoder lendsQueue }
    let (offered, s) := s.takeOffered
    (.drained d.result d.outputs offered, s)
  | .poll =>
    let (poll, supply) := e.poll (s.lent lendsQueue)
    (.polled poll, s.restore lendsQueue supply)
  | .inspect =>
    let supply := s.lent lendsQueue
    (.encoder e.plan supply.body.isSome supply.queue.isSome e.isDone, s)
  | .send =>
    match s.writer with
    | none => (.noWriter, s)
    | some writer =>
      (.ok, { s with level := .sending e lendsQueue { capacity := writer.capacity } })
  | .flush =>
    match s.writer with
    | none => (.noWriter, s)
    | some writer =>
      let (report, transport) := writer.transport.flush
      let poll :=
        match report with
        | .flushed => .ready
        | .pending => .pending
        | .failed error => .failed (.io error)
      s.tellRun { writer with transport := transport } poll
  | .drop => (.ok, { s with level := .message })

/-- One step at the sending level. -/
def stepSending (s : Session) (e : Encoder) (lendsQueue : Bool) (t : Transmission) :
    SendingStep → SessionAnswer × Session
  | .run =>
    match s.writer with
    | none => (.noWriter, s)
    | some writer =>
      let (standing, link) :=
        t.run stepBudget
          { encoder := e, supply := s.lent lendsQueue,
            transport := writer.transport : Link Body _ }
      let s := s.restore lendsQueue link.supply
      let writer := { writer with transport := link.transport }
      match standing with
      | .running t | .suspended t =>
        { s with level := .sending link.encoder lendsQueue t }.tellRun writer .pending
      | .finished (.ok ()) =>
        { s with level := .encoder link.encoder lendsQueue }.tellRun writer .ready
      | .finished (.error failure) =>
        { s with level := .encoder link.encoder lendsQueue }.tellRun writer
          (.failed failure)
  | .cancel => (.ok, { s with level := .encoder e lendsQueue })

/-- One step of a producer. -/
def stepProducer (s : Session) (step : ProducerStep) : SessionAnswer × Session :=
  let (answer, producers, supply) := s.producers.act s.supply step
  (.produced answer, { s.restore true supply with producers := producers })

/-- One step of a session. -/
def step (s : Session) (step : SessionStep) : SessionAnswer × Session :=
  match step, s.level with
  | .produce step, _ => s.stepProducer step
  | .message step, .message => s.stepMessage step
  | .encoder step, .encoder e lendsQueue => s.stepEncoder e lendsQueue step
  | .sending step, .sending e lendsQueue t => s.stepSending e lendsQueue t step
  | _, _ => (.wrongLevel, s)

/-- The answers to a list of steps. -/
def answers (s : Session) : List SessionStep → List SessionAnswer
  | [] => []
  | step :: more =>
    let (answer, s) := s.step step
    answer :: answers s more

end Session

end HttpWire
