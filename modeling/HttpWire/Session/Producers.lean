import HttpWire.Session.Body
import HttpWire.Supply

/-!
# Producers

The senders of body data and of chunks, and what they do while a message is being
written. A sender is known by its index in the order the senders were made. A body
sender outlives the body it feeds; what it sends then goes nowhere, and the same
holds of a chunk sender and its queue.
-/

namespace HttpWire

/-- The senders made so far. -/
structure Producers where
  /-- the number of the channel that each body sender feeds; none
  for one that was dropped -/
  bodySenders : List (Option Nat) := []
  /-- which chunk senders are not dropped -/
  chunkSenders : List Bool := []
  /-- how many body channels were made -/
  channels : Nat := 0
  deriving DecidableEq, Repr

/-- What is done with a body sender. -/
inductive BodyAct
  | send (data : Bytes)
  /-- sends the error and drops the sender -/
  | abort (error : IoError)
  | drop
  | clone
  deriving DecidableEq, Repr

/-- What is done with a chunk sender. -/
inductive ChunkAct
  /-- builds a chunk and sends it -/
  | send (data : Bytes) (additions : List Chunk.Addition)
  /-- closes the queue for every sender -/
  | close
  | drop
  | clone
  deriving DecidableEq, Repr

/-- A step of a producer: what is done with the sender of an index. -/
inductive ProducerStep
  | body (sender : Nat) (act : BodyAct)
  | chunk (sender : Nat) (act : ChunkAct)
  deriving DecidableEq, Repr

/-- What comes of a step of a producer. -/
inductive ProducerAnswer
  | ok
  /-- there is a new sender with this index -/
  | sender (index : Nat)
  /-- there is no such sender, or it was dropped -/
  | noSender
  | rejected (cause : Rejection)
  | failed (failure : Failure)
  deriving DecidableEq

namespace Producers

/-- Makes a body; one that is fed through a channel comes with a sender. -/
def makeBody (p : Producers) : BodySpec → Body × Producers
  | .memory bytes => (.memory bytes, p)
  | .channel =>
    (.feed p.channels {},
      { p with
        bodySenders := p.bodySenders ++ [some p.channels]
        channels := p.channels + 1 })
  | .frames answers => (.frames { answers := answers }, p)
  | .scripted reads polls => (.scripted { reads := reads, polls := polls }, p)

/-- The number of the channel that a body sender feeds. -/
def bodySender? (p : Producers) (i : Nat) : Option Nat :=
  p.bodySenders[i]?.join

/-- The chunk sender exists and is not dropped. -/
def hasChunkSender (p : Producers) (i : Nat) : Bool :=
  p.chunkSenders[i]?.getD false

/-- The channel with this number, if the body is still fed through it. -/
def feedOf? (supply : Supply Body) (channel : Nat) : Option Feed :=
  match supply.body with
  | some (.feed number feed) => if number = channel then some feed else none
  | _ => none

/-- Changes the channel with this number, if the body is still fed through it. -/
def onChannel (supply : Supply Body) (channel : Nat)
    (f : Channel (Except IoError Bytes) → Channel (Except IoError Bytes)) :
    Supply Body :=
  match feedOf? supply channel with
  | some feed =>
    { supply with
      body := some (.feed channel { feed with channel := f feed.channel }) }
  | none => supply

/-- Sends on the channel with this number; nothing comes of it if
the body is gone. -/
def sendOn? (supply : Supply Body) (channel : Nat)
    (item : Except IoError Bytes) : Option (Supply Body) :=
  match feedOf? supply channel with
  | some feed =>
    (feed.channel.send? item).map (fun ch =>
      { supply with body := some (.feed channel { feed with channel := ch }) })
  | none => none

/-- Changes the channel of the queue, if there still is one. -/
def onQueue (supply : Supply Body) (f : Channel Chunk → Channel Chunk) : Supply Body :=
  { supply with
    queue := supply.queue.map (fun q => { q with channel := f q.channel }) }

/-- Queues a chunk; nothing comes of it if the queue is closed or gone. -/
def queue? (supply : Supply Body) (c : Chunk) : Option (Supply Body) :=
  supply.queue.bind (fun q =>
    (q.channel.send? c).map
      (fun ch => { supply with queue := some { q with channel := ch } }))

/-- Drops a body sender. -/
def dropBodySender (p : Producers) (supply : Supply Body)
    (i channel : Nat) : Producers × Supply Body :=
  ({ p with bodySenders := p.bodySenders.set i none },
    onChannel supply channel Channel.dropSender)

/-- What is done with the body sender `i`, which feeds a channel. -/
def actBody (p : Producers) (supply : Supply Body) (i channel : Nat) :
    BodyAct → ProducerAnswer × Producers × Supply Body
  | .send data =>
    match sendOn? supply channel (.ok data) with
    | some supply => (.ok, p, supply)
    | none => (.failed .bodyGone, p, supply)
  | .abort error =>
    (.ok,
      p.dropBodySender ((sendOn? supply channel (.error error)).getD supply) i channel)
  | .drop => (.ok, p.dropBodySender supply i channel)
  | .clone =>
    (.sender p.bodySenders.length,
      { p with bodySenders := p.bodySenders ++ [some channel] },
      onChannel supply channel Channel.cloneSender)

/-- What is done with the chunk sender `i`. -/
def actChunk (p : Producers) (supply : Supply Body) (i : Nat) :
    ChunkAct → ProducerAnswer × Producers × Supply Body
  | .send data additions =>
    match Chunk.build data additions with
    | .error cause => (.rejected cause, p, supply)
    | .ok chunk =>
      match queue? supply chunk with
      | some supply => (.ok, p, supply)
      | none => (.failed .queueClosed, p, supply)
  | .close => (.ok, p, onQueue supply Channel.close)
  | .drop =>
    (.ok, { p with chunkSenders := p.chunkSenders.set i false },
      onQueue supply Channel.dropSender)
  | .clone =>
    (.sender p.chunkSenders.length,
      { p with chunkSenders := p.chunkSenders ++ [true] },
      onQueue supply Channel.cloneSender)

/-- One step of a producer. -/
def act (p : Producers)
    (supply : Supply Body) : ProducerStep → ProducerAnswer × Producers × Supply Body
  | .body i act =>
    match p.bodySender? i with
    | none => (.noSender, p, supply)
    | some channel => p.actBody supply i channel act
  | .chunk i act =>
    if p.hasChunkSender i then p.actChunk supply i act else (.noSender, p, supply)

end Producers

end HttpWire
