import HttpWire.Body.Cut
import HttpWire.Output.Cursor

/-!
# Chunked bodies

A chunked body is written from two places in turn: chunks cut from the body source
until it ends, then the chunks of the queue, each as it was prepared. The first
chunk without data ends the body; when the queue is closed or missing, a plain
last chunk is made up. A chunk that does not fit is kept in flight and goes on in
the next buffer, before anything else is looked at.

Every round of the two loops takes room or a chunk off the queue, so a call ends
whatever the source does.
-/

namespace HttpWire

/-- A chunk that is being written, and how far. -/
structure InFlight where
  chunk : Chunk
  cursor : Cursor := {}
  deriving DecidableEq, Repr

/-- Where the next chunk comes from. -/
inductive ChunkedStage
  | body
  | queue
  | finished
  deriving DecidableEq, Repr

/-- How far a chunked body has been written. -/
structure ChunkedBody where
  maxChunk : Nat
  stage : ChunkedStage := .body
  inFlight : Option InFlight := none
  deriving DecidableEq, Repr

namespace ChunkedBody

variable {σ : Type}

/-- The last chunk is completely written. -/
def isDone (c : ChunkedBody) : Bool :=
  c.stage == .finished

/-- Goes on with a chunk: keeps it in flight if it is cut, and is finished
if it was the last one. -/
def send (c : ChunkedBody) (f : InFlight)
    (dst : Buffer) : Bool × ChunkedBody × Buffer :=
  match f.cursor.write f.chunk.pieces dst with
  | (false, cursor, dst) =>
    (false, { c with inFlight := some { f with cursor := cursor } }, dst)
  | (true, _, dst) =>
    (true,
      { c with
        inFlight := none
        stage := if f.chunk.isLast then .finished else c.stage }, dst)

theorem room_send {c c' : ChunkedBody} {chunk : Chunk} {dst dst' : Buffer}
    (h : c.send { chunk := chunk } dst = (true, c', dst')) : dst'.room < dst.room := by
  unfold send at h
  split at h
  · simp at h
  · next heq =>
    simp only [Prod.mk.injEq, true_and] at h
    rw [← h.2]
    exact Cursor.room_write chunk.length_wire_pos heq

/-- Ends the body with a plain last chunk. -/
def sendLast (c : ChunkedBody) (supply : Supply σ)
    (dst : Buffer) : Written ChunkedBody σ :=
  match c.send { chunk := Chunk.last } dst with
  | (false, c, dst) => ⟨.ok .inProgress, c, supply, dst⟩
  | (true, c, dst) => ⟨.ok .done, c, supply, dst⟩

/-- Sends the chunks of a queue up to the last one, until one is
cut or there is none yet. -/
def drainQueue (c : ChunkedBody) (body : Option σ) (queue : ChunkQueue)
    (dst : Buffer) : Written ChunkedBody σ :=
  match _h : queue.take with
  | (.pending, queue) => ⟨.ok .inProgress, c, ⟨body, some queue⟩, dst⟩
  | (.closed, queue) => c.sendLast ⟨body, some queue⟩ dst
  | (.chunk chunk, queue) =>
    match c.send { chunk := chunk } dst with
    | (false, c, dst) => ⟨.ok .inProgress, c, ⟨body, some queue⟩, dst⟩
    | (true, c, dst) =>
      if c.isDone then ⟨.ok .done, c, ⟨body, some queue⟩, dst⟩
        else drainQueue c body queue dst
termination_by queue.toList.length
decreasing_by exact ChunkQueue.length_toList_of_take _h

/-- One round of `drainQueue`, without the equation that its termination needs. -/
theorem drainQueue_eq (c : ChunkedBody) (body : Option σ) (queue : ChunkQueue)
    (dst : Buffer) :
    c.drainQueue body queue dst =
      match queue.take with
      | (.pending, queue) => ⟨.ok .inProgress, c, ⟨body, some queue⟩, dst⟩
      | (.closed, queue) => c.sendLast ⟨body, some queue⟩ dst
      | (.chunk chunk, queue) =>
        match c.send { chunk := chunk } dst with
        | (false, c, dst) => ⟨.ok .inProgress, c, ⟨body, some queue⟩, dst⟩
        | (true, c, dst) =>
          if c.isDone then ⟨.ok .done, c, ⟨body, some queue⟩, dst⟩
          else drainQueue c body queue dst := by
  rw [drainQueue]
  split <;> next h => rw [h]

/-- Sends what comes after the body source: the queue, or the end
if there is none. -/
def afterBody (c : ChunkedBody) (supply : Supply σ)
    (dst : Buffer) : Written ChunkedBody σ :=
  match supply.queue with
  | none => c.sendLast supply dst
  | some queue => c.drainQueue supply.body queue dst

variable [Source σ]

/-- Sends chunks cut from the source, until it has nothing to hand out or one is
cut short, and what comes after it once it has ended. -/
def drainBody (c : ChunkedBody) (source : σ) (queue : Option ChunkQueue)
    (dst : Buffer) : Written ChunkedBody σ :=
  match _hcut : Cut.fromSource c.maxChunk source dst with
  | (.written, source, dst) => drainBody c source queue dst
  | (.held chunk, source, dst) =>
    match _hsend : c.send { chunk := chunk } dst with
    | (false, c, dst) => ⟨.ok .inProgress, c, ⟨some source, queue⟩, dst⟩
    | (true, c, dst) => drainBody c source queue dst
  | (.stalled, source, dst) => ⟨.ok .inProgress, c, ⟨some source, queue⟩, dst⟩
  | (.ended, source, dst) =>
    afterBody { c with stage := .queue } ⟨some source, queue⟩ dst
  | (.failed failure, source, dst) => ⟨.error failure, c, ⟨some source, queue⟩, dst⟩
termination_by dst.room
decreasing_by
  · exact Cut.room_fromSource _hcut
  · rw [← Cut.dst_of_held _hcut]
    exact room_send _hsend

/-- One round of `drainBody`, without the equations that its termination needs. -/
theorem drainBody_eq (c : ChunkedBody) (source : σ) (queue : Option ChunkQueue)
    (dst : Buffer) :
    c.drainBody source queue dst =
      match Cut.fromSource c.maxChunk source dst with
      | (.written, source, dst) => drainBody c source queue dst
      | (.held chunk, source, dst) =>
        match c.send { chunk := chunk } dst with
        | (false, c, dst) => ⟨.ok .inProgress, c, ⟨some source, queue⟩, dst⟩
        | (true, c, dst) => drainBody c source queue dst
      | (.stalled, source, dst) => ⟨.ok .inProgress, c, ⟨some source, queue⟩, dst⟩
      | (.ended, source, dst) =>
        afterBody { c with stage := .queue } ⟨some source, queue⟩ dst
      | (.failed failure, source, dst) =>
        ⟨.error failure, c, ⟨some source, queue⟩, dst⟩ := by
  rw [drainBody]
  split
  case h_2 h =>
    rw [h]
    simp only
    split <;> next h => rw [h]
  all_goals next h => rw [h]

/-- Sends what comes next when no chunk is in flight. -/
def next (c : ChunkedBody) (supply : Supply σ)
    (dst : Buffer) : Written ChunkedBody σ :=
  match c.stage, supply.body with
  | .body, some source => c.drainBody source supply.queue dst
  | _, _ => c.afterBody supply dst

/-- Writes what there is and what fits. -/
def write (c : ChunkedBody) (supply : Supply σ)
    (dst : Buffer) : Written ChunkedBody σ :=
  if c.isDone then ⟨.ok .done, c, supply, dst⟩
  else
    match c.inFlight with
    | none => c.next supply dst
    | some f =>
      match c.send f dst with
      | (false, c, dst) => ⟨.ok .inProgress, c, supply, dst⟩
      | (true, c, dst) =>
        if c.isDone then ⟨.ok .done, c, supply, dst⟩ else c.next supply dst

/-- Ready when only room is missing; otherwise ready as the place is that the
next chunk comes from. -/
def poll (c : ChunkedBody) (supply : Supply σ) : Readiness × Supply σ :=
  if c.isDone || c.inFlight.isSome then (.ready, supply)
  else
    match c.stage, supply.body, supply.queue with
    | .body, some source, _ =>
      let (readiness, source) := Source.poll source
      (readiness, { supply with body := some source })
    | _, _, some queue =>
      let (ready, queue) := queue.poll
      (if ready then .ready else .pending, { supply with queue := some queue })
    | _, _, none => (.ready, supply)

end ChunkedBody

end HttpWire
