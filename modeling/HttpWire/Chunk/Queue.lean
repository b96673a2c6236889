import HttpWire.Channel
import HttpWire.Chunk

/-!
# The queue of prepared chunks

A queue is the receiver of a channel of chunks that can also be asked whether it
has something to give. Asking takes the next chunk off the channel and keeps it at
the front of the queue, where the next taker finds it.
-/

namespace HttpWire

/-- A queue of chunks. -/
structure ChunkQueue where
  channel : Channel Chunk := {}
  /-- the chunk that was found by asking and not yet taken -/
  front : Option Chunk := none
  /-- the end of the channel has been seen -/
  ended : Bool := false

namespace ChunkQueue

/-- What taking a chunk finds. -/
inductive Taken
  | chunk (c : Chunk)
  | pending
  | closed

/-- The chunk that was taken, if there was one. -/
def Taken.toList : Taken → List Chunk
  | .chunk c => [c]
  | .pending | .closed => []

/-- The chunks the queue still has, in the order in which they are taken. -/
def toList (q : ChunkQueue) : List Chunk :=
  q.front.toList ++ q.channel.items

/-- Asks whether there is a chunk or the end to be had; a chunk that is
found stays at the front. -/
def poll (q : ChunkQueue) : Bool × ChunkQueue :=
  if q.front.isSome || q.ended then (true, q)
  else
    match q.channel.receive with
    | .item c rest => (true, { q with channel := rest, front := some c })
    | .ended => (true, { q with ended := true })
    | .pending => (false, q)

/-- Takes the chunk at the front. -/
def take (q : ChunkQueue) : Taken × ChunkQueue :=
  match q.poll with
  | (false, q) => (.pending, q)
  | (true, q) =>
    match q.front with
    | some c => (.chunk c, { q with front := none })
    | none => (.closed, q)

/-- The queue is closed and every chunk has been taken. -/
def isFinished (q : ChunkQueue) : Bool :=
  q.ended && q.front.isNone

/-- Asking neither takes a chunk nor changes their order. -/
theorem toList_poll (q : ChunkQueue) : (q.poll).2.toList = q.toList := by
  unfold poll
  split
  · rfl
  · next h =>
    simp only [Bool.or_eq_true, not_or, Bool.not_eq_true, Option.isSome_eq_false_iff]
      at h
    cases hr : q.channel.receive with
    | item c rest =>
      simp [toList, Channel.items_of_receive hr, Option.isNone_iff_eq_none.mp h.1]
    | ended => rfl
    | pending => rfl

/-- What is taken is off the front. -/
theorem toList_take {q rest : ChunkQueue} {taken : Taken}
    (h : q.take = (taken, rest)) :
    q.toList = taken.toList ++ rest.toList := by
  rw [← toList_poll q]
  unfold take at h
  rcases hpoll : q.poll with ⟨_ | _, asked⟩ <;> rw [hpoll] at h
  · cases h
    rfl
  · simp only at h ⊢
    cases hfront : asked.front <;> rw [hfront] at h <;> cases h
    · rfl
    · simp [toList, Taken.toList, hfront]

theorem toList_of_take {q rest : ChunkQueue} {c : Chunk}
    (h : q.take = (.chunk c, rest)) :
    q.toList = c :: rest.toList :=
  toList_take h

theorem length_toList_of_take {q rest : ChunkQueue} {c : Chunk}
    (h : q.take = (.chunk c, rest)) :
    rest.toList.length < q.toList.length := by
  rw [toList_of_take h]
  exact Nat.lt_succ_self _

end ChunkQueue

end HttpWire
