import Mathlib.Control.Monad.Basic
import HttpWire.Proofs.ReadBack
import HttpWire.Session.Producers

/-!
# Runs of an encoder

An encoder is used in no fixed order. It writes into buffers of any size, it is
asked whether writing would get anywhere, and between the calls producers feed its
body and its queue. A run is a list of such moves and what came of them: the bytes
that were appended, the results, and the chunks that were sent to the queue.

A producer of the body may change its source in any way; to an encoder that is all
there is to producers, readiness and time. A producer of chunks can only do what
the queue allows, and every state of a queue comes about in this way
(`ChunkQueue.Reachable`).

`Run.forget_after` lets a run be followed with a record of its source: without the
record it is the same run.
-/

namespace HttpWire

/-! ## The queue and its producers -/

namespace ChunkQueue

/-- What a producer does to the queue, and the chunks that it puts into it. -/
def produce (q : ChunkQueue) : ChunkAct → ChunkQueue × List Chunk
  | .send data additions =>
    match Chunk.build data additions with
    | .error _ => (q, [])
    | .ok c =>
      match q.channel.send? c with
      | none => (q, [])
      | some channel => ({ q with channel := channel }, [c])
  | .close => ({ q with channel := q.channel.close }, [])
  | .drop => ({ q with channel := q.channel.dropSender }, [])
  | .clone => ({ q with channel := q.channel.cloneSender }, [])

/-- The states that a queue can be in. -/
inductive Reachable : ChunkQueue → Prop
  | fresh : Reachable {}
  | produced {q : ChunkQueue} (act : ChunkAct) : Reachable q →
      Reachable (q.produce act).1
  | polled {q : ChunkQueue} : Reachable q → Reachable (q.poll).2
  | taken {q : ChunkQueue} : Reachable q → Reachable (q.take).2

/-- A queue that nothing has happened to yet, in the form in which
a queue is lent. -/
theorem Reachable.of_fresh : ∀ q, some ({} : ChunkQueue) = some q → q.Reachable := by
  intro q hq
  cases hq
  exact .fresh

/-- What a producer does changes nothing, puts a built chunk at the end of an open
queue, or leaves the chunks and an end that was seen alone. -/
theorem produce_cases (q : ChunkQueue) (act : ChunkAct) :
    q.produce act = (q, [])
      ∨ (∃ c channel, c.Valid ∧ q.channel.closed = false ∧ channel.closed = false
        ∧ channel.items = q.channel.items ++ [c]
        ∧ q.produce act = ({ q with channel := channel }, [c]))
      ∨ ∃ channel : Channel Chunk, channel.items = q.channel.items
        ∧ (q.channel.closed = true → channel.closed = true)
        ∧ q.produce act = ({ q with channel := channel }, []) := by
  cases act with
  | send data additions =>
    simp only [produce]
    cases hbuild : Chunk.build data additions with
    | error cause => exact .inl rfl
    | ok c =>
      cases hclosed : q.channel.closed with
      | true =>
        have hsend : q.channel.send? c = none := by simp [Channel.send?, hclosed]
        simp only [hsend]
        exact .inl trivial
      | false =>
        let channel : Channel Chunk :=
          { q.channel with items := q.channel.items ++ [c] }
        have hsend : q.channel.send? c = some channel := by
          simp [channel, Channel.send?, hclosed]
        simp only [hsend]
        exact .inr
          (.inl ⟨c, channel, Chunk.valid_of_build hbuild, trivial, hclosed, rfl, rfl⟩)
  | close => exact .inr (.inr ⟨q.channel.close, rfl, fun _ => rfl, rfl⟩)
  | drop =>
    refine .inr (.inr ⟨q.channel.dropSender, rfl, fun h => ?_, rfl⟩)
    rw [Channel.dropSender, h, Bool.true_or]
  | clone => exact .inr (.inr ⟨q.channel.cloneSender, rfl, fun h => h, rfl⟩)

theorem toList_produce (q : ChunkQueue) (act : ChunkAct) :
    (q.produce act).1.toList = q.toList ++ (q.produce act).2 := by
  rcases q.produce_cases act with h | ⟨c, channel, -, -, -, hitems, h⟩
    | ⟨channel, hitems, -, h⟩
  · simp [h]
  · simp [h, toList, hitems]
  · simp [h, toList, hitems]

theorem valid_of_mem_produce {q : ChunkQueue} {act : ChunkAct} {c : Chunk}
    (h : c ∈ (q.produce act).2) :
    c.Valid := by
  rcases q.produce_cases act with heq | ⟨c', channel, hvalid, -, -, -, heq⟩
    | ⟨channel, -, -, heq⟩
  · rw [heq] at h
    cases h
  · rw [heq, List.mem_singleton] at h
    rw [h]
    exact hvalid
  · rw [heq] at h
    cases h

theorem Shut.produce {q : ChunkQueue} (h : q.Shut) (act : ChunkAct) :
    (q.produce act).1.Shut := by
  obtain ⟨hclosed, hlist⟩ := h
  rcases q.produce_cases act with heq | ⟨c, channel, -, hopen, -, -, -⟩
    | ⟨channel, hitems, hmore, heq⟩
  · rw [heq]
    exact ⟨hclosed, hlist⟩
  · rw [hclosed] at hopen
    cases hopen
  · rw [heq]
    refine ⟨hmore hclosed, ?_⟩
    simpa [toList, hitems] using hlist

theorem Sound.produce {q : ChunkQueue} (h : q.Sound) (act : ChunkAct) :
    (q.produce act).1.Sound := by
  intro hended
  have hsame : (q.produce act).1.ended = q.ended := by
    rcases q.produce_cases act with heq | ⟨c, channel, -, -, -, -, heq⟩
      | ⟨channel, -, -, heq⟩ <;> rw [heq]
  rw [hsame] at hended
  exact Shut.produce (h hended) act

theorem Shut.poll {q : ChunkQueue} (h : q.Shut) : (q.poll).2.Shut := by
  refine ⟨?_, (toList_poll q).trans h.2⟩
  have hitems := h.2
  rw [toList, List.append_eq_nil_iff] at hitems
  unfold ChunkQueue.poll
  split
  · exact h.1
  · rw [Channel.receive, hitems.2]
    simp only [h.1, if_true]

theorem sound_take {q : ChunkQueue} (h : q.Sound) : (q.take).2.Sound := by
  rcases htake : q.take with ⟨taken, rest⟩
  have hgives := take_spec h htake
  cases taken with
  | chunk c => exact hgives.2
  | pending => exact hgives.2
  | closed => exact hgives.2.1

theorem Reachable.sound {q : ChunkQueue} (h : q.Reachable) : q.Sound := by
  induction h with
  | fresh => exact fun hended => by cases hended
  | produced act _ ih => exact ih.produce act
  | polled _ ih => exact sound_poll ih
  | taken _ ih => exact sound_take ih

theorem Reachable.valid {q : ChunkQueue} (h : q.Reachable) :
    ∀ c ∈ q.toList, c.Valid := by
  induction h with
  | fresh => intro c hc; cases hc
  | @produced q act _ ih =>
    intro c hc
    rw [toList_produce] at hc
    rcases List.mem_append.mp hc with hc | hc
    · exact ih c hc
    · exact valid_of_mem_produce hc
  | @polled q _ ih =>
    rw [toList_poll]
    exact ih
  | @taken q hq ih =>
    intro c hc
    rcases htake : q.take with ⟨taken, rest⟩
    have hgives := take_spec hq.sound htake
    rw [htake] at hc
    cases taken with
    | chunk c' => exact ih c (by rw [hgives.1]; exact List.mem_cons_of_mem _ hc)
    | pending => exact ih c (by rw [hgives.1]; exact hc)
    | closed => exact ih c (by rw [hgives.1]; exact hc)

end ChunkQueue

/-- A producer of a session does to the queue what is described here. -/
theorem Producers.queue_actChunk (p : Producers) (supply : Supply Body) (i : Nat)
    (act : ChunkAct) :
    (p.actChunk supply i act).2.2.body = supply.body
      ∧ (p.actChunk supply i act).2.2.queue
        = supply.queue.map (fun q => (q.produce act).1) := by
  obtain ⟨body, queue⟩ := supply
  cases act with
  | send data additions =>
    simp only [actChunk, ChunkQueue.produce]
    cases Chunk.build data additions with
    | error cause => cases queue <;> exact ⟨rfl, rfl⟩
    | ok c =>
      cases queue with
      | none => exact ⟨rfl, rfl⟩
      | some q =>
        simp only [queue?, Option.bind_some, Option.map_some]
        cases q.channel.send? c <;> exact ⟨rfl, rfl⟩
  | close => exact ⟨rfl, rfl⟩
  | drop => exact ⟨rfl, rfl⟩
  | clone => exact ⟨rfl, rfl⟩

/-! ## Moves and runs -/

/-- One thing that happens while a message is written. -/
inductive Move (σ : Type)
  /-- the encoder writes into a buffer -/
  | write (dst : Buffer)
  /-- the encoder is asked whether writing would get anywhere -/
  | poll
  /-- the body source is changed from outside -/
  | feed (f : σ → σ)
  /-- a producer of chunks does something to the queue -/
  | produce (act : ChunkAct)

/-- An encoder at work on its supply, with a record of what came of it. -/
structure Run (σ : Type) where
  encoder : Encoder
  supply : Supply σ
  /-- the bytes that the writing calls appended, in order -/
  emitted : Bytes
  /-- the chunks that were put into the queue, in order -/
  sent : List Chunk
  /-- what the writing calls returned, in order -/
  results : List (Except Failure Progress)

/-- A supply that keeps a record of its source from here on. -/
def Supply.recorded {σ : Type} (s : Supply σ) : Supply (Recorded σ) :=
  { body := s.body.map (fun source => { source := source }), queue := s.queue }

/-- The move for a source with a record; changes from outside are not recorded. -/
def Move.recorded {σ : Type} : Move σ → Move (Recorded σ)
  | .write dst => .write dst
  | .poll => .poll
  | .feed f => .feed (fun r => { r with source := f r.source })
  | .produce act => .produce act

namespace Run

variable {σ : Type}

/-- A run at its beginning; the chunks that are queued already count as sent. -/
def start (plan : Plan) (limits : Limits) (supply : Supply σ) : Run σ :=
  { encoder := Encoder.start plan limits, supply := supply
    emitted := [], sent := supply.queued, results := [] }

/-- Some call has returned that the message is written. -/
def IsDone (r : Run σ) : Prop :=
  .ok .done ∈ r.results

instance (r : Run σ) : Decidable r.IsDone :=
  inferInstanceAs (Decidable (.ok .done ∈ r.results))

/-- The run without its record. -/
def forget (r : Run (Recorded σ)) : Run σ :=
  { r with
    supply := { body := r.supply.body.map Recorded.source, queue := r.supply.queue } }

theorem forget_start (plan : Plan) (limits : Limits) (supply : Supply σ) :
    (start plan limits supply.recorded).forget = start plan limits supply := by
  obtain ⟨body, queue⟩ := supply
  cases body <;> rfl

variable [Source σ]

/-- One move of a run. -/
def step (r : Run σ) : Move σ → Run σ
  | .write dst =>
    let w := r.encoder.write r.supply dst
    { r with
      encoder := w.state
      supply := w.supply
      emitted := r.emitted ++ w.dst.bytes.drop dst.length
      results := r.results ++ [w.result] }
  | .poll => { r with supply := (r.encoder.poll r.supply).2 }
  | .feed f => { r with supply := { r.supply with body := r.supply.body.map f } }
  | .produce act =>
    match r.supply.queue with
    | none => r
    | some q =>
      { r with
        supply := { r.supply with queue := some (q.produce act).1 }
        sent := r.sent ++ (q.produce act).2 }

/-- The run after a list of moves. -/
def after (r : Run σ) (moves : List (Move σ)) : Run σ :=
  moves.foldl step r

theorem forget_step (r : Run (Recorded σ)) (move : Move σ) :
    (r.step move.recorded).forget = r.forget.step move := by
  cases move with
  | write dst =>
    have hmap := Encoder.write_map Recorded.hom_source r.encoder r.supply dst
    have hwrite : r.forget.encoder.write r.forget.supply dst
        = (r.encoder.write r.supply dst).map Recorded.source := hmap
    simp only [step, hwrite, Move.recorded]
    rfl
  | poll =>
    have hmap := Encoder.poll_map Recorded.hom_source r.encoder r.supply
    have hpoll : r.forget.encoder.poll r.forget.supply
        = ((r.encoder.poll r.supply).1,
          (r.encoder.poll r.supply).2.map Recorded.source) := hmap
    simp only [step, hpoll, Move.recorded]
    rfl
  | feed f =>
    obtain ⟨e, ⟨body, queue⟩, emitted, sent, results⟩ := r
    cases body <;> rfl
  | produce act =>
    obtain ⟨e, ⟨body, queue⟩, emitted, sent, results⟩ := r
    cases queue <;> rfl

/-- A run with a record of its source is the run without it, apart
from the record. -/
theorem forget_after (r : Run (Recorded σ)) (moves : List (Move σ)) :
    (r.after (moves.map Move.recorded)).forget = r.forget.after moves := by
  induction moves generalizing r with
  | nil => rfl
  | cons move moves ih =>
    have hmore := ih (r.step move.recorded)
    rw [forget_step] at hmore
    exact hmore

theorem bodyHas_step {P : σ → Prop} (hP : Source.Invariant P) {r : Run σ}
    (h : r.supply.BodyHas P) {move : Move σ}
    (hfeed : ∀ f, move = .feed f → ∀ x, P x → P (f x)) :
    (r.step move).supply.BodyHas P := by
  cases move with
  | write dst => exact r.encoder.bodyHas_write hP dst h
  | poll => exact r.encoder.bodyHas_poll hP h
  | feed f =>
    intro x hx
    obtain ⟨y, hy, rfl⟩ := Option.map_eq_some_iff.mp hx
    exact hfeed f rfl y (h y hy)
  | produce act =>
    simp only [step]
    split <;> exact h

/-- What reads, polls and producers keep true of a source is true
of it after any run. -/
theorem bodyHas_after {P : σ → Prop} (hP : Source.Invariant P) {r : Run σ}
    (h : r.supply.BodyHas P) {moves : List (Move σ)}
    (hfeed : ∀ f, .feed f ∈ moves → ∀ x, P x → P (f x)) :
    (r.after moves).supply.BodyHas P := by
  induction moves generalizing r with
  | nil => exact h
  | cons move moves ih =>
    refine ih (bodyHas_step hP h ?_) (fun f hf => hfeed f (List.mem_cons_of_mem _ hf))
    rintro f rfl
    exact hfeed f List.mem_cons_self

end Run

end HttpWire
