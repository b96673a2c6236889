import Mathlib.Data.List.Infix
import HttpWire.Proofs.Queueing
import HttpWire.Proofs.Shape

/-!
# One queue, many messages

The owner of a queue lends it to one encoder after another, while senders go on
sending. `Relay` follows the queue: it is with its owner, who may ask whether it
has something to give, or with the run of an encoder, which gives it back when it
is dropped. Whatever comes in between, the chunks that the runs took are, in
order, the first of those that were sent, and the others are still in the queue
(`Relay.taken_once_in_order`).

A chunk that was found by asking is still in the queue, so nobody has taken it
yet. Taking is what a writing call does, and only one of a chunked body whose
source has ended; what it took it has written, all but perhaps the last chunk.
These facts of single runs are read off the ledger of the run
(`Run.Borrows.usesQueue`). That the queue comes back from a run at all, and in a
state that a queue can be in, is an instance of `Relay.queueHas_step`.
-/

namespace HttpWire

/-! ## A run with a queue that is lent to it -/

namespace Run

variable {σ : Type}

/-- The chunks that a run has taken: those that were in its queue or came into it,
and are not in it any more. -/
def taken (r : Run σ) : List Chunk :=
  r.sent.take (r.sent.length - r.supply.queued.length)

theorem taken_eq {r : Run σ} {cs : List Chunk} (h : cs ++ r.supply.queued = r.sent) :
    r.taken = cs := by
  have hlength := congrArg List.length h
  rw [List.length_append] at hlength
  rw [taken, ← hlength, Nat.add_sub_cancel, ← h, List.take_left]

/-- What a run has done with its queue. It took chunks only for a chunked body,
behind the head and when the source, if there is one, had ended; it took none
behind one without data; and of what it took it has written everything, in order
and behind the data of its source, but perhaps a part of the last chunk. -/
structure UsesQueue (r : Run (Recorded σ)) : Prop where
  chunked : r.taken ≠ [] → r.encoder.plan.framing = .chunked
  ended : r.taken ≠ [] → r.supply.BodyEnded
  data : ∀ c ∈ r.taken.dropLast, c.data ≠ []
  written : r.taken ≠ [] → ∃ cut : List Bytes, cut.flatten = r.supply.handed
    ∧ r.encoder.plan.headWire ++ (cut.map Chunk.ofData ++ r.taken.dropLast).flatMap
      Chunk.wire <+: r.emitted
    ∧ r.emitted
      <+: r.encoder.plan.headWire
        ++ (cut.map Chunk.ofData ++ (r.taken ++ [Chunk.last])).flatMap Chunk.wire

/-- A run is in order, has its queue, and if its body is not chunked,
everything is still in it. -/
structure Borrows (r : Run (Recorded σ)) : Prop where
  follows : r.Follows r.encoder.plan r.encoder.limits
  queue : r.supply.QueueHas ChunkQueue.Reachable
  apart : r.encoder.plan.framing ≠ .chunked → r.supply.queued = r.sent

theorem borrows_start (plan : Plan) (limits : Limits) {body : Option σ}
    {q : ChunkQueue} (h : q.Reachable) :
    (start plan limits (Supply.recorded ⟨body, some q⟩)).Borrows where
  follows := follows_start (fun x hx => by cases hx; exact h)
  queue := ⟨q, rfl, h⟩
  apart _ := rfl

section Ledger

variable {r : Run (Recorded σ)}

theorem Borrows.taken_append (h : r.Borrows) :
    r.taken ++ r.supply.queued = r.sent := by
  have hsplit : ∃ cs, cs ++ r.supply.queued = r.sent := by
    by_cases hchunked : r.encoder.plan.framing = .chunked
    · obtain ⟨c, L, out, -, hkeeps, -⟩ := h.follows.ledger hchunked
      exact ⟨L.taken, hkeeps.taken⟩
    · exact ⟨[], h.apart hchunked⟩
  obtain ⟨cs, hcs⟩ := hsplit
  rw [taken_eq hcs]
  exact hcs

/-- The chunks before the last one that was taken are not the last
ones that were begun. -/
theorem taken_dropLast_prefix {L : ChunkedBody.Ledger} (h : L.taken ≠ []) :
    L.frames.map Chunk.ofData ++ L.taken.dropLast <+: L.chunks.dropLast := by
  unfold ChunkedBody.Ledger.chunks
  cases L.closed with
  | true =>
    rw [if_pos rfl, ← List.append_assoc, List.dropLast_concat]
    exact (List.prefix_append_right_inj _).mpr (List.dropLast_prefix _)
  | false =>
    rw [if_neg Bool.false_ne_true, List.append_nil, List.dropLast_append_of_ne_nil h]

theorem Borrows.usesQueue (h : r.Borrows) : r.UsesQueue := by
  by_cases hnone : r.taken = []
  · refine ⟨fun hany => absurd hnone hany, fun hany => absurd hnone hany, ?_,
      fun hany => absurd hnone hany⟩
    rw [hnone]
    intro c hc
    cases hc
  have hchunked : r.encoder.plan.framing = .chunked := by
    by_contra hnot
    exact hnone (taken_eq (h.apart hnot))
  obtain ⟨c, L, out, -, hkeeps, -, hemitted⟩ := h.follows.ledger hchunked
  have htaken : r.taken = L.taken := taken_eq hkeeps.taken
  rw [htaken] at hnone
  have hfront := taken_dropLast_prefix hnone
  have hchunks :
      L.chunks <+: L.frames.map Chunk.ofData ++ (L.taken ++ [Chunk.last]) := by
    refine (List.prefix_append_right_inj _).mpr
      ((List.prefix_append_right_inj _).mpr ?_)
    split
    · exact List.prefix_rfl
    · exact List.nil_prefix
  have hne : L.chunks ≠ [] := by simp [ChunkedBody.Ledger.chunks, hnone]
  have hout : r.emitted = r.encoder.plan.headWire ++ out :=
    hemitted.resolve_right (fun hnothing => hne hnothing.1)
  obtain ⟨hwritten, hwhole⟩ := hkeeps.frames_written
  refine ⟨fun _ => hchunked, fun _ => hkeeps.ended_of_taken (.inl hnone), ?_,
    fun _ => ⟨L.frames, ?_, ?_, ?_⟩⟩
  · intro x hx
    rw [htaken] at hx
    have hopen := hkeeps.open_before (List.dropLast_append_getLast hne).symm
    exact ChunkedBody.data_ne_nil_of_open hopen x
      (hfront.subset (List.mem_append_right _ hx))
  · exact hkeeps.handed.symm
  · rw [hout, htaken]
    exact (List.prefix_append_right_inj _).mpr ((hfront.flatMap _).trans hwhole)
  · rw [hout, htaken]
    exact (List.prefix_append_right_inj _).mpr (hwritten.trans (hchunks.flatMap _))

end Ledger

variable [Source σ]

/-- What a move of a run keeps true of its queue. -/
theorem queueHas_step {P : ChunkQueue → Prop} {r : Run σ} (move : Move σ)
    (h : r.supply.QueueHas P) (hpoll : ∀ q, P q → P (q.poll).2)
    (htake : ∀ dst, move = .write dst → ∀ q, P q → P (q.take).2)
    (hproduce : ∀ act, move = .produce act → ∀ q, P q → P (q.produce act).1) :
    (r.step move).supply.QueueHas P := by
  cases move with
  | write dst => exact r.encoder.queueHas_write (htake dst rfl) dst h
  | poll => exact r.encoder.queueHas_poll hpoll h
  | feed f => exact h
  | produce act =>
    obtain ⟨q, hq, hP⟩ := h
    refine ⟨(q.produce act).1, ?_, hproduce act rfl q hP⟩
    simp only [step, hq]

theorem Borrows.step {r : Run (Recorded σ)} (h : r.Borrows) (move : Move σ) :
    (r.step move.recorded).Borrows := by
  have hfollows := h.follows.step move
  have hplan := hfollows.plan
  have hlimits := hfollows.limits
  refine ⟨?_, ?_, fun hnot => ?_⟩
  · rw [hplan, hlimits]
    exact hfollows
  · exact queueHas_step _ h.queue ChunkQueue.stable_reachable.poll
      (fun _ _ => ChunkQueue.stable_reachable.take)
      (fun act _ q => ChunkQueue.stable_reachable.produce q act)
  · rw [hplan] at hnot
    have hbefore := h.apart hnot
    cases move with
    | write dst =>
      have hqueue := Encoder.queue_write hnot h.follows.holds dst
      show Supply.queued (r.encoder.write r.supply dst).supply = r.sent
      rw [Supply.queued, hqueue]
      exact hbefore
    | poll =>
      have hqueued := (r.encoder.extends_poll r.supply).queued
      rw [List.append_nil] at hqueued
      exact hqueued.trans hbefore
    | feed f => exact hbefore
    | produce act =>
      obtain ⟨q, hq, -⟩ := h.queue
      have hlist : q.toList = r.sent := by rwa [Supply.queued, hq] at hbefore
      simp only [Run.step, Move.recorded, hq, Supply.queued]
      rw [q.toList_produce act, hlist]

end Run

/-! ## From one run to the next -/

/-- Who has the queue. -/
inductive Holder (σ : Type)
  | owner (q : ChunkQueue)
  | run (r : Run σ)

/-- One thing that happens to a queue, its senders, or the run that has it. -/
inductive RelayMove (σ : Type)
  /-- the owner lends the queue to an encoder for a new message -/
  | lend (plan : Plan) (limits : Limits) (body : Option σ)
  /-- the encoder that has the queue is dropped, wherever it stands -/
  | drop
  /-- the owner asks the queue whether it has something to give -/
  | ask
  | write (dst : Buffer)
  | poll
  | feed (f : σ → σ)
  | produce (act : ChunkAct)

/-- A queue that is lent to one run after another. -/
structure Relay (σ : Type) where
  holder : Holder σ := .owner {}
  /-- the runs that had the queue, the first one first -/
  past : List (Run σ) := []
  /-- the chunks that were sent with success, in order -/
  sent : List Chunk := []

/-- The move for sources with a record; changes from outside are not recorded. -/
def RelayMove.recorded {σ : Type} : RelayMove σ → RelayMove (Recorded σ)
  | .lend plan limits body =>
    .lend plan limits (body.map (fun source => { source := source }))
  | .drop => .drop
  | .ask => .ask
  | .write dst => .write dst
  | .poll => .poll
  | .feed f => .feed (fun r => { r with source := f r.source })
  | .produce act => .produce act

namespace Holder

variable {σ : Type}

/-- The queue that the holder has. -/
def queue? : Holder σ → Option ChunkQueue
  | .owner q => some q
  | .run r => r.supply.queue

/-- The run that holds the queue, if it is lent. -/
def run? : Holder σ → Option (Run σ)
  | .owner _ => none
  | .run r => some r

/-- The chunks that are in the queue or were taken by the run that has it. -/
def pending : Holder σ → List Chunk
  | .owner q => q.toList
  | .run r => r.sent

/-- The holder without the record of its source. -/
def forget : Holder (Recorded σ) → Holder σ
  | .owner q => .owner q
  | .run r => .run r.forget

/-- A producer finds the queue wherever it is. -/
def produce [Source σ] : Holder σ → ChunkAct → Holder σ
  | .owner q, act => .owner (q.produce act).1
  | .run r, act => .run (r.step (.produce act))

end Holder

namespace Relay

variable {σ : Type}

/-- All runs that have had the queue. -/
def runs (s : Relay σ) : List (Run σ) :=
  s.past ++ s.holder.run?.toList

/-- The queue is there, whoever has it, and has the property. -/
def QueueHas (P : ChunkQueue → Prop) (s : Relay σ) : Prop :=
  ∃ q, s.holder.queue? = some q ∧ P q

/-- The relay without the records of its sources. -/
def forget (s : Relay (Recorded σ)) : Relay σ where
  holder := s.holder.forget
  past := s.past.map Run.forget
  sent := s.sent

variable [Source σ]

/-- The run that has the queue makes a move. -/
def onRun (s : Relay σ) (move : Move σ) : Relay σ :=
  match s.holder with
  | .owner _ => s
  | .run r => { s with holder := .run (r.step move) }

/-- One move. The queue is lent only by its owner, and a call is made only of a
run that holds it; any other such move does nothing. -/
def step (s : Relay σ) : RelayMove σ → Relay σ
  | .lend plan limits body =>
    match s.holder with
    | .owner q => { s with holder := .run (Run.start plan limits ⟨body, some q⟩) }
    | .run _ => s
  | .drop =>
    match s.holder.run?, s.holder.queue? with
    | some r, some q => { s with holder := .owner q, past := s.past ++ [r] }
    | _, _ => s
  | .ask =>
    match s.holder with
    | .owner q => { s with holder := .owner (q.poll).2 }
    | .run _ => s
  | .write dst => s.onRun (.write dst)
  | .poll => s.onRun .poll
  | .feed f => s.onRun (.feed f)
  | .produce act =>
    { s with
      holder := s.holder.produce act
      sent := s.sent ++ (s.holder.queue?.map (fun q => (q.produce act).2)).getD [] }

/-- The relay after a list of moves. -/
def after (s : Relay σ) (moves : List (RelayMove σ)) : Relay σ :=
  moves.foldl step s

/-- Every property of a queue that its uses do not end is true of
it wherever it is. -/
theorem queueHas_step {P : ChunkQueue → Prop} {s : Relay σ} (move : RelayMove σ)
    (h : s.QueueHas P) (hpoll : ∀ q, P q → P (q.poll).2)
    (htake : ∀ dst, move = .write dst → ∀ q, P q → P (q.take).2)
    (hproduce : ∀ act, move = .produce act → ∀ q, P q → P (q.produce act).1) :
    (s.step move).QueueHas P := by
  obtain ⟨q, hq, hP⟩ := h
  obtain ⟨holder, past, sent⟩ := s
  cases holder with
  | owner q' =>
    cases hq
    cases move with
    | ask => exact ⟨_, rfl, hpoll q hP⟩
    | produce act => exact ⟨_, rfl, hproduce act rfl q hP⟩
    | lend | drop | write | poll | feed => exact ⟨q, rfl, hP⟩
  | run r =>
    have hrun : ∀ move : Move σ, (∀ dst, move = .write dst → ∀ q, P q → P (q.take).2) →
        (∀ act, move = .produce act → ∀ q, P q → P (q.produce act).1) →
        (r.step move).supply.QueueHas P :=
      fun move htake hproduce =>
        Run.queueHas_step move ⟨q, hq, hP⟩ hpoll htake hproduce
    cases move with
    | write dst =>
      exact hrun (.write dst) (fun _ _ => htake dst rfl) (fun _ h => by cases h)
    | poll => exact hrun .poll (fun _ h => by cases h) (fun _ h => by cases h)
    | feed f => exact hrun (.feed f) (fun _ h => by cases h) (fun _ h => by cases h)
    | produce act =>
      exact hrun (.produce act) (fun _ h => by cases h)
        (fun _ h => by cases h; exact hproduce act rfl)
    | drop =>
      simp only [step, Holder.run?, show Holder.queue? (.run r) = some q from hq]
      exact ⟨q, rfl, hP⟩
    | lend | ask => exact ⟨q, hq, hP⟩

theorem queueHas_after {P : ChunkQueue → Prop} (hP : ChunkQueue.Stable P)
    {s : Relay σ} (h : s.QueueHas P) (moves : List (RelayMove σ)) :
    (s.after moves).QueueHas P := by
  induction moves generalizing s with
  | nil => exact h
  | cons move moves ih =>
    exact ih (queueHas_step move h hP.poll (fun _ _ => hP.take)
      (fun act _ q => hP.produce q act))

theorem forget_step (s : Relay (Recorded σ)) (move : RelayMove σ) :
    (s.step move.recorded).forget = s.forget.step move := by
  obtain ⟨holder, past, sent⟩ := s
  cases holder with
  | owner q =>
    cases move with
    | lend plan limits body =>
      have hstart := Run.forget_start plan limits (⟨body, some q⟩ : Supply σ)
      exact congrArg (fun r => Relay.mk (.run r) (past.map Run.forget) sent) hstart
    | drop | ask | write | poll | feed | produce => rfl
  | run r =>
    have hrun : ∀ (move : Move σ) (sent : List Chunk),
        Relay.mk (.run (r.step move.recorded).forget) (past.map Run.forget) sent
          = ⟨.run (r.forget.step move), past.map Run.forget, sent⟩ := by
      intro move sent
      rw [Run.forget_step]
    cases move with
    | write dst => exact hrun (.write dst) sent
    | poll => exact hrun .poll sent
    | feed f => exact hrun (.feed f) sent
    | produce act => exact hrun (.produce act) _
    | drop =>
      obtain ⟨encoder, ⟨body, queue⟩, emitted, results⟩ := r
      cases queue with
      | none => rfl
      | some q =>
        simp only [step, RelayMove.recorded, forget, Holder.forget, Holder.run?,
          Holder.queue?, Run.forget, List.map_append, List.map_singleton]
    | lend | ask => rfl

/-- A relay with a record of the sources is the relay without it,
apart from the record. -/
theorem forget_after (s : Relay (Recorded σ)) (moves : List (RelayMove σ)) :
    (s.after (moves.map RelayMove.recorded)).forget = s.forget.after moves := by
  induction moves generalizing s with
  | nil => rfl
  | cons move moves ih =>
    have hmore := ih (s.step move.recorded)
    rw [forget_step] at hmore
    exact hmore

/-- All runs use the queue as they should, and what they took is with what is
left all that was sent. -/
structure InOrder (s : Relay (Recorded σ)) : Prop where
  past : ∀ r ∈ s.past, r.Borrows
  holder : match s.holder with
    | .owner q => q.Reachable
    | .run r => r.Borrows
  sum : s.past.flatMap Run.taken ++ s.holder.pending = s.sent

/-- A move of the run that has the queue adds to what is pending what it
adds to what was sent. -/
theorem InOrder.onRun {r : Run (Recorded σ)} {past : List (Run (Recorded σ))}
    {sent more : List Chunk} (h : InOrder ⟨.run r, past, sent⟩) (move : Move σ)
    (hmore : (r.step move.recorded).sent = r.sent ++ more) :
    InOrder ⟨.run (r.step move.recorded), past, sent ++ more⟩ where
  past := h.past
  holder := Run.Borrows.step h.holder move
  sum := by
    show past.flatMap Run.taken ++ (r.step move.recorded).sent = sent ++ more
    rw [hmore, ← List.append_assoc]
    exact congrArg (· ++ more) h.sum

theorem InOrder.step {s : Relay (Recorded σ)} (h : s.InOrder) (move : RelayMove σ) :
    (s.step move.recorded).InOrder := by
  obtain ⟨holder, past, sent⟩ := s
  cases holder with
  | owner q =>
    obtain ⟨hpast, hq, hsum⟩ := h
    cases move with
    | lend plan limits body => exact ⟨hpast, Run.borrows_start plan limits hq, hsum⟩
    | ask =>
      exact ⟨hpast, hq.polled,
        (congrArg (past.flatMap Run.taken ++ ·) q.toList_poll).trans hsum⟩
    | produce act =>
      refine ⟨hpast, hq.produced act, ?_⟩
      show past.flatMap Run.taken ++ (q.produce act).1.toList
        = sent ++ (q.produce act).2
      rw [q.toList_produce, ← List.append_assoc]
      exact congrArg (· ++ (q.produce act).2) hsum
    | drop | write | poll | feed => exact ⟨hpast, hq, hsum⟩
  | run r =>
    have hquiet : ∀ move : Move σ, (r.step move.recorded).sent = r.sent →
        InOrder ⟨.run (r.step move.recorded), past, sent⟩ := by
      intro move hsame
      have hnothing : (r.step move.recorded).sent = r.sent ++ [] := by
        rw [hsame, List.append_nil]
      have hnext := h.onRun move hnothing
      rwa [List.append_nil] at hnext
    have hr : r.Borrows := h.holder
    obtain ⟨q, hq, hreachable⟩ := hr.queue
    cases move with
    | write dst => exact hquiet (.write dst) rfl
    | poll => exact hquiet .poll rfl
    | feed f => exact hquiet (.feed f) rfl
    | produce act =>
      have hsent : (r.step (Move.recorded (.produce act))).sent
          = r.sent ++ (q.produce act).2 := by
        simp only [Run.step, Move.recorded, hq]
      simp only [Relay.step, RelayMove.recorded, Holder.queue?, hq, Option.map_some,
        Option.getD_some]
      exact h.onRun (.produce act) hsent
    | drop =>
      simp only [Relay.step, RelayMove.recorded, Holder.run?, Holder.queue?, hq]
      refine ⟨?_, hreachable, ?_⟩
      · intro r' hr'
        rcases List.mem_append.mp hr' with hr' | hr'
        · exact h.past r' hr'
        · rw [List.mem_singleton.mp hr']
          exact hr
      · have hsplit : r.taken ++ q.toList = r.sent := by
          have htaken := hr.taken_append
          rwa [Supply.queued, hq] at htaken
        show (past ++ [r]).flatMap Run.taken ++ q.toList = sent
        rw [List.flatMap_append, List.flatMap_singleton, List.append_assoc, hsplit]
        exact h.sum
    | lend | ask => exact h

theorem inOrder_after (moves : List (RelayMove σ)) :
    (({} : Relay (Recorded σ)).after (moves.map RelayMove.recorded)).InOrder := by
  have hkeep : ∀ (moves : List (RelayMove σ)) (s : Relay (Recorded σ)), s.InOrder →
      (s.after (moves.map RelayMove.recorded)).InOrder := by
    intro moves
    induction moves with
    | nil => exact fun s h => h
    | cons move moves ih => exact fun s h => ih _ (h.step move)
  exact hkeep moves _ ⟨List.forall_mem_nil _, .fresh, rfl⟩

omit [Source σ] in
theorem InOrder.borrows {s : Relay (Recorded σ)} (h : s.InOrder) :
    ∀ r ∈ s.runs, r.Borrows := by
  obtain ⟨holder, past, sent⟩ := s
  intro r hr
  rcases List.mem_append.mp hr with hr | hr
  · exact h.past r hr
  · cases holder with
    | owner q => cases hr
    | run r' =>
      rw [List.mem_singleton.mp hr]
      exact h.holder

omit [Source σ] in
/-- The queue is somewhere, and has what the runs did not take. -/
theorem InOrder.queue {s : Relay (Recorded σ)} (h : s.InOrder) :
    s.QueueHas
      (fun q => q.Reachable ∧ s.runs.flatMap Run.taken ++ q.toList = s.sent) := by
  obtain ⟨holder, past, sent⟩ := s
  cases holder with
  | owner q =>
    refine ⟨q, rfl, h.holder, ?_⟩
    show (past ++ []).flatMap Run.taken ++ q.toList = sent
    rw [List.append_nil]
    exact h.sum
  | run r =>
    have hr : r.Borrows := h.holder
    obtain ⟨q, hq, hreachable⟩ := hr.queue
    have hsplit := hr.taken_append
    rw [Supply.queued, hq] at hsplit
    refine ⟨q, hq, hreachable, ?_⟩
    show (past ++ [r]).flatMap Run.taken ++ q.toList = sent
    rw [List.flatMap_append, List.flatMap_singleton, List.append_assoc, hsplit]
    exact h.sum

omit [Source σ] in
theorem runs_forget (s : Relay (Recorded σ)) :
    s.forget.holder.queue? = s.holder.queue?
      ∧ s.forget.runs.flatMap Run.taken = s.runs.flatMap Run.taken := by
  obtain ⟨holder, past, sent⟩ := s
  have hmap : ∀ rs : List (Run (Recorded σ)),
      (rs.map Run.forget).flatMap Run.taken = rs.flatMap Run.taken := by
    intro rs
    rw [List.flatMap_map]
    rfl
  cases holder with
  | owner q =>
    refine ⟨rfl, ?_⟩
    show (past.map Run.forget ++ []).flatMap Run.taken = (past ++ []).flatMap Run.taken
    rw [List.append_nil, List.append_nil, hmap]
  | run r =>
    refine ⟨rfl, ?_⟩
    show (past.map Run.forget ++ [r].map Run.forget).flatMap Run.taken
      = (past ++ [r]).flatMap Run.taken
    rw [← List.map_append, hmap]

/-- Nothing is sent to a queue that is shut. -/
theorem sent_step {s : Relay σ} (h : s.QueueHas ChunkQueue.Shut) (move : RelayMove σ) :
    (s.step move).sent = s.sent := by
  obtain ⟨q, hq, hshut⟩ := h
  have hnothing : ∀ act, (q.produce act).2 = [] := by
    intro act
    have hlist := q.toList_produce act
    rw [(hshut.produce act).2, hshut.2, List.nil_append] at hlist
    exact hlist.symm
  obtain ⟨holder, past, sent⟩ := s
  cases move with
  | produce act =>
    simp only [step, hq, Option.map_some, Option.getD_some, hnothing, List.append_nil]
  | drop =>
    simp only [step]
    split <;> rfl
  | lend | ask | write | poll | feed => cases holder <;> rfl

theorem sent_after {s : Relay σ} (h : s.QueueHas (fun q => q.Sound ∧ q.Shut))
    (moves : List (RelayMove σ)) :
    (s.after moves).sent = s.sent := by
  induction moves generalizing s with
  | nil => rfl
  | cons move moves ih =>
    obtain ⟨q, hq, hshut⟩ := h
    have hnext := queueHas_after ChunkQueue.stable_shut ⟨q, hq, hshut⟩ [move]
    exact (ih hnext).trans (sent_step ⟨q, hq, hshut.2⟩ move)

/-- The chunks that the runs took, one run after another, and those that are still
in the queue are together the chunks that were sent, in order. So every chunk is
taken at most once, and by one run; a chunk is taken by none that does not use its
queue as it should. Asking takes nothing, whoever asks, and neither does lending
the queue or dropping the run that has it; a writing call takes chunks off the
front, and what is taken next is the first chunk that is in the queue. And the
queue is found closed, or finished, only when everything that was sent has been
taken; then nothing more is ever sent, and the queue is found so for ever. -/
theorem taken_once_in_order (moves : List (RelayMove σ)) :
    let relay := ({} : Relay σ).after moves
    let recorded := ({} : Relay (Recorded σ)).after (moves.map RelayMove.recorded)
    recorded.forget = relay
      ∧ (∀ r ∈ recorded.runs, r.UsesQueue)
      ∧ ∃ q, relay.holder.queue? = some q
        ∧ relay.runs.flatMap Run.taken ++ q.toList = relay.sent
        ∧ (∀ c rest, q.toList = c :: rest →
          ∃ q', q.take = (.chunk c, q') ∧ q'.toList = rest)
        ∧ (∀ move : RelayMove σ, (∀ dst, move ≠ .write dst) →
          (∀ act, move ≠ .produce act) →
          ∃ q', (relay.step move).holder.queue? = some q' ∧ q'.toList = q.toList)
        ∧ (∀ dst, ∃ q',
          (relay.step (.write dst)).holder.queue? = some q' ∧ q'.toList <:+ q.toList)
        ∧ ((q.take).1 = .closed ∨ q.isFinished = true →
          relay.runs.flatMap Run.taken = relay.sent
            ∧ ∀ later, (relay.after later).sent = relay.sent
              ∧ ∃ q',
                (relay.after later).holder.queue? = some q' ∧ (q'.take).1 = .closed
                ∧ (q.isFinished = true → q'.isFinished = true)) := by
  intro relay recorded
  have hforget : recorded.forget = relay := forget_after {} moves
  have horder : recorded.InOrder := inOrder_after moves
  obtain ⟨q, hq, hreachable, hsum⟩ := horder.queue
  obtain ⟨hqueue, hruns⟩ := runs_forget recorded
  have hsent : recorded.sent = relay.sent := congrArg Relay.sent hforget
  rw [hforget] at hqueue hruns
  rw [← hruns, hsent] at hsum
  rw [← hqueue] at hq
  refine ⟨hforget, fun r hr => (horder.borrows r hr).usesQueue, q, hq, hsum,
    ?_, ?_, ?_, ?_⟩
  · exact fun c rest h => ChunkQueue.take_of_toList hreachable.sound h
  · intro move hwrite hproduce
    exact queueHas_step (P := fun q' => q'.toList = q.toList) move ⟨q, hq, rfl⟩
      (fun q' h => q'.toList_poll.trans h) (fun dst h => absurd h (hwrite dst))
      (fun act h => absurd h (hproduce act))
  · intro dst
    obtain ⟨q', hq', -, hsuffix⟩ :=
      queueHas_step (P := fun q' => q'.Sound ∧ q'.toList <:+ q.toList) (.write dst)
      ⟨q, hq, hreachable.sound, List.suffix_rfl⟩
      (fun q' h => ⟨ChunkQueue.sound_poll h.1, by rw [q'.toList_poll]; exact h.2⟩)
      (fun _ _ q' h => ⟨ChunkQueue.sound_take h.1, q'.toList_take_suffix.trans h.2⟩)
      (fun _ h => by cases h)
    exact ⟨q', hq', hsuffix⟩
  · intro hclosed
    have hshut : q.Shut := by
      rcases hclosed with hclosed | hfinished
      · exact (ChunkQueue.take_eq_closed_iff hreachable.sound).mp hclosed
      · exact hreachable.sound.shut_of_isFinished hfinished
    refine ⟨by rw [← hsum, hshut.2, List.append_nil], fun later => ⟨?_, ?_⟩⟩
    · exact sent_after ⟨q, hq, hreachable.sound, hshut⟩ later
    · obtain ⟨q', hq', hsound', hshut'⟩ :=
        queueHas_after ChunkQueue.stable_shut ⟨q, hq, hreachable.sound, hshut⟩ later
      refine ⟨q', hq', (ChunkQueue.take_eq_closed_iff hsound').mpr hshut',
        fun hfinished => ?_⟩
      obtain ⟨q'', hq'', hfinished''⟩ :=
        queueHas_after ChunkQueue.stable_isFinished ⟨q, hq, hfinished⟩ later
      rw [hq'] at hq''
      cases hq''
      exact hfinished''

/-- A chunk that was asked for before the queue was lent, and a second one. The
first encoder has room for its head and no more: the chunk that it took is lost
with it. The next encoder gets the other one. -/
example :
    (({} : Relay Bytes).after
      [.produce (.send (Bytes.ofString "a") []), .ask,
        .produce (.send (Bytes.ofString "b") []),
        .lend Run.uploadPlan {} none, .write (Buffer.empty 52), .poll, .drop,
        .lend Run.uploadPlan {} none,
          .write (Buffer.empty 80)]).runs.map (fun r => (r.taken, r.emitted.drop 52))
      = [([Chunk.ofData (Bytes.ofString "a")], []),
        ([Chunk.ofData (Bytes.ofString "b")], Bytes.ofString "1\r\nb\r\n")] := by
  decide +kernel

end Relay

end HttpWire
