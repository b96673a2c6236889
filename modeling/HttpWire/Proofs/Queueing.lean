import HttpWire.Proofs.Progress

/-!
# What is done with a queue

A queue is asked and taken from, and its senders send, close and leave. What is
taken is the first chunk that is in it, whether it was found by asking before or
not, and a queue that is found closed is closed for ever: nothing is in it and
nothing can be sent to it (`ChunkQueue.take_eq_closed_iff`,
`ChunkQueue.stable_shut`).

An encoder that has a queue does nothing with it but ask and take. So what
survives both is true of the queue after any call (`Encoder.queueHas_write`,
`Encoder.queueHas_poll`), and in particular it is still there. That is shown for a
property of queues in general, because the loops of a chunked body have to be
followed for it once. Only a chunked body takes anything: every other leaves the
queue as it is (`Encoder.queue_write`).
-/

namespace HttpWire

/-! ## Asking and taking -/

namespace ChunkQueue

/-- A property of queues that no use of a queue ends. -/
structure Stable (P : ChunkQueue → Prop) : Prop where
  poll : ∀ q, P q → P (q.poll).2
  take : ∀ q, P q → P (q.take).2
  produce : ∀ q act, P q → P (q.produce act).1

theorem stable_reachable : Stable Reachable where
  poll _ := .polled
  take _ := .taken
  produce _ act := .produced act

/-- The next chunk of a queue is there to be taken, whether it was
found by asking or not. -/
theorem take_of_toList {q : ChunkQueue} {c : Chunk} {rest : List Chunk}
    (hsound : q.Sound) (h : q.toList = c :: rest) :
    ∃ q', q.take = (.chunk c, q') ∧ q'.toList = rest := by
  have hended : q.ended = false := by
    by_contra hended
    rw [(hsound (by simpa using hended)).2] at h
    cases h
  have hpoll : ∃ q', q.poll = (true, q') ∧ q'.front = some c := by
    cases hfront : q.front with
    | some found =>
      rw [toList, hfront, Option.toList_some, List.singleton_append, List.cons.injEq]
        at h
      refine ⟨q, ?_, hfront.trans (congrArg some h.1)⟩
      rw [poll, hfront, Option.isSome_some, Bool.true_or, if_pos rfl]
    | none =>
      rw [toList, hfront, Option.toList_none, List.nil_append] at h
      refine ⟨{ q with channel := { q.channel with items := rest }, front := some c },
        ?_, rfl⟩
      simp [poll, Channel.receive, hfront, hended, h]
  obtain ⟨q', hready, hfront⟩ := hpoll
  have htake : q.take = (.chunk c, { q' with front := none }) := by
    rw [take, hready]
    simp only [hfront]
  have hlist := toList_of_take htake
  rw [h, List.cons.injEq] at hlist
  exact ⟨_, htake, hlist.2.symm⟩

theorem closed_poll (q : ChunkQueue) :
    (q.poll).2.channel.closed = q.channel.closed := by
  unfold poll
  split
  · rfl
  · cases hreceive : q.channel.receive with
    | item c rest =>
      unfold Channel.receive at hreceive
      split at hreceive
      · cases hreceive
        rfl
      · split at hreceive <;> cases hreceive
    | ended | pending => rfl

theorem closed_take (q : ChunkQueue) :
    (q.take).2.channel.closed = q.channel.closed := by
  have hpoll := q.closed_poll
  unfold take
  rcases hq : q.poll with ⟨_ | _, q'⟩ <;> rw [hq] at hpoll
  · exact hpoll
  · simp only
    split <;> exact hpoll

theorem toList_take_suffix (q : ChunkQueue) : (q.take).2.toList <:+ q.toList :=
  ⟨(q.take).1.toList, (toList_take rfl).symm⟩

/-- A queue is found closed exactly when nothing is in it and
nothing can be sent to it. -/
theorem take_eq_closed_iff {q : ChunkQueue} (hsound : q.Sound) :
    (q.take).1 = .closed ↔ q.Shut := by
  rcases htake : q.take with ⟨taken, q'⟩
  have hgives := take_spec hsound htake
  have hclosed := q.closed_take
  rw [htake] at hclosed
  constructor
  · rintro rfl
    exact ⟨hclosed ▸ hgives.2.2.1, hgives.1.trans hgives.2.2.2⟩
  · rintro ⟨hshut, hempty⟩
    cases taken with
    | closed => rfl
    | chunk c => cases hempty.symm.trans hgives.1
    | pending =>
      -- a closed channel without items is at its end, so asking it
      -- never has to wait
      rw [toList, List.append_eq_nil_iff] at hempty
      have hready : (q.poll).1 = true := by
        unfold poll
        split
        · rfl
        · rw [Channel.receive, hempty.2]
          simp only [hshut, if_true]
      rcases hpoll : q.poll with ⟨ready, q''⟩
      rw [hpoll] at hready
      rw [take, hpoll, show ready = true from hready] at htake
      simp only at htake
      split at htake <;> cases htake

theorem stable_shut : Stable (fun q => q.Sound ∧ q.Shut) where
  poll _ h := ⟨sound_poll h.1, h.2.poll⟩
  take q h := by
    have hclosed := (take_eq_closed_iff h.1).mpr h.2
    rcases htake : q.take with ⟨taken, q'⟩
    rw [htake] at hclosed
    have hgives := take_spec h.1 htake
    rw [show taken = .closed from hclosed] at hgives
    exact ⟨hgives.2.1, hgives.2.2⟩
  produce _ act h := ⟨h.1.produce act, h.2.produce act⟩

/-- A queue that says that it is finished goes on saying so. -/
theorem stable_isFinished : Stable (fun q => q.isFinished = true) where
  poll q h := by
    rw [isFinished, Bool.and_eq_true] at h
    rw [poll, h.1, Bool.or_true, if_pos rfl, isFinished, h.1, h.2]
    rfl
  take q h := by
    have hfinished := h
    rw [isFinished, Bool.and_eq_true, Option.isNone_iff_eq_none] at h
    have htake : q.take = (.closed, q) := by
      rw [take, poll, h.1, Bool.or_true, if_pos rfl]
      simp only [h.2]
    rwa [htake]
  produce q act h := by
    rcases q.produce_cases act with heq | ⟨c, channel, -, -, -, -, heq⟩
      | ⟨channel, -, -, heq⟩ <;>
    · rw [heq]
      exact h

theorem Sound.shut_of_isFinished {q : ChunkQueue} (hsound : q.Sound)
    (h : q.isFinished = true) : q.Shut := by
  rw [isFinished, Bool.and_eq_true] at h
  exact hsound h.1

end ChunkQueue

/-! ## A queue in the hands of an encoder -/

/-- The queue is there and has the property. -/
def Supply.QueueHas {σ : Type} (P : ChunkQueue → Prop) (s : Supply σ) : Prop :=
  ∃ q, s.queue = some q ∧ P q

section Keeping

variable {σ : Type} {P : ChunkQueue → Prop}

theorem ChunkedBody.supply_sendLast (c : ChunkedBody) (s : Supply σ) (dst : Buffer) :
    (c.sendLast s dst).supply = s := by
  unfold sendLast
  split <;> rfl

theorem ChunkedBody.queueHas_drainQueue (htake : ∀ q, P q → P (q.take).2)
    (c : ChunkedBody) (body : Option σ) (queue : ChunkQueue) (dst : Buffer)
    (h : P queue) :
    (c.drainQueue body queue dst).supply.QueueHas P := by
  have hrest : ∀ {q q' : ChunkQueue} {taken : ChunkQueue.Taken}, q.take = (taken, q') →
      P q → P q' := by
    intro q q' taken heq h
    have hnext := htake q h
    rwa [heq] at hnext
  fun_induction drainQueue c body queue dst with
  | case1 c queue dst queue' heq => exact ⟨queue', rfl, hrest heq h⟩
  | case2 c queue dst queue' heq =>
    rw [supply_sendLast]
    exact ⟨queue', rfl, hrest heq h⟩
  | case3 c queue dst chunk queue' heq => exact ⟨queue', rfl, hrest heq h⟩
  | case4 c queue dst chunk queue' heq => exact ⟨queue', rfl, hrest heq h⟩
  | case5 c queue dst chunk queue' heq c' dst' hsend hdone ih => exact ih (hrest heq h)

theorem ChunkedBody.queueHas_afterBody (htake : ∀ q, P q → P (q.take).2)
    (c : ChunkedBody) {s : Supply σ} (dst : Buffer) (h : s.QueueHas P) :
    (c.afterBody s dst).supply.QueueHas P := by
  obtain ⟨q, hq, hP⟩ := h
  rw [afterBody, hq]
  exact queueHas_drainQueue htake c s.body q dst hP

variable [Source σ]

theorem ChunkedBody.queueHas_drainBody (htake : ∀ q, P q → P (q.take).2)
    (c : ChunkedBody) (source : σ) (queue : Option ChunkQueue) (dst : Buffer)
    (h : Supply.QueueHas P ⟨some source, queue⟩) :
    (c.drainBody source queue dst).supply.QueueHas P := by
  fun_induction drainBody c source queue dst with
  | case1 c source dst source' dst' hcut ih => exact ih h
  | case2 c source dst chunk source' dst' hcut c' dst'' hsend => exact h
  | case3 c source dst chunk source' dst' hcut c' dst'' hsend ih => exact ih h
  | case4 c source dst source' dst' hcut => exact h
  | case5 c source dst source' dst' hcut => exact queueHas_afterBody htake _ dst' h
  | case6 c source dst failure source' dst' hcut => exact h

theorem ChunkedBody.queueHas_write (htake : ∀ q, P q → P (q.take).2)
    (c : ChunkedBody) {s : Supply σ} (dst : Buffer) (h : s.QueueHas P) :
    (c.write s dst).supply.QueueHas P := by
  have hnext :
      ∀ (c : ChunkedBody) (dst : Buffer), (c.next s dst).supply.QueueHas P := by
    intro c dst
    unfold next
    split
    · exact queueHas_drainBody htake c _ s.queue dst h
    · exact queueHas_afterBody htake c dst h
  unfold write
  split
  · exact h
  · cases c.inFlight with
    | none => exact hnext c dst
    | some f =>
      simp only
      rcases c.send f dst with ⟨_ | _, c', dst'⟩
      · exact h
      · simp only
        split
        · exact h
        · exact hnext c' dst'

/-- A body of a declared length leaves the queue alone. -/
theorem FixedBody.queue_write (f : FixedBody) (s : Supply σ) (dst : Buffer) :
    (f.write s dst).supply.queue = s.queue := by
  have hfill : ∀ (f : FixedBody) (source : σ) (queue : Option ChunkQueue)
      (dst : Buffer), (f.fill source queue dst).supply.queue = queue := by
    intro f source queue dst
    fun_induction fill f source queue dst with
    | case5 f source dst hdone hroom size n filled source' hread hover hpos ih =>
      exact ih
    | case1 | case2 | case3 | case4 | case6 | case7 | case8 => rfl
  unfold write
  split
  · rfl
  · cases s.body with
    | none => rfl
    | some source => exact hfill f source s.queue dst

/-- Only a chunked body uses the queue. -/
theorem Payload.queue_write {b : Payload} (hnot : ∀ c, b ≠ .chunked c) (s : Supply σ)
    (dst : Buffer) :
    (b.write s dst).supply.queue = s.queue := by
  cases b with
  | fixed f => exact f.queue_write s dst
  | chunked c => exact absurd rfl (hnot c)
  | empty => rfl

theorem Encoder.queue_write {e : Encoder} {sent : List Chunk} {maxChunk : Nat}
    {s : Supply (Recorded σ)} {emitted : Bytes} (hnot : e.plan.framing ≠ .chunked)
    (h : e.phase.Holds sent e.plan maxChunk s emitted) (dst : Buffer) :
    (e.write s dst).supply.queue = s.queue := by
  unfold write
  cases hphase : e.phase with
  | head head =>
    simp only
    split
    · refine Payload.queue_write (fun c hc => ?_) s _
      unfold Payload.start at hc
      split at hc <;> cases hc
      exact hnot ‹_›
    · rfl
  | body b =>
    rw [hphase] at h
    obtain ⟨out, -, hb, -⟩ := h
    refine Payload.queue_write (fun c hc => ?_) s dst
    rw [hc] at hb
    exact hnot hb.1
  | done | failed => rfl

theorem Payload.queueHas_write (htake : ∀ q, P q → P (q.take).2) (b : Payload)
    {s : Supply σ} (dst : Buffer) (h : s.QueueHas P) :
    (b.write s dst).supply.QueueHas P := by
  cases b with
  | fixed f =>
    obtain ⟨q, hq, hP⟩ := h
    exact ⟨q, (f.queue_write s dst).trans hq, hP⟩
  | chunked c => exact c.queueHas_write htake dst h
  | empty => exact h

/-- What taking keeps true of a queue is true of it after a writing call. -/
theorem Encoder.queueHas_write (htake : ∀ q, P q → P (q.take).2) (e : Encoder)
    {s : Supply σ} (dst : Buffer) (h : s.QueueHas P) :
    (e.write s dst).supply.QueueHas P := by
  unfold write
  cases e.phase with
  | head head =>
    simp only
    split
    · exact Payload.queueHas_write htake _ _ h
    · exact h
  | body b => exact b.queueHas_write htake dst h
  | done | failed => exact h

/-- What asking keeps true of a queue is true of it after the encoder was asked. -/
theorem Encoder.queueHas_poll (hpoll : ∀ q, P q → P (q.poll).2) (e : Encoder)
    {s : Supply σ} (h : s.QueueHas P) : (e.poll s).2.QueueHas P := by
  rcases e.poll_cases s with hsame | ⟨x, queue, rfl, hasked, -⟩
    | ⟨body, q, rfl, hasked⟩
  · rwa [hsame]
  · rw [hasked]
    exact h
  · obtain ⟨q', hq', hP⟩ := h
    cases hq'
    rw [hasked]
    exact ⟨(q.poll).2, rfl, hpoll q hP⟩

end Keeping

end HttpWire
