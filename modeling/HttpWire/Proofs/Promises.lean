import HttpWire.Proofs.Bounds
import HttpWire.Proofs.Delivery
import HttpWire.Proofs.Idling

/-!
# What an answer to a poll promises

A driver polls an encoder to know whether it is worth calling it. Polling and
writing take different ways through the state, and this file says that they agree,
in both directions and in every state that a run leads to (`Run.poll_truthful`).

That a body is pending is a promise of the source or the queue that was asked, so
it is kept if they keep theirs: whatever a pending source is asked next, it is
pending still (`Source.Stalls`). A write then finds nothing and leaves everything
as it was, the source included, for any buffer and in any state of the encoder
(`Encoder.write_of_pending`).

That a body is ready is a promise only if somebody has taken note of what was
found, which is what `Encoder.Due` says. The one way in which a write does not
make good on it is that of an idle round: a source can be ready with nothing but
its end, and behind that end stands the queue, which nobody had asked.
-/

namespace HttpWire

/-! ## Pending sources and queues -/

namespace Source

variable {σ : Type} [Source σ]

/-- Every read is told to wait, and leaves the source as it was. -/
def Waits (x : σ) : Prop :=
  ∀ slice, ∃ slice', Source.read x slice = (.pending, slice', x)

/-- A source that says that it is pending is. -/
def Stalls (σ : Type) [Source σ] : Prop :=
  ∀ x : σ, (Source.poll x).1 = .pending → Waits (Source.poll x).2

end Source

theorem Memory.stalls : Source.Stalls Bytes := by
  intro body h
  cases h

namespace Feed

theorem receive_of_pending {f : Feed} (h : f.receive.1 = .pending) :
    f.receive.2.receive = (.pending, f.receive.2) ∧ f.receive.2.held = f.held
      ∧ f.receive.2.ended = f.ended := by
  fun_induction receive f with
  | case1 f rest piece hreceive hpiece ih => exact ih h
  | case2 f rest piece hreceive hpiece => cases h
  | case3 f rest e hreceive => cases h
  | case4 f hreceive => cases h
  | case5 f hreceive =>
    refine ⟨?_, rfl, rfl⟩
    rw [receive]
    split
    · next heq =>
      rw [hreceive] at heq
      cases heq
    · next heq =>
      rw [hreceive] at heq
      cases heq
    · next heq =>
      rw [hreceive] at heq
      cases heq
    · rfl

theorem poll_of_pending {f : Feed} (h : f.poll.1 = .pending) :
    f.poll.2.poll = (.pending, f.poll.2) := by
  unfold poll at h
  split at h
  · cases h
  · next hnot =>
    obtain ⟨hreceive, hheld, hended⟩ := receive_of_pending h
    have hpoll : f.poll = f.receive := if_neg hnot
    rw [hpoll, poll, hheld, hended, if_neg hnot]
    exact hreceive

theorem stalls : Source.Stalls Feed := by
  intro f h slice
  refine ⟨slice, ?_⟩
  show f.poll.2.read slice = _
  rw [read, poll_of_pending h]
  rfl

end Feed

namespace ChunkQueue

/-- A queue is pending if it is open and has nothing; asking it changes nothing. -/
theorem poll_of_pending {q : ChunkQueue} (h : (q.poll).1 = false) :
    q.poll = (false, q) ∧ q.toList = [] ∧ q.channel.closed = false := by
  unfold poll at h ⊢
  split at h
  · cases h
  · next hnot =>
    rw [if_neg hnot]
    simp only [Bool.or_eq_true, not_or, Bool.not_eq_true, Option.isSome_eq_false_iff,
      Option.isNone_iff_eq_none] at hnot
    cases hreceive : q.channel.receive with
    | item c rest =>
      rw [hreceive] at h
      cases h
    | ended =>
      rw [hreceive] at h
      cases h
    | pending =>
      unfold Channel.receive at hreceive
      split at hreceive
      · cases hreceive
      · next hitems =>
        split at hreceive
        · cases hreceive
        · next hopen =>
          exact ⟨rfl, by simp [toList, hnot.1, hitems], by simpa using hopen⟩

theorem poll_of_take {q q' : ChunkQueue} (h : q.take = (.pending, q')) :
    (q.poll).1 = false ∧ q' = q := by
  unfold take at h
  rcases hpoll : q.poll with ⟨_ | _, q''⟩ <;> rw [hpoll] at h
  · have hsame := (poll_of_pending (q := q) (by rw [hpoll])).1
    rw [hpoll] at hsame
    cases h
    cases hsame
    exact ⟨rfl, rfl⟩
  · simp only at h
    split at h <;> cases h

end ChunkQueue

/-! ## Writing when nothing is there -/

section Pending

variable {σ : Type} [Source σ]

theorem FixedBody.fill_of_waits {x : σ} (h : Source.Waits x) {f : FixedBody}
    {queue : Option ChunkQueue} (dst : Buffer) (hnot : f.isDone ≠ true) :
    f.fill x queue dst = ⟨.ok .inProgress, f, ⟨some x, queue⟩, dst⟩ := by
  rw [isDone, Ne, beq_iff_eq] at hnot
  rw [fill, if_neg hnot]
  split
  · rfl
  · simp only
    rcases hlend : dst.lend dst.length (min (f.length - f.written) dst.room) x with
      ⟨report, filled, x'⟩
    obtain ⟨slice, hread, -, hback, -⟩ :=
      Buffer.lend_reads (Nat.min_le_right _ _) hlend
    obtain ⟨slice', hwaits⟩ :=
      h (List.replicate (min (f.length - f.written) dst.room) 0)
    rw [hwaits] at hread
    cases hread
    simp only [hback]

theorem Cut.fromSource_of_waits {x : σ} (h : Source.Waits x) (maxChunk : Nat)
    (dst : Buffer) :
    fromSource maxChunk x dst = (.stalled, x, dst) := by
  obtain ⟨slice, hread⟩ := h (List.replicate (lent maxChunk dst.room) 0)
  by_cases hroom : dst.room = 0
  · exact fromSource_full hroom maxChunk x
  · exact fromSource_of_read hroom hread

variable (hstalls : Source.Stalls σ) {s : Supply σ}

include hstalls

theorem FixedBody.write_of_pending {f : FixedBody} (h : (f.poll s).1 = .pending)
    (dst : Buffer) :
    f.write (f.poll s).2 dst = ⟨.ok .inProgress, f, (f.poll s).2, dst⟩ := by
  obtain ⟨body, queue⟩ := s
  unfold poll at h ⊢
  cases body with
  | none => cases h
  | some x =>
    simp only at h ⊢
    split at h
    · cases h
    · next hnot =>
      rw [if_neg hnot, write, if_neg hnot]
      exact fill_of_waits (hstalls x h) dst hnot

theorem ChunkedBody.write_of_pending {c : ChunkedBody} (h : (c.poll s).1 = .pending)
    (dst : Buffer) :
    c.write (c.poll s).2 dst = ⟨.ok .inProgress, c, (c.poll s).2, dst⟩ := by
  have hbusy : ¬ (c.isDone || c.inFlight.isSome) = true := by
    intro hbusy
    rw [poll, if_pos hbusy] at h
    cases h
  simp only [Bool.or_eq_true, not_or, Bool.not_eq_true, Option.isSome_eq_false_iff,
    Option.isNone_iff_eq_none] at hbusy
  obtain ⟨hdone, hidle⟩ := hbusy
  have hwrite : ∀ s : Supply σ, c.write s dst = c.next s dst := by
    intro s
    rw [write, if_neg (by simp [hdone])]
    simp only [hidle]
  have hnot : c.stage ≠ .finished := by simpa [isDone] using hdone
  rw [hwrite]
  obtain ⟨body, queue⟩ := s
  by_cases hsource : c.stage = .body → body = none
  · -- the queue was asked
    rw [poll_queue hidle hnot hsource] at h ⊢
    cases queue with
    | none => cases h
    | some q =>
      have hpending : (q.poll).1 = false := by
        cases hready : (q.poll).1 with
        | false => rfl
        | true => simp [hready] at h
      have hpoll := (ChunkQueue.poll_of_pending hpending).1
      have htake : q.take = (.pending, q) := by rw [ChunkQueue.take, hpoll]
      simp only [hpoll]
      have hnext : c.next ⟨body, some q⟩ dst = c.drainQueue body q dst := by
        unfold next
        split
        · next hstage hbody => cases (hsource hstage).symm.trans hbody
        · rfl
      rw [hnext, drainQueue_eq, htake]
  · rw [Classical.not_imp] at hsource
    obtain ⟨hstage, hsome⟩ := hsource
    cases body with
    | none => exact absurd rfl hsome
    | some x =>
      rw [poll_source hidle hstage] at h ⊢
      simp only [next, hstage]
      rw [drainBody_eq, Cut.fromSource_of_waits (hstalls x h)]

/-- An encoder that says that it is pending writes nothing, and stays as it is. -/
theorem Encoder.write_of_pending {e : Encoder} (h : (e.poll s).1 = .pending)
    (dst : Buffer) :
    e.write (e.poll s).2 dst = ⟨.ok .inProgress, e, (e.poll s).2, dst⟩ := by
  obtain ⟨plan, limits, phase⟩ := e
  cases phase with
  | body b =>
    have hsame : (b.poll s).1 = .pending →
        b.write (b.poll s).2 dst = ⟨.ok .inProgress, b, (b.poll s).2, dst⟩ := by
      intro hpending
      cases b with
      | fixed f =>
        simp only [Payload.write, Payload.poll,
          FixedBody.write_of_pending hstalls hpending]
      | chunked c =>
        simp only [Payload.write, Payload.poll,
          ChunkedBody.write_of_pending hstalls hpending]
      | empty => cases hpending
    simp only [poll] at h ⊢
    rcases hpoll : b.poll s with ⟨_ | _ | _, s'⟩ <;> rw [hpoll] at h hsame
    · cases h
    · simp only [write, writeBody, hsame rfl]
    · cases h
  | head head => cases h
  | done => cases h
  | failed => cases h

end Pending

/-! ## Writing when something is there -/

/-- A cut that found the end of its source has read that end. -/
theorem Cut.read_of_ended {σ : Type} [Source σ] {maxChunk : Nat} {x x' : σ}
    {dst dst' : Buffer} (h : fromSource maxChunk x dst = (.ended, x', dst'))
    (hmax : 0 < maxChunk) :
    ∃ n slice, 0 < n ∧ Source.read x (List.replicate n 0) = (.ended, slice, x') := by
  by_cases hroom : dst.room = 0
  · rw [fromSource_full hroom] at h
    cases h
  · rcases hread :
      Source.read x (List.replicate (lent maxChunk dst.room) 0) with ⟨report, slice, y⟩
    rw [fromSource_of_read hroom hread, Prod.mk.injEq, Prod.mk.injEq] at h
    obtain ⟨hcut, rfl, -⟩ := h
    rw [report_of_ended hcut] at hread
    exact ⟨_, slice, lent_pos hmax dst.room, hread⟩

namespace Encoder

variable {σ : Type} [Source σ]

/-- A chunked body whose source has just ended turns to its queue, which is open
and empty. Nothing is written, and the encoder says that it is pending. -/
def TurnsToQueue (e : Encoder) (s : Supply σ) (dst : Buffer)
    (w : Written Encoder σ) : Prop :=
  ∃ c x x' q, e.phase = .body (.chunked c) ∧ c.stage = .body ∧ c.inFlight = none
    ∧ s = ⟨some x, some q⟩
    ∧ (∃ n slice, 0 < n ∧ Source.read x (List.replicate n 0) = (.ended, slice, x'))
    ∧ q.toList = [] ∧ q.channel.closed = false
    ∧ w = ⟨.ok .inProgress,
      { e with phase := .body (.chunked { c with stage := .queue }) },
      ⟨some x', some q⟩, dst⟩
    ∧ (w.state.poll w.supply).1 = .pending

theorem Turns.toQueue {e : Encoder} {s : Supply σ} {dst : Buffer}
    {w : Written Encoder σ} (h : e.Turns s dst w) (htidy : e.phase.Tidy) :
    e.TurnsToQueue s dst w := by
  obtain ⟨c, wc, hphase, ⟨hstage, hflight, x, x', q, q', hs, hcut, htake, rfl⟩, rfl⟩ :=
    h
  rw [hphase] at htidy
  obtain ⟨hpending, rfl⟩ := ChunkQueue.poll_of_take htake
  obtain ⟨hpoll, hempty, hopen⟩ := ChunkQueue.poll_of_pending hpending
  refine ⟨c, x, x', q', hphase, hstage, hflight, hs, Cut.read_of_ended hcut htidy.1,
    hempty, hopen, rfl, ?_⟩
  have hasked := @ChunkedBody.poll_queue _ _ ⟨some x', some q'⟩
    { c with stage := .queue } hflight (by simp) (by simp)
  simp only [Encoder.poll, Payload.poll, hasked, hpoll]
  rfl

/-- Polls of the encoder tell what a call would come to. A pending encoder writes
nothing, whatever the buffer, and stays as it is. A ready one, given room for a
byte, adds to the buffer or is done or fails, unless it turns to its queue. -/
structure Truthful (e : Encoder) (s : Supply σ) : Prop where
  pending : (e.poll s).1 = .pending → ∀ dst,
    e.write (e.poll s).2 dst = ⟨.ok .inProgress, e, (e.poll s).2, dst⟩
  ready : (e.poll s).1 = .ready → ∀ dst, 0 < dst.room →
    (∃ out, out ≠ [] ∧ (e.write (e.poll s).2 dst).dst = dst.append out)
      ∨ (e.write (e.poll s).2 dst).result = .ok .done
      ∨ (∃ failure, (e.write (e.poll s).2 dst).result = .error failure)
      ∨ e.TurnsToQueue (e.poll s).2 dst (e.write (e.poll s).2 dst)

theorem truthful {acts : (σ → σ) → Prop} {e : Encoder} {s : Supply σ}
    (hstalls : Source.Stalls σ) (hbody : s.BodyHas (Source.Honours acts))
    (htidy : e.phase.Tidy) : e.Truthful s where
  pending := write_of_pending hstalls
  ready hready dst hroom := by
    have hdue := due_poll hbody hready
    generalize (e.poll s).2 = s' at hdue
    cases hresult : (e.write s' dst).result with
    | error failure => exact .inr (.inr (.inl ⟨failure, rfl⟩))
    | ok progress =>
      cases progress with
      | done => exact .inr (.inl rfl)
      | inProgress =>
        by_cases hgains : dst.length < (e.write s' dst).dst.length
        · obtain ⟨out, hdst, -⟩ := e.write_appends s' dst
          refine .inl ⟨out, ?_, hdst⟩
          rintro rfl
          rw [hdst, Buffer.append_nil] at hgains
          exact Nat.lt_irrefl _ hgains
        · have hturns := turns_of_idle htidy hdue hroom hresult (Nat.not_lt.mp hgains)
          exact .inr (.inr (.inr (hturns.toQueue htidy)))

end Encoder

namespace Run

theorem tidy_after {σ : Type} [Source σ] {p : Plan} {limits : Limits} {s : Supply σ}
    (hqueue : ∀ q, s.queue = some q → q.Reachable) (moves : List (Move σ)) :
    ((start p limits s).after moves).encoder.phase.Tidy := by
  have hfollows :
      ((start p limits s.recorded).after (moves.map Move.recorded)).Follows p limits :=
    (follows_start hqueue).after moves
  rw [← forget_start, ← forget_after]
  exact hfollows.holds.tidy limits.maxChunk_pos

/-- Whatever a run has done to an encoder with a body in memory, a
body that is fed through a channel or no body, with a queue or
without, its polls tell the truth. -/
theorem poll_truthful (p : Plan) (limits : Limits) {queue : Option ChunkQueue}
    (hqueue : ∀ q, queue = some q → q.Reachable) :
    (∀ (body : Option Bytes) (moves : List (Move Bytes)),
        let run := (start p limits ⟨body, queue⟩).after moves
        run.encoder.Truthful run.supply)
      ∧ ∀ (body : Option Feed) (moves : List (Move Feed)),
        let run := (start p limits ⟨body, queue⟩).after moves
        run.encoder.Truthful run.supply := by
  constructor
  · intro body moves
    exact Encoder.truthful Memory.stalls (fun x _ => Memory.honours (fun _ => False) x)
      (tidy_after hqueue moves)
  · intro body moves
    exact Encoder.truthful Feed.stalls (fun x _ => x.honours) (tidy_after hqueue moves)

/-- The upload with a fed body after its head, when nothing was sent, and when
its sender is dropped. -/
theorem poll_truthful_upload :
    let waiting := (start uploadPlan {} ⟨some ({} : Feed), some {}⟩).after
      [.write (Buffer.empty 1024)]
    let ended := waiting.step
      (.feed (fun feed => { feed with channel := feed.channel.dropSender }))
    ((waiting.encoder.poll waiting.supply).1 = .pending
      ∧ waiting.encoder.Truthful waiting.supply)
      ∧ (ended.encoder.poll ended.supply).1 = .ready
      ∧ ended.encoder.Truthful ended.supply := by
  refine ⟨⟨by decide +kernel, ?_⟩, by decide +kernel, ?_⟩
  · exact (poll_truthful uploadPlan {} ChunkQueue.Reachable.of_fresh).2 (some {})
      [.write (Buffer.empty 1024)]
  · exact (poll_truthful uploadPlan {} ChunkQueue.Reachable.of_fresh).2 (some {})
      [.write (Buffer.empty 1024),
      .feed (fun feed => { feed with channel := feed.channel.dropSender })]

end Run

end HttpWire
