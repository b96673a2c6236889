import HttpWire.Proofs.Delivery
import HttpWire.Proofs.Idling
import HttpWire.Proofs.Sending

/-!
# When a transmission gives up on a body that is ready

A transmission gives up after two idle rounds in a row, if the body was ready at
once after each of them. It allows one such round because data may arrive
between writing and asking.

The second one is idle only because the body has turned from its source to its
queue, and it is as harmless as the first. If the queue gets a chunk or is
closed before it is asked, the transmission gives up although the next round
would have brought something. `Sending.noProgress_iff` says that this is the
only way to fail so with a source that honours readiness, and
`Sending.noProgress_of_honest` that it happens.

The invariant behind it says what an idle round on the count means at every stage
of a transmission (`Transmission.Counts`): before a round, that the body has
something to give; after it, that the body stands at its queue.
-/

namespace HttpWire

/-! ## Two idle rounds in a row -/

/-- In the second idle round in a row the body turned to its queue, which had
nothing to give; but now that it is asked, it has something. -/
structure Transmission.Overtaken {σ τ : Type} (t : Transmission)
    (l : Link σ τ) : Prop where
  stage : t.stage = .await false
  idleRounds : t.idleRounds = 1
  atQueue : l.encoder.AtQueue l.supply
  found : ∀ q, l.supply.queue = some q → (q.poll).1 = true

/-- The transmission of a sending is overtaken by its queue. -/
def Sending.Overtaken {σ τ : Type} (s : Sending σ τ) : Prop :=
  ∃ t, (s.standing = .running t ∨ s.standing = .suspended t) ∧ t.Overtaken s.link

namespace Transmission

variable {σ τ : Type} [Source σ] (acts : (σ → σ) → Prop)

/-- What an idle round that is on the count says about the body. -/
def Counts (t : Transmission) (l : Link σ τ) : Prop :=
  match t.stage with
  | .encode => t.idleRounds = 0 ∨ t.idleRounds = 1 ∧ l.encoder.Due acts l.supply
  | .flush | .await false =>
    t.idleRounds = 0 ∨ t.idleRounds = 1 ∧ l.encoder.AtQueue l.supply
  | .write _ _ => t.idleRounds = 0
  | .await true | .finish => True

end Transmission

/-- A transmission that goes on keeps the count, and one that is
finished has not failed by it. -/
def Standing.Counts {σ τ : Type} [Source σ] (acts : (σ → σ) → Prop) (capacity : Nat)
    (l : Link σ τ) : Standing → Prop
  | .running t | .suspended t => t.capacity = capacity ∧ t.Counts acts l
  | .finished result => ∀ n, result ≠ .error (.noProgress n)

theorem Standing.Counts.live {σ τ : Type} [Source σ] {acts : (σ → σ) → Prop}
    {capacity : Nat} {standing : Standing} {l : Link σ τ} {t : Transmission}
    (h : standing.Counts acts capacity l)
    (hlive : standing = .running t ∨ standing = .suspended t) :
    t.capacity = capacity ∧ t.Counts acts l := by
  rcases hlive with rfl | rfl <;> exact h

/-- A change of the supply keeps the count if it keeps what the
count says of the body. -/
theorem Standing.Counts.outside {σ τ : Type} [Source σ] {acts : (σ → σ) → Prop}
    {capacity : Nat} {standing : Standing} {l : Link σ τ} {supply : Supply σ}
    (h : standing.Counts acts capacity l)
    (hdue : l.encoder.Due acts l.supply → l.encoder.Due acts supply)
    (hat : l.encoder.AtQueue l.supply → l.encoder.AtQueue supply) :
    standing.Counts acts capacity { l with supply := supply } := by
  have hlive : ∀ {t : Transmission}, t.Counts acts l →
      t.Counts acts { l with supply := supply } := by
    intro t hcounts
    unfold Transmission.Counts at hcounts ⊢
    cases hstage : t.stage with
    | encode =>
      rw [hstage] at hcounts
      exact hcounts.imp_right (And.imp_right hdue)
    | write rest progress =>
      rw [hstage] at hcounts
      exact hcounts
    | flush =>
      rw [hstage] at hcounts
      exact hcounts.imp_right (And.imp_right hat)
    | await waited =>
      rw [hstage] at hcounts
      cases waited with
      | false => exact hcounts.imp_right (And.imp_right hat)
      | true => trivial
    | finish => trivial
  cases standing with
  | running t => exact ⟨h.1, hlive h.2⟩
  | suspended t => exact ⟨h.1, hlive h.2⟩
  | finished result => exact h

namespace Transmission

variable {σ τ : Type} [Source σ] {acts : (σ → σ) → Prop} {t : Transmission}
  {l : Link σ τ}

theorem encodeRound_counts
    (h : t.idleRounds = 0 ∨ t.idleRounds = 1 ∧ l.encoder.Due acts l.supply)
    (hcapacity : 0 < t.capacity) (htidy : l.encoder.phase.Tidy) :
    (t.encodeRound l).1.Counts acts t.capacity (t.encodeRound l).2 := by
  have hidle := fun (hdue : l.encoder.Due acts l.supply) =>
    l.encoder.atQueue_of_idle htidy hdue hcapacity
  have hfailure := (l.encoder.write_orderly l.supply (Buffer.empty t.capacity)).failure
  unfold encodeRound
  simp only
  cases hresult : (l.encoder.write l.supply (Buffer.empty t.capacity)).result with
  | error failure =>
    rw [hresult] at hfailure
    exact fun n heq => hfailure n (congrArg Except.error (Except.error.inj heq))
  | ok progress =>
    simp only
    split
    · next hempty =>
      cases progress with
      | done => exact ⟨rfl, trivial⟩
      | inProgress =>
        exact ⟨rfl, h.imp_right (fun hcount =>
          ⟨hcount.1, hidle hcount.2 hresult (List.isEmpty_iff.mp hempty)⟩)⟩
    · exact ⟨rfl, rfl⟩

theorem awaitBody_counts {waited : Bool} (hstage : t.stage = .await waited)
    (h : t.Counts acts l) (hbody : l.supply.BodyHas (Source.Honours acts))
    (hnot : ¬ t.Overtaken l) :
    (t.awaitBody waited l).1.Counts acts t.capacity (t.awaitBody waited l).2 := by
  have hdue := @Encoder.due_poll _ _ acts l.supply l.encoder hbody
  have hfailure := @Encoder.failure_of_poll _ _ l.encoder l.supply
  have hready : (l.encoder.poll l.supply).1 = .ready → waited = false →
      t.idleRounds = 0 := by
    rintro hready rfl
    rw [Counts, hstage] at h
    refine h.resolve_right (fun hcount => hnot ⟨hstage, hcount.1, hcount.2, ?_⟩)
    exact hcount.2.ready_iff.mp hready
  unfold awaitBody
  generalize l.encoder.poll l.supply = answer at hdue hfailure hready ⊢
  obtain ⟨poll, supply⟩ := answer
  cases poll with
  | pending => exact ⟨rfl, trivial⟩
  | failed failure => exact fun n heq => hfailure rfl n (Except.error.inj heq)
  | ready =>
    cases waited with
    | true => exact ⟨rfl, .inl rfl⟩
    | false =>
      simp only [hready rfl rfl]
      exact ⟨rfl, .inr ⟨rfl, hdue rfl⟩⟩

variable [Transport τ]

theorem offer_counts {rest : Bytes} {progress : Progress}
    (hstage : t.stage = .write rest progress) (h : t.idleRounds = 0) :
    (t.offer rest progress l).1.Counts acts t.capacity
      (t.offer rest progress l).2 := by
  have hsame : ∀ {l' : Link σ τ}, t.Counts acts l' := by
    intro l'
    rw [Counts, hstage]
    exact h
  unfold offer
  rcases Transport.write l.transport rest with ⟨n | _ | error, transport⟩
  · cases n with
    | zero => simp [Standing.Counts]
    | succ n =>
      simp only
      split
      · cases progress with
        | done => exact ⟨rfl, trivial⟩
        | inProgress => exact ⟨rfl, .inl h⟩
      · exact ⟨rfl, h⟩
  · exact ⟨rfl, hsame⟩
  · simp only
    split
    · exact ⟨rfl, hsame⟩
    · simp [Standing.Counts]

theorem flushThen_counts {next : Standing}
    (hsame : ∀ transport : τ, t.Counts acts { l with transport := transport })
    (hnext : ∀ transport : τ,
      next.Counts acts t.capacity { l with transport := transport }) :
    (t.flushThen next l).1.Counts acts t.capacity (t.flushThen next l).2 := by
  unfold flushThen
  rcases Transport.flush l.transport with ⟨_ | _ | error, transport⟩
  · exact hnext transport
  · exact ⟨rfl, hsame transport⟩
  · simp [Standing.Counts]

/-- A step keeps the count, unless the transmission was overtaken by the queue. -/
theorem step_counts (h : t.Counts acts l) (hcapacity : 0 < t.capacity)
    (htidy : l.encoder.phase.Tidy) (hbody : l.supply.BodyHas (Source.Honours acts))
    (hnot : ¬ t.Overtaken l) :
    (t.step l).1.Counts acts t.capacity (t.step l).2 := by
  unfold step
  cases hstage : t.stage with
  | encode =>
    rw [Counts, hstage] at h
    exact encodeRound_counts h hcapacity htidy
  | write rest progress =>
    rw [Counts, hstage] at h
    exact offer_counts hstage h
  | flush =>
    rw [Counts, hstage] at h
    refine flushThen_counts (fun transport => ?_) (fun transport => ⟨rfl, h⟩)
    rw [Counts, hstage]
    exact h
  | await waited => exact awaitBody_counts hstage h hbody hnot
  | finish =>
    refine flushThen_counts (fun transport => ?_)
      (fun transport => by simp [Standing.Counts])
    rw [Counts, hstage]
    trivial

theorem bodyHas_step {P : σ → Prop} (hP : Source.Invariant P) (t : Transmission)
    (h : l.supply.BodyHas P) : (t.step l).2.supply.BodyHas P := by
  rw [(t.step_link l).2]
  cases t.call? with
  | none => exact h
  | some call =>
    cases call with
    | write dst => exact l.encoder.bodyHas_write hP dst h
    | poll => exact l.encoder.bodyHas_poll hP h

theorem Overtaken.step (h : t.Overtaken l) :
    (t.step l).1 = .finished (.error (.noProgress t.capacity)) := by
  obtain ⟨hstage, hidle, hat, hfound⟩ := h
  have hready := hat.ready_iff.mpr hfound
  rw [Transmission.step, hstage]
  simp only [awaitBody]
  generalize l.encoder.poll l.supply = answer at hready ⊢
  obtain ⟨poll, supply⟩ := answer
  obtain rfl : poll = .ready := hready
  simp only [hidle]
  rfl

end Transmission

namespace Sending

variable {σ τ : Type} [Source σ] {acts : (σ → σ) → Prop} {p : Plan} {limits : Limits}
  {capacity : Nat} {s : Sending σ τ}

/-- What is true of a sending until the queue overtakes it. -/
structure Fits (acts : (σ → σ) → Prop) (p : Plan) (limits : Limits) (capacity : Nat)
    (s : Sending σ τ) : Prop where
  run : ∃ r : Run (Recorded σ), r.Follows p limits ∧ s.Mirrors r.forget
  body : s.link.supply.BodyHas (Source.Honours acts)
  standing : s.standing.Counts acts capacity s.link

theorem fits_start {supply : Supply σ} {transport : τ}
    (hqueue : ∀ q, supply.queue = some q → q.Reachable)
    (hbody : supply.BodyHas (Source.Honours acts)) :
    (start capacity p limits supply transport).Fits acts p limits capacity where
  run :=
    ⟨_, Run.follows_start hqueue, by rw [Run.forget_start]; exact ⟨rfl, rfl, rfl, rfl⟩⟩
  body := hbody
  standing := ⟨rfl, .inl rfl⟩

theorem Fits.tidy (h : s.Fits acts p limits capacity) : s.link.encoder.phase.Tidy := by
  obtain ⟨r, hfollows, hmirrors⟩ := h.run
  rw [← hmirrors.encoder]
  exact hfollows.holds.tidy limits.maxChunk_pos

variable [Transport τ]

theorem step_of_finished {result : Except Failure Unit}
    (h : s.standing = .finished result) (move : SendMove σ) :
    (s.step move).standing = .finished result := by
  cases move with
  | step =>
    show s.advance.standing = _
    rw [advance, h]
    exact h
  | feed f => exact h
  | produce act => exact h

theorem after_of_finished {result : Except Failure Unit}
    (h : s.standing = .finished result) (moves : List (SendMove σ)) :
    (s.after moves).standing = .finished result := by
  induction moves generalizing s with
  | nil => exact h
  | cons move moves ih => exact ih (step_of_finished h move)

theorem Fits.advance (h : s.Fits acts p limits capacity) (hcapacity : 0 < capacity)
    (hnot : ¬ s.Overtaken) :
    s.advance.link.supply.BodyHas (Source.Honours acts)
      ∧ s.advance.standing.Counts acts capacity s.advance.link := by
  rcases s.advance_cases with ⟨t, hstanding, hadvance⟩ | ⟨-, hsame⟩
  · obtain ⟨rfl, hcounts⟩ := h.standing.live hstanding
    rw [hadvance]
    exact ⟨t.bodyHas_step Source.Honours.invariant h.body,
      t.step_counts hcounts hcapacity h.tidy h.body
        (fun hover => hnot ⟨t, hstanding, hover⟩)⟩
  · rw [hsame]
    exact ⟨h.body, h.standing⟩

theorem Fits.step (h : s.Fits acts p limits capacity) (hcapacity : 0 < capacity)
    {move : SendMove σ} (hfeed : ∀ f, move = .feed f → acts f)
    (hnot : ¬ (move = .step ∧ s.Overtaken)) :
    (s.step move).Fits acts p limits capacity where
  run := by
    obtain ⟨r, hfollows, hmirrors⟩ := h.run
    obtain ⟨ms, hms⟩ := hmirrors.step move
    refine ⟨r.after (ms.map Move.recorded), hfollows.after ms, ?_⟩
    rw [Run.forget_after]
    exact hms
  body := by
    cases move with
    | step => exact (h.advance hcapacity (fun hover => hnot ⟨rfl, hover⟩)).1
    | feed f =>
      intro x hx
      obtain ⟨y, hy, rfl⟩ := Option.map_eq_some_iff.mp hx
      exact (h.body y hy).act (hfeed f rfl)
    | produce act => exact h.body
  standing := by
    cases move with
    | step => exact (h.advance hcapacity (fun hover => hnot ⟨rfl, hover⟩)).2
    | feed f =>
      refine h.standing.outside (fun hdue => hdue.feed (hfeed f rfl)) ?_
      rintro ⟨c, hphase, hstage, hflight, hsome, hqueue⟩
      exact ⟨c, hphase, hstage, hflight, by rwa [Option.isSome_map], hqueue⟩
    | produce act =>
      refine h.standing.outside (fun hdue => hdue.produce act) ?_
      rintro ⟨c, hphase, hstage, hflight, hsome, hqueue⟩
      exact ⟨c, hphase, hstage, hflight, hsome, by rwa [Option.isSome_map]⟩

theorem Overtaken.step (h : s.Overtaken) (hfits : s.Fits acts p limits capacity) :
    (s.step .step).standing = .finished (.error (.noProgress capacity)) := by
  obtain ⟨t, hstanding, hover⟩ := h
  have hcapacity := (hfits.standing.live hstanding).1
  show s.advance.standing = _
  rw [advance_eq hstanding, ← hcapacity]
  exact hover.step

/-- Of a sending that fits, a failure for lack of progress is the queue
overtaking it at some step. -/
theorem Fits.noProgress_after_iff (h : s.Fits acts p limits capacity)
    (hcapacity : 0 < capacity) {moves : List (SendMove σ)}
    (hfeeds : ∀ f, .feed f ∈ moves → acts f) (n : Nat) :
    (s.after moves).standing = .finished (.error (.noProgress n)) ↔
      n = capacity ∧ ∃ before more,
        moves = before ++ .step :: more ∧ (s.after before).Overtaken := by
  induction moves generalizing s with
  | nil =>
    have hcounts := h.standing
    constructor
    · intro hstanding
      rw [show s.standing = _ from hstanding] at hcounts
      exact absurd rfl (hcounts n)
    · rintro ⟨-, before, more, hmoves, -⟩
      exact absurd hmoves.symm (by simp)
  | cons move moves ih =>
    by_cases hover : move = .step ∧ s.Overtaken
    · obtain ⟨rfl, hover⟩ := hover
      have hstanding := after_of_finished (hover.step h) moves
      rw [show s.after (.step :: moves) = (s.step .step).after moves from rfl,
        hstanding]
      constructor
      · intro heq
        cases heq
        exact ⟨rfl, [], moves, rfl, hover⟩
      · rintro ⟨rfl, -⟩
        rfl
    · have hnext :=
        h.step hcapacity (fun f hf => hfeeds f (hf ▸ List.mem_cons_self)) hover
      rw [show s.after (move :: moves) = (s.step move).after moves from rfl,
        ih hnext (fun f hf => hfeeds f (List.mem_cons_of_mem _ hf))]
      refine and_congr_right (fun _ => ?_)
      constructor
      · rintro ⟨before, more, rfl, hlate⟩
        exact ⟨move :: before, more, rfl, hlate⟩
      · rintro ⟨before, more, hmoves, hlate⟩
        cases before with
        | nil =>
          cases hmoves
          exact absurd ⟨rfl, hlate⟩ hover
        | cons first before =>
          cases hmoves
          exact ⟨before, more, rfl, hlate⟩

/-- If the source honours readiness, sending fails for lack of progress exactly if
at some step the queue overtakes the transmission. -/
theorem noProgress_iff {supply : Supply σ} {transport : τ}
    {moves : List (SendMove σ)} (hcapacity : 0 < capacity)
    (hqueue : ∀ q, supply.queue = some q → q.Reachable)
    (hbody : supply.BodyHas (Source.Honours acts))
    (hfeeds : ∀ f, .feed f ∈ moves → acts f) (n : Nat) :
    ((start capacity p limits supply transport).after moves).standing
      = .finished (.error (.noProgress n)) ↔
      n = capacity ∧ ∃ before more, moves = before ++ .step :: more
        ∧ ((start capacity p limits supply transport).after before).Overtaken :=
  (fits_start hqueue hbody).noProgress_after_iff hcapacity hfeeds n

/-- The upload with a body that is fed through a channel. -/
def fedUpload : Message Feed :=
  { startLine := Run.upload.startLine, headers := Run.upload.headers, body := some {} }

/-- Three polls of its transmission. Before the second the sender of the body
is dropped, and before the third the queue is closed; both times the
transport had not yet flushed. -/
def overtakenMoves : List (SendMove Feed) :=
  List.replicate 4 .step
    ++ .feed (fun feed => { feed with channel := feed.channel.dropSender })
    :: List.replicate 4 .step ++ .produce .close :: List.replicate 2 .step

/-- That upload, over a transport that lets two flushes wait and
one in between succeed. -/
def overtakenUpload (limits : Limits) : Sending Feed ScriptedTransport :=
  (start 1024 Run.uploadPlan limits ⟨fedUpload.body, some {}⟩
    { flushes := [.pending, .flushed, .pending] }).after overtakenMoves

theorem produced_of_mem_overtakenMoves {f : Feed → Feed}
    (hf : .feed f ∈ overtakenMoves) :
    Feed.Produced f := by
  simp [overtakenMoves] at hf
  exact ⟨_, hf⟩

theorem noProgress_iff_overtakenUpload :
    (overtakenUpload {}).standing = .finished (.error (.noProgress 1024))
      ∧ ∃ before more, overtakenMoves = before ++ .step :: more
        ∧ ((start 1024 Run.uploadPlan {} ⟨fedUpload.body, some {}⟩
          ({ flushes := [.pending, .flushed, .pending] } : ScriptedTransport)).after
            before).Overtaken := by
  have hstanding :
      (overtakenUpload {}).standing = .finished (.error (.noProgress 1024)) := by
    decide +kernel
  exact ⟨hstanding,
    ((noProgress_iff (by decide) ChunkQueue.Reachable.of_fresh (fun x _ => x.honours)
      (fun _ => produced_of_mem_overtakenMoves) 1024).mp hstanding).2⟩

/-- A message that can be sent and a source that honours readiness are not enough:
both idle rounds were harmless, and the transmission gives up. -/
theorem noProgress_of_honest :
    fedUpload.plan {} = .ok Run.uploadPlan
      ∧ Supply.BodyHas (Source.Honours Feed.Produced) ⟨fedUpload.body, some {}⟩
      ∧ (∀ f, .feed f ∈ overtakenMoves → Feed.Produced f)
      ∧ (overtakenUpload {}).standing = .finished (.error (.noProgress 1024)) :=
  ⟨rfl, fun x _ => x.honours,
    fun _ => produced_of_mem_overtakenMoves, by decide +kernel⟩

end Sending

end HttpWire
