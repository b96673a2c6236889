import HttpWire.Proofs.Growth
import HttpWire.Proofs.Progress
import HttpWire.Proofs.Readiness

/-!
# Idle rounds

A round is idle if it adds nothing to an empty buffer and is not the last. The
question is what an idle round says of a body that was ready before it, from a
source that honours readiness.

A body that has said that it is ready has something to give (`Encoder.Due`), and
nothing that can happen to it from outside takes that back. So the next round adds
bytes, or fails, or is the last, with one exception: a chunked body whose source
turns out to be at its end goes on to its queue, and the queue need not have
anything yet. Turning to the queue is then all that the round does
(`Encoder.turns_of_idle`). After it the encoder stands at its queue
(`Encoder.atQueue_of_idle`), and it is as ready as the queue is
(`Encoder.AtQueue.ready_iff`).
-/

namespace HttpWire

/-! ## Reading from a source that is ready -/

section Reading

variable {σ : Type} [Source σ] {source : σ}

theorem FixedBody.fill_gains {f : FixedBody} {queue : Option ChunkQueue}
    {dst : Buffer}
    (hread : ∀ slice, slice ≠ [] → (Source.read source slice).1.GotSomewhere)
    (hroom : 0 < dst.room)
    (hresult : (f.fill source queue dst).result = .ok .inProgress) :
    dst.length < (f.fill source queue dst).dst.length := by
  rw [fill] at hresult ⊢
  by_cases hmissing : f.length - f.written = 0
  · rw [if_pos hmissing] at hresult
    cases hresult
  rw [if_neg hmissing, if_neg (by omega)] at hresult ⊢
  simp only at hresult ⊢
  rcases hlend : dst.lend dst.length (min (f.length - f.written) dst.room) source with
    ⟨report, filled, source'⟩
  obtain ⟨slice, hanswer, hlen, -, hkept⟩ :=
    Buffer.lend_reads (Nat.min_le_right _ _) hlend
  have hgot :=
    hread (List.replicate (min (f.length - f.written) dst.room) 0) (by simp; omega)
  rw [hanswer] at hgot
  rw [hlend] at hresult
  cases report with
  | data n =>
    have hn : n ≠ 0 := hgot
    simp only at hresult ⊢
    split at hresult
    · cases hresult
    · next hle =>
      rw [dif_neg hle, if_neg hn]
      refine Nat.lt_of_lt_of_le ?_ (fill_orderly _ _ queue _).length_le
      rw [hkept, Buffer.length_append, List.length_take]
      omega
  | pending => exact hgot.elim
  | ended => cases hresult
  | failed e => cases hresult

theorem Cut.fromSource_ne_stalled {maxChunk : Nat} {dst : Buffer}
    (hread : ∀ slice, slice ≠ [] → (Source.read source slice).1.GotSomewhere)
    (hroom : 0 < dst.room) (hmax : 0 < maxChunk) :
    (fromSource maxChunk source dst).1 ≠ .stalled := by
  have hpos := lent_pos hmax dst.room
  have hgot := hread (List.replicate (lent maxChunk dst.room) 0) (by simp; omega)
  rcases hanswer : Source.read source (List.replicate (lent maxChunk dst.room) 0) with
    ⟨report, slice, source'⟩
  rw [fromSource_of_read (Nat.ne_of_gt hroom) hanswer]
  rw [hanswer] at hgot
  cases report with
  | data n =>
    have hn : n ≠ 0 := hgot
    simp only [ofRead, if_neg hn]
    split
    · simp
    · split <;> simp
  | pending => exact hgot.elim
  | ended => simp [ofRead]
  | failed e => simp [ofRead]

end Reading

/-! ## What a ready answer leaves behind -/

/-- The queue has a chunk at its front, or its end was seen. -/
def ChunkQueue.Found (q : ChunkQueue) : Prop :=
  (q.front.isSome || q.ended) = true

namespace ChunkQueue

variable {q : ChunkQueue}

theorem found_poll (h : (q.poll).1 = true) : (q.poll).2.Found := by
  unfold poll at h ⊢
  split at h
  · next hfound =>
    rw [if_pos hfound]
    exact hfound
  · next hnot =>
    rw [if_neg hnot]
    cases hreceive : q.channel.receive with
    | item c rest => rfl
    | ended => exact Bool.or_true _
    | pending =>
      rw [hreceive] at h
      cases h

theorem Found.take (h : q.Found) : (q.take).1 ≠ .pending := by
  have hpoll : q.poll = (true, q) := if_pos h
  unfold ChunkQueue.take
  rw [hpoll]
  simp only
  split <;> simp

theorem Found.produce (h : q.Found) (act : ChunkAct) : (q.produce act).1.Found := by
  rcases q.produce_cases act with heq | ⟨c, channel, -, -, -, -, heq⟩
    | ⟨channel, -, -, heq⟩ <;> rw [heq]
  · exact h
  · exact h
  · exact h

end ChunkQueue

section Due

variable {σ : Type} [Source σ] (acts : (σ → σ) → Prop)

/-- The place that the next chunk comes from has something to give: the source, as
long as it is read, and else the queue, if there is one. -/
structure ChunkedBody.Due (c : ChunkedBody) (s : Supply σ) : Prop where
  source : c.inFlight = none → c.stage = .body → s.BodyHas (Source.Primed acts)
  queue : c.inFlight = none → c.stage ≠ .finished → (c.stage = .body → s.body = none) →
    ∀ q, s.queue = some q → q.Found

/-- A body is done, or the place that its next bytes come from has something to
give. -/
def Payload.Due (b : Payload) (s : Supply σ) : Prop :=
  match b with
  | .fixed f => f.isDone = true ∨ s.BodyHas (Source.Primed acts)
  | .chunked c => c.Due acts s
  | .empty => True

/-- An encoder is not at its body, or the body is due. -/
def Encoder.Due (e : Encoder) (s : Supply σ) : Prop :=
  match e.phase with
  | .body b => b.Due acts s
  | .head _ | .done | .failed => True

variable {acts} {s : Supply σ}

theorem FixedBody.due_poll {f : FixedBody} (hbody : s.BodyHas (Source.Honours acts))
    (hready : (f.poll s).1 = .ready) : (Payload.fixed f).Due acts (f.poll s).2 := by
  obtain ⟨body, queue⟩ := s
  unfold poll at hready ⊢
  cases body with
  | none => exact .inr (fun x hx => by cases hx)
  | some x =>
    simp only at hready ⊢
    split
    · next hdone => exact .inl hdone
    · next hnot =>
      rw [if_neg hnot] at hready
      refine .inr ?_
      rintro y hy
      cases hy
      exact (hbody x rfl).poll hready

namespace ChunkedBody

variable {c : ChunkedBody}

/-- With no chunk in flight, the source is asked as long as it is read. -/
theorem poll_source {x : σ} {queue : Option ChunkQueue} (hidle : c.inFlight = none)
    (hstage : c.stage = .body) :
    c.poll ⟨some x, queue⟩ = ((Source.poll x).1, ⟨some (Source.poll x).2, queue⟩) := by
  rw [poll, if_neg (by simp [isDone, hidle, hstage])]
  simp only [hstage]

/-- Otherwise the queue is asked, if there is one. -/
theorem poll_queue (hidle : c.inFlight = none) (hnot : c.stage ≠ .finished)
    (hsource : c.stage = .body → s.body = none) :
    c.poll s = match s.queue with
      | some q =>
        (if (q.poll).1 then .ready else .pending, { s with queue := some (q.poll).2 })
      | none => (.ready, s) := by
  obtain ⟨body, queue⟩ := s
  rw [poll, if_neg (by simp [isDone, hidle, hnot])]
  cases hstage : c.stage with
  | body =>
    cases hsource hstage
    cases queue <;> rfl
  | queue => cases queue <;> rfl
  | finished => exact absurd hstage hnot

theorem due_poll (hbody : s.BodyHas (Source.Honours acts))
    (hready : (c.poll s).1 = .ready) :
    c.Due acts (c.poll s).2 where
  source hidle hstage := by
    obtain ⟨body, queue⟩ := s
    cases body with
    | none =>
      rw [poll_queue hidle (by simp [hstage]) (fun _ => rfl)]
      intro x hx
      cases queue <;> cases hx
    | some x =>
      rw [poll_source hidle hstage] at hready ⊢
      rintro y hy
      cases hy
      exact (hbody x rfl).poll hready
  queue hidle hnot hsource := by
    obtain ⟨body, queue⟩ := s
    have hnone : c.stage = .body → body = none := by
      intro hstage
      cases body with
      | none => rfl
      | some x =>
        rw [poll_source hidle hstage] at hsource
        cases hsource hstage
    rw [poll_queue hidle hnot hnone] at hready ⊢
    cases queue with
    | none =>
      rintro q' hq'
      cases hq'
    | some q =>
      rintro q' hq'
      cases hq'
      refine ChunkQueue.found_poll ?_
      cases hfound : q.poll.1 with
      | true => rfl
      | false =>
        simp only [hfound] at hready
        cases hready

end ChunkedBody

theorem Payload.due_poll {b : Payload} (hbody : s.BodyHas (Source.Honours acts))
    (hready : (b.poll s).1 = .ready) : b.Due acts (b.poll s).2 := by
  cases b with
  | fixed f => exact FixedBody.due_poll hbody hready
  | chunked c => exact ChunkedBody.due_poll hbody hready
  | empty => trivial

theorem Encoder.due_poll {e : Encoder} (hbody : s.BodyHas (Source.Honours acts))
    (hready : (e.poll s).1 = .ready) : e.Due acts (e.poll s).2 := by
  obtain ⟨plan, limits, phase⟩ := e
  cases phase with
  | body b =>
    have hdue := @Payload.due_poll _ _ acts s b hbody
    simp only [poll] at hready ⊢
    generalize b.poll s = answer at hdue hready ⊢
    obtain ⟨readiness, s'⟩ := answer
    cases readiness with
    | ready => exact hdue rfl
    | pending => cases hready
    | failed error => cases hready
  | head head => trivial
  | done => trivial
  | failed => trivial

/-- What is done to the source from outside does not take back what
a body was found to be. -/
theorem Encoder.Due.feed {e : Encoder} {f : σ → σ} (h : e.Due acts s) (hf : acts f) :
    e.Due acts { s with body := s.body.map f } := by
  have hprimed : s.BodyHas (Source.Primed acts) →
      Supply.BodyHas (Source.Primed acts) { s with body := s.body.map f } := by
    intro hbody x hx
    obtain ⟨y, hy, rfl⟩ := Option.map_eq_some_iff.mp hx
    exact (hbody y hy).act hf
  obtain ⟨plan, limits, phase⟩ := e
  cases phase with
  | body b =>
    cases b with
    | fixed f => exact Or.imp_right hprimed h
    | chunked c =>
      obtain ⟨hsource, hqueue⟩ := h
      refine ⟨fun hidle hstage => hprimed (hsource hidle hstage),
        fun hidle hnot hnone => ?_⟩
      exact hqueue hidle hnot (fun hstage => Option.map_eq_none_iff.mp (hnone hstage))
    | empty => trivial
  | head head => trivial
  | done => trivial
  | failed => trivial

theorem Encoder.Due.produce {e : Encoder} (h : e.Due acts s) (act : ChunkAct) :
    e.Due acts { s with queue := s.queue.map (fun q => (q.produce act).1) } := by
  obtain ⟨plan, limits, phase⟩ := e
  cases phase with
  | body b =>
    cases b with
    | fixed f => exact h
    | chunked c =>
      obtain ⟨hsource, hqueue⟩ := h
      refine ⟨hsource, fun hidle hnot hnone q hq => ?_⟩
      obtain ⟨q', hq', rfl⟩ := Option.map_eq_some_iff.mp hq
      exact (hqueue hidle hnot hnone q' hq').produce act
    | empty => trivial
  | head head => trivial
  | done => trivial
  | failed => trivial

end Due

/-! ## What an idle round was -/

/-- The head or the chunk that is being written has something left, and
chunks can carry data. -/
def Phase.Tidy : Phase → Prop
  | .head h => h.rest ≠ []
  | .body (.chunked c) => 0 < c.maxChunk ∧ ∀ f, c.inFlight = some f → f.rest ≠ []
  | .body (.fixed _) | .body .empty | .done | .failed => True

theorem Phase.Holds.tidy {σ : Type} {phase : Phase} {sent : List Chunk} {p : Plan}
    {maxChunk : Nat} {s : Supply (Recorded σ)} {emitted : Bytes}
    (h : phase.Holds sent p maxChunk s emitted) (hmax : 0 < maxChunk) :
    phase.Tidy := by
  cases phase with
  | head head => exact h.2.1
  | body b =>
    obtain ⟨out, -, hb, -⟩ := h
    cases b with
    | chunked c =>
      obtain ⟨-, hcut, L, hkeeps⟩ := hb
      exact ⟨hcut ▸ hmax, fun f hf => (hkeeps.of_inFlight hf).2.1⟩
    | fixed f => trivial
    | empty => trivial
  | done => trivial
  | failed => trivial

/-- The body source has been read to its end, and the next chunk
comes from the queue. -/
structure ChunkedBody.AtQueue {σ : Type} (c : ChunkedBody) (s : Supply σ) : Prop where
  stage : c.stage = .queue
  inFlight : c.inFlight = none
  body : s.body.isSome
  queue : s.queue.isSome

/-- The encoder writes a chunked body that stands so. -/
def Encoder.AtQueue {σ : Type} (e : Encoder) (s : Supply σ) : Prop :=
  ∃ c, e.phase = .body (.chunked c) ∧ c.AtQueue s

/-- All that came of a call is that the body turned to its queue: its source was
read to the end, and the queue had nothing to give yet. -/
def ChunkedBody.Turns {σ : Type} [Source σ] (c : ChunkedBody) (s : Supply σ)
    (dst : Buffer) (w : Written ChunkedBody σ) : Prop :=
  c.stage = .body ∧ c.inFlight = none ∧ ∃ x x' q q', s = ⟨some x, some q⟩
    ∧ Cut.fromSource c.maxChunk x dst = (.ended, x', dst) ∧ q.take = (.pending, q')
    ∧ w = ⟨.ok .inProgress, { c with stage := .queue }, ⟨some x', some q'⟩, dst⟩

/-- The call of an encoder turned a chunked body from its source to its queue. -/
def Encoder.Turns {σ : Type} [Source σ] (e : Encoder) (s : Supply σ) (dst : Buffer)
    (w : Written Encoder σ) : Prop :=
  ∃ c wc, e.phase = .body (.chunked c) ∧ c.Turns s dst wc
    ∧ w = ⟨wc.result, { e with phase := .body (.chunked wc.state) }, wc.supply, wc.dst⟩

theorem Encoder.Turns.atQueue {σ : Type} [Source σ] {e : Encoder} {s : Supply σ}
    {dst : Buffer} {w : Written Encoder σ} (h : e.Turns s dst w) :
    w.state.AtQueue w.supply := by
  obtain ⟨c, wc, -, ⟨-, hflight, x, x', q, q', -, -, -, rfl⟩, rfl⟩ := h
  exact ⟨_, rfl, rfl, hflight, rfl, rfl⟩

section Idle

namespace ChunkedBody

variable {σ : Type} {c : ChunkedBody} {s : Supply σ} {dst : Buffer}

theorem afterBody_idle (hroom : 0 < dst.room)
    (hidle : (c.afterBody s dst).dst.length ≤ dst.length) :
    ∃ q q', s.queue = some q ∧ q.take = (.pending, q')
      ∧ c.afterBody s dst = ⟨.ok .inProgress, c, ⟨s.body, some q'⟩, dst⟩ := by
  obtain ⟨body, queue⟩ := s
  cases queue with
  | none => exact absurd (c.sendLast_gains ⟨body, none⟩ hroom) (Nat.not_lt.mpr hidle)
  | some q =>
    rcases @drainQueue_gains _ c body q dst hroom with ⟨q', htake, hdrain⟩ | hgains
    · exact ⟨q, q', rfl, htake, hdrain⟩
    · exact absurd hgains (Nat.not_lt.mpr hidle)

variable [Source σ] {acts : (σ → σ) → Prop}

theorem drainBody_idle {x : σ} {queue : Option ChunkQueue} (hstage : c.stage = .body)
    (hflight : c.inFlight = none) (hmax : 0 < c.maxChunk)
    (hprimed : Source.Primed acts x) (hroom : 0 < dst.room)
    (hresult : (c.drainBody x queue dst).result = .ok .inProgress)
    (hidle : (c.drainBody x queue dst).dst.length ≤ dst.length) :
    c.Turns ⟨some x, queue⟩ dst (c.drainBody x queue dst) := by
  have hcut := Cut.fromSource_ne_stalled (fun _ => hprimed.read) hroom hmax
  have hleaves := Cut.fromSource_leaves c.maxChunk x dst
  rw [drainBody_eq] at hresult hidle ⊢
  generalize hanswer :
    Cut.fromSource c.maxChunk x dst = answer at hcut hleaves hresult hidle ⊢
  obtain ⟨cut, x', dst'⟩ := answer
  cases cut with
  | written =>
    have hle := (c.drainBody_orderly x' queue dst').length_le
    have hlt : dst.length < dst'.length := hleaves
    simp only at hidle
    omega
  | held chunk =>
    obtain rfl : dst' = dst := hleaves
    have hlt := send_gains (c := c) (rest_ne_nil_of_new chunk) hroom
    simp only at hidle
    rcases hsend : c.send { chunk := chunk } dst' with ⟨_ | _, c', dst''⟩
    all_goals
      rw [hsend] at hlt hidle
      simp only at hlt hidle
    · omega
    · have hle := (c'.drainBody_orderly x' queue dst'').length_le
      omega
  | stalled => exact absurd rfl hcut
  | ended =>
    obtain rfl : dst' = dst := hleaves
    obtain ⟨q, q', hq, htake, hafter⟩ := afterBody_idle hroom hidle
    obtain rfl : queue = some q := hq
    exact ⟨hstage, hflight, x, x', q, q', rfl, hanswer, htake, hafter⟩
  | failed failure => cases hresult

theorem write_gains {f : InFlight} (hnot : c.isDone ≠ true)
    (hflight : c.inFlight = some f) (hrest : f.rest ≠ []) (hroom : 0 < dst.room) :
    dst.length < (c.write s dst).dst.length := by
  have hlt := send_gains (c := c) hrest hroom
  rw [write, if_neg hnot]
  simp only [hflight]
  rcases hsend : c.send f dst with ⟨_ | _, c', dst'⟩
  all_goals
    rw [hsend] at hlt
    simp only at hlt ⊢
  · exact hlt
  · split
    · exact hlt
    · exact Nat.lt_of_lt_of_le hlt (c'.next_orderly s dst').length_le

theorem next_idle (hflight : c.inFlight = none) (hmax : 0 < c.maxChunk)
    (hnot : c.stage ≠ .finished) (hdue : c.Due acts s) (hroom : 0 < dst.room)
    (hresult : (c.next s dst).result = .ok .inProgress)
    (hidle : (c.next s dst).dst.length ≤ dst.length) :
    c.Turns s dst (c.next s dst) := by
  obtain ⟨hsource, hqueue⟩ := hdue
  obtain ⟨body, queue⟩ := s
  by_cases hnone : c.stage = .body → body = none
  · -- a queue that has something to give is not idle
    have hnext : c.next ⟨body, queue⟩ dst = c.afterBody ⟨body, queue⟩ dst := by
      unfold next
      split
      · next hstage hbody => cases (hnone hstage).symm.trans hbody
      · rfl
    rw [hnext] at hidle
    obtain ⟨q, q', hq, htake, -⟩ := afterBody_idle hroom hidle
    exact absurd (congrArg Prod.fst htake) (hqueue hflight hnot hnone q hq).take
  · rw [Classical.not_imp] at hnone
    obtain ⟨hstage, hsome⟩ := hnone
    cases body with
    | none => exact absurd rfl hsome
    | some x =>
      have hnext : c.next ⟨some x, queue⟩ dst = c.drainBody x queue dst := by
        simp only [next, hstage]
      rw [hnext] at hresult hidle ⊢
      exact drainBody_idle hstage hflight hmax (hsource hflight hstage x rfl) hroom
        hresult hidle

/-- A round of a chunked body that had something to give was idle only if the
body turned to its queue. -/
theorem turns_of_idle (htidy : (Phase.body (.chunked c)).Tidy) (hdue : c.Due acts s)
    (hroom : 0 < dst.room) (hresult : (c.write s dst).result = .ok .inProgress)
    (hidle : (c.write s dst).dst.length ≤ dst.length) :
    c.Turns s dst (c.write s dst) := by
  obtain ⟨hmax, hrest⟩ := htidy
  by_cases hdone : c.isDone = true
  · rw [write, if_pos hdone] at hresult
    cases hresult
  cases hflight : c.inFlight with
  | some f =>
    exact absurd (write_gains hdone hflight (hrest f hflight) hroom)
      (Nat.not_lt.mpr hidle)
  | none =>
    have hwrite : c.write s dst = c.next s dst := by
      rw [write, if_neg hdone]
      simp only [hflight]
    rw [hwrite] at hresult hidle ⊢
    exact next_idle hflight hmax (by simpa [isDone] using hdone) hdue hroom
      hresult hidle

end ChunkedBody

variable {σ : Type} [Source σ] {acts : (σ → σ) → Prop} {s : Supply σ} {dst : Buffer}

theorem FixedBody.write_gains {f : FixedBody} (hdue : (Payload.fixed f).Due acts s)
    (hroom : 0 < dst.room) (hresult : (f.write s dst).result = .ok .inProgress) :
    dst.length < (f.write s dst).dst.length := by
  obtain ⟨body, queue⟩ := s
  by_cases hdone : f.isDone = true
  · rw [write, if_pos hdone] at hresult
    cases hresult
  · rw [write, if_neg hdone] at hresult ⊢
    cases body with
    | none => cases hresult
    | some x =>
      have hprimed := hdue.resolve_left hdone x rfl
      exact fill_gains (fun _ => hprimed.read) hroom hresult

/-- A round that had something to give was idle only if a chunked
body turned to its queue. -/
theorem Encoder.turns_of_idle {e : Encoder} (htidy : e.phase.Tidy)
    (hdue : e.Due acts s) (hroom : 0 < dst.room)
    (hresult : (e.write s dst).result = .ok .inProgress)
    (hidle : (e.write s dst).dst.length ≤ dst.length) :
    e.Turns s dst (e.write s dst) := by
  obtain ⟨plan, limits, phase⟩ := e
  cases phase with
  | head head =>
    have hrest : head.rest ≠ [] := htidy
    have hlt : dst.length < (head.write dst).2.length := by
      have hpos := List.length_pos_iff.mpr hrest
      rw [(head.write_spec dst).1, Buffer.length_append, List.length_take]
      omega
    simp only [write] at hidle
    split at hidle
    · have hle := (writeBody_orderly ⟨plan, limits, .head head⟩
        (Payload.start plan.framing limits.maxChunk) s (head.write dst).2).length_le
      omega
    · simp only at hidle
      omega
  | body b =>
    simp only [write, writeBody] at hresult hidle ⊢
    cases b with
    | fixed f =>
      exact absurd (FixedBody.write_gains hdue hroom hresult) (Nat.not_lt.mpr hidle)
    | chunked c =>
      have hturns := ChunkedBody.turns_of_idle htidy hdue hroom hresult hidle
      simp only [hresult]
      exact ⟨c, _, rfl, hturns, by rw [← hresult]; rfl⟩
    | empty => cases hresult
  | done => cases hresult
  | failed => cases hresult

theorem Encoder.atQueue_of_idle {e : Encoder} {capacity : Nat} (htidy : e.phase.Tidy)
    (hdue : e.Due acts s) (hcapacity : 0 < capacity)
    (hresult : (e.write s (Buffer.empty capacity)).result = .ok .inProgress)
    (hidle : (e.write s (Buffer.empty capacity)).dst.bytes = []) :
    (e.write s (Buffer.empty capacity)).state.AtQueue
      (e.write s (Buffer.empty capacity)).supply := by
  have hroom : 0 < (Buffer.empty capacity).room := by
    simpa [Buffer.empty, Buffer.holding, Buffer.room, Buffer.length] using hcapacity
  have hlength : (e.write s (Buffer.empty capacity)).dst.length
      ≤ (Buffer.empty capacity).length := by
    rw [Buffer.length, hidle]
    exact Nat.zero_le _
  exact (turns_of_idle htidy hdue hroom hresult hlength).atQueue

end Idle

/-! ## Asking after an idle round -/

section Asking

variable {σ : Type} [Source σ] {e : Encoder} {s : Supply σ}

theorem Encoder.failure_of_poll {failure : Failure}
    (h : (e.poll s).1 = .failed failure) (n : Nat) :
    failure ≠ .noProgress n := by
  rintro rfl
  obtain ⟨plan, limits, phase⟩ := e
  cases phase with
  | body b =>
    simp only [poll] at h
    generalize b.poll s = answer at h
    obtain ⟨readiness, s'⟩ := answer
    cases readiness <;> cases h
  | head head => cases h
  | done => cases h
  | failed => cases h

/-- An encoder that has turned to the queue is as ready as the queue is. -/
theorem Encoder.AtQueue.ready_iff (h : e.AtQueue s) :
    (e.poll s).1 = .ready ↔ ∀ q, s.queue = some q → (q.poll).1 = true := by
  obtain ⟨plan, limits, phase⟩ := e
  obtain ⟨c, rfl, hstage, hflight, -, hqueue⟩ := h
  obtain ⟨q, hq⟩ := Option.isSome_iff_exists.mp hqueue
  have hpoll := ChunkedBody.poll_queue (s := s) hflight (by simp [hstage])
    (by simp [hstage])
  rw [hq] at hpoll
  simp only [Encoder.poll, Payload.poll, hpoll, hq, Option.some.injEq, forall_eq']
  cases q.poll.1 <;> simp

end Asking

end HttpWire
