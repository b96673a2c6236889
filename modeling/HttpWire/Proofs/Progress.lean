import HttpWire.Proofs.Runs

/-!
# How a message stands at any moment

Whatever the moves of a run were, the bytes emitted so far fit where the encoder
stands. `Phase.Holds` says how: in the head, what was emitted and what the head
has left are the head; after it, what was emitted is the head and a part of the
body that `Payload.Holds` describes; when the encoder is done, that part is all of
it, and when it has failed, it is not.

Every move keeps this (`Run.Follows.step`). Moves of producers and polls change
the supply only in ways that neither read nor take anything (`Supply.Extends`),
and writing is followed through the phases.

Two readings of it are what the rest is built on. When everything is written, the
part of the body is a whole one that the plan can delimit (`Payload.Holds.whole`);
and at any other moment there are bytes that would make it one
(`Payload.Holds.part`).
-/

namespace HttpWire

/-! ## Changes from outside -/

/-- A supply after a change that reads and takes nothing; `more`
was put into the queue. -/
structure Supply.Extends {σ : Type} (s s' : Supply (Recorded σ))
    (more : List Chunk) : Prop where
  handed : s'.handed = s.handed
  hasBody : s'.body.isSome = s.body.isSome
  ended : s.BodyEnded → s'.BodyEnded
  queued : s'.queued = s.queued ++ more
  sound : (∀ q, s.queue = some q → q.Sound) → ∀ q, s'.queue = some q → q.Sound
  shut : (∀ q, s.queue = some q → q.Shut) → ∀ q, s'.queue = some q → q.Shut

namespace Supply

variable {σ : Type}

theorem Extends.refl (s : Supply (Recorded σ)) : s.Extends s [] where
  handed := rfl
  hasBody := rfl
  ended h := h
  queued := (List.append_nil _).symm
  sound h := h
  shut h := h

theorem extends_body {body body' : Option (Recorded σ)} {queue : Option ChunkQueue}
    (hsome : body'.isSome = body.isSome)
    (hevents : ∀ r r', body = some r → body' = some r' →
      r'.handed = r.handed ∧ r'.ended = r.ended) :
    Extends ⟨body, queue⟩ ⟨body', queue⟩ [] where
  handed := by
    cases body with
    | none =>
      cases body' with
      | none => rfl
      | some r' => cases hsome
    | some r =>
      cases body' with
      | none => cases hsome
      | some r' => exact (hevents r r' rfl rfl).1
  hasBody := hsome
  ended h r' hr' := by
    cases body with
    | none =>
      rw [show body' = some r' from hr'] at hsome
      cases hsome
    | some r =>
      rw [(hevents r r' rfl hr').2]
      exact h r rfl
  queued := (List.append_nil _).symm
  sound h := h
  shut h := h

theorem extends_queue {body : Option (Recorded σ)} {q q' : ChunkQueue}
    {more : List Chunk} (hlist : q'.toList = q.toList ++ more)
    (hsound : q.Sound → q'.Sound) (hshut : q.Shut → q'.Shut) :
    Extends ⟨body, some q⟩ ⟨body, some q'⟩ more where
  handed := rfl
  hasBody := rfl
  ended h := h
  queued := hlist
  sound h x hx := by
    cases hx
    exact hsound (h q rfl)
  shut h x hx := by
    cases hx
    exact hshut (h q rfl)

end Supply

namespace ChunkedBody

variable {σ : Type} {sent : List Chunk} {c : ChunkedBody} {s s' : Supply (Recorded σ)}
  {emitted : Bytes} {more : List Chunk}

theorem Keeps.extend {L : Ledger} (h : Keeps sent c s L emitted)
    (hs : s.Extends s' more) :
    Keeps (sent ++ more) c s' L emitted where
  wire := h.wire
  frames := h.frames
  handed := hs.handed.trans h.handed
  taken := by rw [hs.queued, ← List.append_assoc, h.taken]
  sound := hs.sound h.sound
  shut hclosed := hs.shut (h.shut hclosed)
  source_first hstage hsome := h.source_first hstage (hs.hasBody ▸ hsome)
  source_ended hstage := hs.ended (h.source_ended hstage)
  stands := h.stands

/-- Before its first byte the ledger of a body is empty. -/
theorem keeps_start (maxChunk : Nat) (hhanded : s.handed = [])
    (hsound : ∀ q, s.queue = some q → q.Sound) :
    Keeps s.queued { maxChunk := maxChunk } s {} [] where
  wire := rfl
  frames d hd := by cases hd
  handed := hhanded
  taken := rfl
  sound := hsound
  shut hclosed := by cases hclosed
  source_first _ _ := ⟨rfl, rfl⟩
  source_ended hnot := absurd rfl hnot
  stands chunk hchunk := by cases hchunk

end ChunkedBody

/-! ## Bodies -/

namespace Payload

variable {σ : Type}

/-- Nothing of this body is left to write. -/
def IsComplete : Payload → Prop
  | .fixed f => f.written = f.length
  | .chunked c => c.stage = .finished
  | .empty => True

/-- How a body stands when `out` is what has been emitted of it. -/
def Holds (b : Payload) (sent : List Chunk) (p : Plan) (maxChunk : Nat)
    (s : Supply (Recorded σ)) (out : Bytes) : Prop :=
  match b with
  | .fixed f =>
    p.framing = .length f.length ∧ s.handed = out ∧ f.written = out.length
      ∧ f.written ≤ f.length
  | .chunked c =>
    p.framing = .chunked ∧ c.maxChunk = maxChunk ∧ ∃ L, c.Keeps sent s L out
  | .empty => p.framing = .empty ∧ s.handed = [] ∧ out = []

variable {sent : List Chunk} {p : Plan} {maxChunk : Nat} {s s' : Supply (Recorded σ)}
  {out : Bytes}

theorem holds_start (hhanded : s.handed = [])
    (hsound : ∀ q, s.queue = some q → q.Sound) :
    (start p.framing maxChunk).Holds s.queued p maxChunk s [] := by
  cases hframing : p.framing with
  | length n => exact ⟨hframing, hhanded, rfl, Nat.zero_le _⟩
  | chunked =>
    exact ⟨hframing, rfl, {}, ChunkedBody.keeps_start maxChunk hhanded hsound⟩
  | empty => exact ⟨hframing, hhanded, rfl⟩

theorem Holds.extend {b : Payload} {more : List Chunk}
    (h : b.Holds sent p maxChunk s out) (hs : s.Extends s' more) :
    b.Holds (sent ++ more) p maxChunk s' out := by
  cases b with
  | fixed f => exact ⟨h.1, hs.handed.trans h.2.1, h.2.2⟩
  | chunked c =>
    obtain ⟨hframing, hmax, L, hkeeps⟩ := h
    exact ⟨hframing, hmax, L, hkeeps.extend hs⟩
  | empty => exact ⟨h.1, hs.handed.trans h.2.1, h.2.2⟩

section Sources

variable [Source σ]

theorem extends_poll (b : Payload) (s : Supply (Recorded σ)) :
    s.Extends (b.poll s).2 [] := by
  rcases b.poll_cases s with hsame | ⟨r, queue, rfl, hasked⟩ | ⟨body, q, rfl, hasked⟩
  · rw [hsame]
    exact .refl s
  · rw [hasked]
    refine Supply.extends_body rfl ?_
    intro x x' hx hx'
    cases hx
    cases hx'
    exact ⟨r.handed_poll, r.ended_poll⟩
  · rw [hasked]
    refine Supply.extends_queue ?_ ChunkQueue.sound_poll ChunkQueue.Shut.poll
    rw [q.toList_poll, List.append_nil]

/-- Writing appends bytes that fit and keeps the body in order; it is done
exactly if the body is. -/
theorem Holds.write {b : Payload} (dst : Buffer) (h : b.Holds sent p maxChunk s out) :
    ∃ more, (b.write s dst).dst = dst.append more ∧ more.length ≤ dst.room
      ∧ (b.write s dst).state.Holds sent p maxChunk (b.write s dst).supply
        (out ++ more)
      ∧ ((b.write s dst).result = .ok .done ↔ (b.write s dst).state.IsComplete) := by
  cases b with
  | fixed f =>
    obtain ⟨hframing, hhanded, hwritten, hle⟩ := h
    obtain ⟨got, hdst, hfit, hmore, -, hstate, hbound, hdone⟩ := f.write_spec s dst hle
    refine ⟨got, hdst, hfit, ?_, ?_⟩
    · simp only [Payload.write, Holds, hstate, hmore, hhanded, List.length_append]
      exact ⟨hframing, trivial, by omega, hbound⟩
    · simp only [Payload.write, IsComplete, hstate]
      exact hdone
  | chunked c =>
    obtain ⟨hframing, hmax, L, hkeeps⟩ := h
    obtain ⟨L', more, hdst, hfit, hkeeps', hmax', hdone⟩ :=
      ChunkedBody.write_advances dst hkeeps
    exact ⟨more, hdst, hfit, ⟨hframing, hmax'.trans hmax, L', hkeeps'⟩, hdone⟩
  | empty =>
    obtain ⟨hframing, hhanded, hout⟩ := h
    refine ⟨[], (dst.append_nil).symm, Nat.zero_le _,
      ⟨hframing, hhanded, ?_⟩, by simp [Payload.write, IsComplete]⟩
    rw [hout, List.append_nil]

end Sources

end Payload

/-! ### Whole bodies and parts of them -/

/-- The body that was delivered over a whole run, by what became of its supply:
the bytes that the source handed out, and the chunks that were taken from the
queue out of all that were sent to it. -/
inductive Delivered {σ : Type} (maxChunk : Nat) (framing : Framing)
    (s : Supply (Recorded σ)) (sent : List Chunk) : WireBody → Prop
  /-- no body, and nothing was read -/
  | nothing : framing = .empty → s.handed = [] →
      Delivered maxChunk framing s sent (.plain [])
  /-- the bytes of the source, as many as announced -/
  | plain : framing = .length s.handed.length →
      Delivered maxChunk framing s sent (.plain s.handed)
  /-- chunks with the bytes of the source, none of them empty or too large,
  then the taken chunks as they were sent, and a plain last chunk if the
  queue was found closed -/
  | chunked (frames : List Bytes) (taken : List Chunk) (closed : Bool) :
    framing = .chunked →
    s.handed = frames.flatten → (∀ d ∈ frames, d ≠ [] ∧ d.length ≤ maxChunk) →
    taken ++ s.queued = sent → (closed = true → ∀ q, s.queue = some q → q.Shut) →
    Delivered maxChunk framing s sent
      (.chunked
      (frames.map Chunk.ofData ++ (taken ++ if closed then [Chunk.last] else [])))

namespace ChunkedBody

variable {σ : Type} {sent : List Chunk} {c : ChunkedBody} {s : Supply (Recorded σ)}
  {L : Ledger} {emitted : Bytes}

theorem Keeps.valid (h : Keeps sent c s L emitted) (hsent : ∀ x ∈ sent, x.Valid) :
    ∀ x ∈ L.chunks, x.Valid := by
  intro x hx
  rcases List.mem_append.mp hx with hx | hx
  · obtain ⟨d, -, rfl⟩ := List.mem_map.mp hx
    exact Chunk.valid_of_data d
  · rcases List.mem_append.mp hx with hx | hx
    · refine hsent x ?_
      rw [← h.taken]
      exact List.mem_append_left _ hx
    · split at hx
      · rw [List.mem_singleton.mp hx]
        exact Chunk.valid_of_data []
      · cases hx

theorem Keeps.ended (h : Keeps sent c s L emitted) (hdone : c.stage = .finished) :
    Chunk.Ended L.chunks ∧ emitted = L.chunks.flatMap Chunk.wire := by
  cases hf : c.inFlight with
  | none =>
    have hstands := h.stands
    rw [Stands, hdone, hf] at hstands
    exact ⟨hstands, h.wire_of_idle hf⟩
  | some f => exact absurd hdone (h.of_inFlight hf).1

/-- A body that is not finished lacks bytes to be a whole one: those of the chunk
in flight, and of a last chunk if none was begun. -/
theorem Keeps.unended (h : Keeps sent c s L emitted) (hnot : c.stage ≠ .finished) :
    ∃ last more, Chunk.Ended (L.chunks ++ last) ∧ (∀ x ∈ last, x.Valid) ∧ more ≠ []
      ∧ emitted ++ more = (L.chunks ++ last).flatMap Chunk.wire := by
  have hlast : ∀ {cs : List Chunk}, Chunk.Open cs → Chunk.Ended (cs ++ [Chunk.last]) :=
    fun hopen => ⟨_, Chunk.last, rfl, hopen, rfl⟩
  have hvalid : ∀ x ∈ [Chunk.last], x.Valid := by
    intro x hx
    rw [List.mem_singleton.mp hx]
    exact Chunk.valid_of_data []
  have hpos : Chunk.last.wire ≠ [] := List.length_pos_iff.mp Chunk.last.length_wire_pos
  cases hf : c.inFlight with
  | none =>
    refine ⟨[Chunk.last], Chunk.last.wire, hlast (h.open_of_idle hf hnot),
      hvalid, hpos, ?_⟩
    rw [List.flatMap_append, List.flatMap_singleton, ← h.wire_of_idle hf]
  | some f =>
    have hwire := h.wire
    rw [rest, hf] at hwire
    obtain ⟨-, hrest, before, hbefore, hopen⟩ := h.of_inFlight hf
    cases hend : f.chunk.isLast with
    | true =>
      refine ⟨[], f.rest, ?_, by simp, hrest, ?_⟩
      · rw [List.append_nil]
        exact ⟨before, f.chunk, hbefore, hopen, hend⟩
      · rw [List.append_nil]
        exact hwire
    | false =>
      have hall : Chunk.Open L.chunks := by
        rw [hbefore]
        exact hopen.concat hend
      refine ⟨[Chunk.last], f.rest ++ Chunk.last.wire, hlast hall, hvalid, ?_, ?_⟩
      · exact fun hnil => hpos (List.append_eq_nil_iff.mp hnil).2
      · rw [List.flatMap_append, List.flatMap_singleton, ← List.append_assoc]
        exact congrArg (· ++ Chunk.last.wire) hwire

end ChunkedBody

namespace Payload

variable {σ : Type} {sent : List Chunk} {p : Plan} {maxChunk : Nat}
  {s : Supply (Recorded σ)} {out : Bytes} {b : Payload}

/-- What was emitted of a complete body is a whole one. -/
theorem Holds.whole (h : b.Holds sent p maxChunk s out) (hsent : ∀ c ∈ sent, c.Valid)
    (hcomplete : b.IsComplete) :
    ∃ w, Delivered maxChunk p.framing s sent w ∧ p.Carries w ∧ out = w.wire := by
  cases b with
  | fixed f =>
    obtain ⟨hframing, hhanded, hwritten, -⟩ := h
    have hlength : f.length = s.handed.length := by
      rw [hhanded, ← hwritten]
      exact Eq.symm hcomplete
    rw [hlength] at hframing
    exact ⟨_, .plain hframing, .inr hframing, hhanded.symm⟩
  | chunked c =>
    obtain ⟨hframing, hmax, L, hkeeps⟩ := h
    obtain ⟨hended, hout⟩ := hkeeps.ended hcomplete
    refine ⟨_, .chunked L.frames L.taken L.closed hframing hkeeps.handed ?_
      hkeeps.taken hkeeps.shut, ⟨hframing, hended, hkeeps.valid hsent⟩, hout⟩
    rw [← hmax]
    exact hkeeps.frames
  | empty =>
    obtain ⟨hframing, hhanded, hout⟩ := h
    exact ⟨_, .nothing hframing hhanded, .inl ⟨hframing, rfl⟩, hout⟩

/-- What was emitted of any body is the front of a whole one, and if it is not
complete, something is missing from it. -/
theorem Holds.part (h : b.Holds sent p maxChunk s out) (hsent : ∀ c ∈ sent, c.Valid) :
    ∃ w more, p.Carries w ∧ out ++ more = w.wire ∧ (¬ b.IsComplete → more ≠ []) := by
  by_cases hcomplete : b.IsComplete
  · obtain ⟨w, -, hcarries, hout⟩ := h.whole hsent hcomplete
    exact ⟨w, [], hcarries, by rw [List.append_nil, hout], fun hnot =>
      absurd hcomplete hnot⟩
  · cases b with
    | fixed f =>
      obtain ⟨hframing, -, hwritten, hle⟩ := h
      have hless : f.written < f.length := Nat.lt_of_le_of_ne hle hcomplete
      refine ⟨.plain (out ++ List.replicate (f.length - f.written) 0),
        List.replicate (f.length - f.written) 0, .inr ?_, rfl, fun _ hnil => ?_⟩
      · rw [List.length_append, List.length_replicate, ← hwritten,
          Nat.add_sub_cancel' hle]
        exact hframing
      · rw [List.replicate_eq_nil_iff] at hnil
        omega
    | chunked c =>
      obtain ⟨hframing, -, L, hkeeps⟩ := h
      obtain ⟨last, more, hended, hlast, hmore, hwire⟩ := hkeeps.unended hcomplete
      refine ⟨.chunked (L.chunks ++ last), more, ⟨hframing, hended, ?_⟩, hwire,
        fun _ => hmore⟩
      intro x hx
      rcases List.mem_append.mp hx with hx | hx
      · exact hkeeps.valid hsent x hx
      · exact hlast x hx
    | empty => exact absurd trivial hcomplete

end Payload

/-! ## Encoders -/

namespace Phase

variable {σ : Type}

/-- How the bytes that were emitted fit where the encoder stands. -/
def Holds (phase : Phase) (sent : List Chunk) (p : Plan) (maxChunk : Nat)
    (s : Supply (Recorded σ)) (emitted : Bytes) : Prop :=
  match phase with
  | .head h =>
    emitted ++ h.rest = p.headWire ∧ h.rest ≠ []
      ∧ (Payload.start p.framing maxChunk).Holds sent p maxChunk s []
  | .body b =>
    ∃ out, emitted = p.headWire ++ out ∧ b.Holds sent p maxChunk s out ∧ ¬ b.IsComplete
  | .done =>
    ∃ (b : Payload) (out : Bytes),
      emitted = p.headWire ++ out ∧ b.Holds sent p maxChunk s out ∧ b.IsComplete
  | .failed =>
    ∃ (b : Payload) (out : Bytes),
      emitted = p.headWire ++ out ∧ b.Holds sent p maxChunk s out ∧ ¬ b.IsComplete

variable {phase : Phase} {sent : List Chunk} {p : Plan} {maxChunk : Nat}
  {s s' : Supply (Recorded σ)} {emitted : Bytes}

theorem Holds.extend {more : List Chunk} (h : phase.Holds sent p maxChunk s emitted)
    (hs : s.Extends s' more) : phase.Holds (sent ++ more) p maxChunk s' emitted := by
  cases phase with
  | head head => exact ⟨h.1, h.2.1, h.2.2.extend hs⟩
  | body b =>
    obtain ⟨out, hemitted, hb, hnot⟩ := h
    exact ⟨out, hemitted, hb.extend hs, hnot⟩
  | done =>
    obtain ⟨b, out, hemitted, hb, hcomplete⟩ := h
    exact ⟨b, out, hemitted, hb.extend hs, hcomplete⟩
  | failed =>
    obtain ⟨b, out, hemitted, hb, hnot⟩ := h
    exact ⟨b, out, hemitted, hb.extend hs, hnot⟩

/-- As long as an encoder is not done, the message lacks bytes to be a whole
one. -/
theorem Holds.part (h : phase.Holds sent p maxChunk s emitted)
    (hsent : ∀ c ∈ sent, c.Valid) (hnot : phase ≠ .done) :
    ∃ w more, p.Carries w ∧ emitted ++ more = p.headWire ++ w.wire ∧ more ≠ [] := by
  have hbody : ∀ {b : Payload} {out : Bytes}, emitted = p.headWire ++ out →
      b.Holds sent p maxChunk s out → ¬ b.IsComplete →
      ∃ w more, p.Carries w ∧ emitted ++ more = p.headWire ++ w.wire ∧ more ≠ [] := by
    intro b out hemitted hb hincomplete
    obtain ⟨w, more, hcarries, hwire, hmore⟩ := hb.part hsent
    refine ⟨w, more, hcarries, ?_, hmore hincomplete⟩
    rw [hemitted, List.append_assoc, hwire]
  cases phase with
  | head head =>
    obtain ⟨hemitted, hrest, hstart⟩ := h
    obtain ⟨w, more, hcarries, hwire, -⟩ := hstart.part hsent
    refine ⟨w, head.rest ++ w.wire,
      hcarries, by rw [← List.append_assoc, hemitted], ?_⟩
    exact fun hnil => hrest (List.append_eq_nil_iff.mp hnil).1
  | body b =>
    obtain ⟨out, hemitted, hb, hincomplete⟩ := h
    exact hbody hemitted hb hincomplete
  | done => exact absurd rfl hnot
  | failed =>
    obtain ⟨b, out, hemitted, hb, hincomplete⟩ := h
    exact hbody hemitted hb hincomplete

end Phase

namespace Encoder

variable {σ : Type} [Source σ] {sent : List Chunk} {s : Supply (Recorded σ)}
  {emitted : Bytes}

/-- What writing comes to for an encoder: bytes that fit were
appended, the encoder is still one of the same message, and it is done
exactly if the call says so. -/
def Advances (e : Encoder) (sent : List Chunk) (emitted : Bytes) (dst : Buffer)
    (w : Written Encoder (Recorded σ)) : Prop :=
  ∃ more, w.dst = dst.append more ∧ more.length ≤ dst.room
    ∧ w.state.plan = e.plan ∧ w.state.limits = e.limits
    ∧ w.state.phase.Holds sent e.plan e.limits.maxChunk w.supply (emitted ++ more)
    ∧ (w.result = .ok .done ↔ w.state.phase = .done)

theorem writeBody_advances (e : Encoder) {b : Payload} {out : Bytes} (dst : Buffer)
    (hemitted : emitted = e.plan.headWire ++ out)
    (h : b.Holds sent e.plan e.limits.maxChunk s out) :
    e.Advances sent emitted dst (e.writeBody b s dst) := by
  obtain ⟨more, hdst, hfit, hholds, hdone⟩ := h.write dst
  have hout : emitted ++ more = e.plan.headWire ++ (out ++ more) := by
    rw [hemitted, List.append_assoc]
  refine ⟨more, hdst, hfit, rfl, rfl, ?_, ?_⟩
  · simp only [writeBody]
    cases hresult : (b.write s dst).result with
    | error failure =>
      refine ⟨_, _, hout, hholds, fun hcomplete => ?_⟩
      rw [hdone.mpr hcomplete] at hresult
      cases hresult
    | ok progress =>
      cases progress with
      | done => exact ⟨_, _, hout, hholds, hdone.mp hresult⟩
      | inProgress =>
        refine ⟨_, hout, hholds, fun hcomplete => ?_⟩
        rw [hdone.mpr hcomplete] at hresult
        cases hresult
  · simp only [writeBody]
    cases hresult : (b.write s dst).result with
    | error failure => simp
    | ok progress => cases progress <;> simp

theorem write_advances (e : Encoder) (dst : Buffer)
    (h : e.phase.Holds sent e.plan e.limits.maxChunk s emitted) :
    e.Advances sent emitted dst (e.write s dst) := by
  unfold write
  cases hphase : e.phase with
  | head head =>
    rw [hphase] at h
    obtain ⟨hemitted, hrest, hstart⟩ := h
    obtain ⟨hdst, hdone, hleft⟩ := head.write_spec dst
    simp only
    rcases hwrite : head.write dst with ⟨head', dst'⟩
    rw [hwrite] at hdst hdone hleft
    simp only at hdst hdone hleft ⊢
    by_cases hfit : head.rest.length ≤ dst.room
    · -- the head is complete: what fits of the body comes behind
      -- it in the same buffer
      rw [decide_eq_true hfit] at hdone
      rw [List.take_of_length_le hfit] at hdst
      subst hdst
      rw [if_pos hdone]
      obtain ⟨more, hmore, hroom, hplan, hlimits, hholds, hend⟩ :=
        writeBody_advances e (dst.append head.rest) (by rw [List.append_nil]) hstart
      rw [Buffer.append_append] at hmore
      rw [Buffer.room_append] at hroom
      refine ⟨head.rest ++ more, hmore, ?_, hplan, hlimits, ?_, hend⟩
      · rw [List.length_append]
        omega
      · rw [← List.append_assoc, hemitted]
        exact hholds
    · rw [decide_eq_false hfit] at hdone
      rw [if_neg (by rw [hdone]; exact Bool.false_ne_true)]
      refine ⟨head.rest.take dst.room, hdst, ?_, rfl, rfl, ⟨?_, ?_, hstart⟩, by simp⟩
      · rw [List.length_take]
        exact Nat.min_le_left _ _
      · rw [hleft hdone, List.append_assoc, List.take_append_drop, hemitted]
      · rw [hleft hdone]
        intro hnil
        exact hfit (List.drop_eq_nil_iff.mp hnil)
  | body b =>
    rw [hphase] at h
    obtain ⟨out, hemitted, hb, -⟩ := h
    exact writeBody_advances e dst hemitted hb
  | done =>
    refine ⟨[], (dst.append_nil).symm, Nat.zero_le _, rfl, rfl, ?_, by simp [hphase]⟩
    rw [List.append_nil]
    exact h
  | failed =>
    refine ⟨[], (dst.append_nil).symm, Nat.zero_le _, rfl, rfl, ?_, by simp [hphase]⟩
    rw [List.append_nil]
    exact h

theorem error_of_writeBody {e : Encoder} {b : Payload} {s : Supply σ} {dst : Buffer}
    (h : (e.writeBody b s dst).state.phase = .failed) :
    ∃ failure, (b.write s dst).result = .error failure := by
  simp only [writeBody] at h
  rcases hresult : (b.write s dst).result with failure | _ | _
  · exact ⟨failure, rfl⟩
  all_goals
    rw [hresult] at h
    cases h

/-- A call that leaves a failed encoder behind has returned a failure. -/
theorem error_of_write {e : Encoder} {s : Supply σ} {dst : Buffer}
    (h : (e.write s dst).state.phase = .failed) :
    ∃ failure, (e.write s dst).result = .error failure := by
  unfold write at h ⊢
  cases hphase : e.phase with
  | head head =>
    simp only [hphase] at h ⊢
    split at h
    · next hdone =>
      rw [if_pos hdone]
      exact error_of_writeBody h
    · cases h
  | body b =>
    rw [hphase] at h
    exact error_of_writeBody h
  | done =>
    simp only [hphase] at h
    cases h
  | failed => exact ⟨_, rfl⟩

theorem extends_poll (e : Encoder) (s : Supply (Recorded σ)) :
    s.Extends (e.poll s).2 [] := by
  cases hphase : e.phase with
  | body b =>
    rw [(poll_of_body hphase s).1]
    exact b.extends_poll s
  | head _ | done | failed =>
    rw [poll, hphase]
    exact .refl s

end Encoder

/-! ## Runs -/

namespace Run

variable {σ : Type}

/-- A run is in order: its encoder has this plan and these limits, what it emitted
is what its phase says, the chunks that were sent can be written, and some call
has said that the message is written exactly if it is. -/
structure Follows (p : Plan) (l : Limits) (r : Run (Recorded σ)) : Prop where
  plan : r.encoder.plan = p
  limits : r.encoder.limits = l
  holds : r.encoder.phase.Holds r.sent p l.maxChunk r.supply r.emitted
  valid : ∀ c ∈ r.sent, c.Valid
  done : r.IsDone ↔ r.encoder.phase = .done

theorem follows_start {p : Plan} {limits : Limits} {s : Supply σ}
    (hqueue : ∀ q, s.queue = some q → q.Reachable) :
    Follows p limits (start p limits s.recorded) where
  plan := rfl
  limits := rfl
  holds := by
    have hhanded : s.recorded.handed = [] := by
      obtain ⟨body, queue⟩ := s
      cases body <;> rfl
    refine ⟨HeadState.rest_start p, ?_,
      Payload.holds_start hhanded (fun q hq => (hqueue q hq).sound)⟩
    rw [HeadState.rest_start, Plan.flatten_headLines]
    simp [Bytes.crlf]
  valid := by
    intro c hc
    obtain ⟨body, queue⟩ := s
    cases queue with
    | none => cases hc
    | some q => exact (hqueue q rfl).valid c hc
  done := by simp [IsDone, start, Encoder.start]

variable [Source σ] {p : Plan} {limits : Limits} {r : Run (Recorded σ)}

/-- Only a writing call changes the encoder and what it has emitted. Any other
move extends the supply by what a producer put into the queue. -/
theorem step_cases (r : Run (Recorded σ)) (move : Move σ) :
    (∃ dst, move = .write dst)
      ∨ ∃ s' more, r.supply.Extends s' more ∧ (∀ c ∈ more, c.Valid)
        ∧ r.step move.recorded = { r with supply := s', sent := r.sent ++ more } := by
  obtain ⟨e, s, emitted, sent, results⟩ := r
  cases move with
  | write dst => exact .inl ⟨dst, rfl⟩
  | poll => exact .inr ⟨_, [], e.extends_poll s, by simp, by rw [List.append_nil]; rfl⟩
  | feed f =>
    refine .inr
      ⟨{ s with body := s.body.map (fun x => { x with source := f x.source }) }, [],
      ?_, by simp, by rw [List.append_nil]; rfl⟩
    refine Supply.extends_body (by simp) ?_
    intro x x' hx hx'
    rw [hx, Option.map_some] at hx'
    cases hx'
    exact ⟨rfl, rfl⟩
  | produce act =>
    obtain ⟨body, queue⟩ := s
    cases queue with
    | none => exact .inr ⟨_, [], .refl _, by simp, by rw [List.append_nil]; rfl⟩
    | some q =>
      exact .inr ⟨_, _, Supply.extends_queue (q.toList_produce act)
        (fun hsound => hsound.produce act) (fun hshut => hshut.produce act),
        fun c => ChunkQueue.valid_of_mem_produce, rfl⟩

theorem Follows.step (h : r.Follows p limits) (move : Move σ) :
    (r.step move.recorded).Follows p limits := by
  obtain ⟨hplan, hlimits, hholds, hvalid, hdone⟩ := h
  subst hplan hlimits
  rcases r.step_cases move with ⟨dst, rfl⟩ | ⟨s', more, hs, hmore, hstep⟩
  · obtain ⟨more, hdst, -, hplan, hlimits, hholds', hend⟩ :=
      r.encoder.write_advances dst hholds
    have hout : (r.encoder.write r.supply dst).dst.bytes.drop dst.length = more := by
      rw [hdst, Buffer.drop_append]
    refine ⟨hplan, hlimits, ?_, hvalid, ?_⟩
    · simp only [Run.step, Move.recorded, hout]
      exact hholds'
    · simp only [Run.step, Move.recorded, IsDone, List.mem_append, List.mem_singleton]
      rw [← hend]
      constructor
      · rintro (hbefore | hnow)
        · -- a done encoder goes on saying so
          have hphase := hdone.mp hbefore
          rw [Encoder.write, hphase]
        · exact hnow.symm
      · exact fun hnow => .inr hnow.symm
  · rw [hstep]
    refine ⟨rfl, rfl, hholds.extend hs, ?_, hdone⟩
    intro c hc
    rcases List.mem_append.mp hc with hc | hc
    · exact hvalid c hc
    · exact hmore c hc

theorem Follows.after (h : r.Follows p limits) (moves : List (Move σ)) :
    (r.after (moves.map Move.recorded)).Follows p limits := by
  induction moves generalizing r with
  | nil => exact h
  | cons move moves ih => exact ih (h.step move)

end Run

end HttpWire
