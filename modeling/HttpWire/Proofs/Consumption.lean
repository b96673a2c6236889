import HttpWire.Proofs.Consulting
import HttpWire.Proofs.Shape
import HttpWire.Source.Memory

/-!
# What is taken from a source

A source outlives the encoder that reads from it, so what was taken has to be
known at any moment. It is what was emitted of the body, and nothing else, with
one exception: the chunk that is in flight has been taken whole, and a part of its
data may not be emitted yet (`Run.Accounts`). Of a body of a declared length
nothing is ever taken ahead.

For a chunked body the data among the emitted frames is counted by
`Chunk.dataWithin`, and the ledger says which frames these are
(`ChunkedBody.Keeps.accounts`). The ledger does not say that nothing is in
flight once an encoder has failed, since by then the body is gone. This is
kept along the run (`Run.Settled`): a read is made only when no chunk is in
flight, and only reads fail.

A source is used only while that makes sense (`Run.Permits`): behind the head of
a message with a body, before that is done, and never again after an end or an
error was reported. Which reads one call makes was told before
(`Encoder.write_asks`); what is added here is that a source that is over was
recorded once and is left alone from then on.
-/

namespace HttpWire

variable {σ : Type}

/-! ## The data among frames -/

namespace Chunk

/-- The data of some chunks that lies within the first `n` bytes of
their written form. -/
def dataWithin : List Chunk → Nat → Bytes
  | [], _ => []
  | c :: cs, n =>
    c.data.take (n - c.sizeLine.length) ++ dataWithin cs (n - c.wire.length)

theorem length_sizeLine_add_data_le (c : Chunk) :
    c.sizeLine.length + c.data.length ≤ c.wire.length := by
  unfold wire pieces
  by_cases hlast : c.isLast = true
  · have hdata : c.data = [] := List.isEmpty_iff.mp hlast
    rw [if_pos hlast, hdata]
    simp
  · rw [if_neg hlast]
    simp

theorem dataWithin_append (cs ds : List Chunk) (n : Nat) :
    dataWithin (cs ++ ds) n
      = dataWithin cs n ++ dataWithin ds (n - (cs.flatMap wire).length) := by
  induction cs generalizing n with
  | nil => rfl
  | cons c cs ih =>
    simp only [List.cons_append, dataWithin, ih, List.flatMap_cons, List.length_append,
      List.append_assoc, Nat.sub_sub]

theorem dataWithin_of_le {cs : List Chunk} {n : Nat}
    (h : (cs.flatMap wire).length ≤ n) :
    dataWithin cs n = cs.flatMap data := by
  induction cs generalizing n with
  | nil => rfl
  | cons c cs ih =>
    rw [List.flatMap_cons, List.length_append] at h
    have hdata := c.length_sizeLine_add_data_le
    rw [dataWithin, List.flatMap_cons, ih (by omega),
      List.take_of_length_le (by omega)]

theorem flatMap_data_ofData (frames : List Bytes) :
    (frames.map ofData).flatMap data = frames.flatten := by
  rw [List.flatMap_map, List.flatMap_def]
  exact congrArg List.flatten (List.map_id frames)

end Chunk

/-- The data of a chunk in flight that is still to be written. -/
def InFlight.unsent (f : InFlight) : Bytes :=
  f.chunk.data.drop (f.cursor.offset - f.chunk.sizeLine.length)

namespace ChunkedBody

variable {sent : List Chunk} {c : ChunkedBody} {s : Supply (Recorded σ)} {L : Ledger}
  {emitted : Bytes}

/-- What was handed out is the data among the emitted frames and what the chunk in
flight has left, if it was cut from the source. -/
theorem Keeps.accounts (h : Keeps sent c s L emitted) :
    ∃ unsent,
      s.handed = Chunk.dataWithin (L.frames.map Chunk.ofData) emitted.length ++ unsent
      ∧ (unsent ≠ [] →
        ∃ f, c.inFlight = some f ∧ f.chunk.data.length ≤ c.maxChunk
          ∧ unsent = f.unsent) := by
  rw [h.handed]
  have hwhole :
      ((L.frames.map Chunk.ofData).flatMap Chunk.wire).length ≤ emitted.length →
      ∃ unsent, L.frames.flatten
        = Chunk.dataWithin (L.frames.map Chunk.ofData) emitted.length ++ unsent
        ∧ (unsent ≠ [] →
          ∃ f, c.inFlight = some f ∧ f.chunk.data.length ≤ c.maxChunk
              ∧ unsent = f.unsent) := by
    intro hle
    refine ⟨[], ?_, fun hne => absurd rfl hne⟩
    rw [Chunk.dataWithin_of_le hle, Chunk.flatMap_data_ofData, List.append_nil]
  cases hflight : c.inFlight with
  | none =>
    rw [hflight] at hwhole
    refine hwhole ?_
    rw [h.wire_of_idle hflight, Ledger.chunks, List.flatMap_append, List.length_append]
    exact Nat.le_add_right _ _
  | some f =>
    obtain ⟨-, hrest, before, hbefore, -⟩ := h.of_inFlight hflight
    have hlength :
        emitted.length = (before.flatMap Chunk.wire).length + f.cursor.offset := by
      have hwire := congrArg List.length h.wire
      have hpos := List.length_pos_iff.mpr hrest
      rw [rest, hflight, hbefore, List.flatMap_append, List.flatMap_singleton,
        List.length_append, List.length_append] at hwire
      simp only [InFlight.rest, List.length_drop] at hwire hpos
      omega
    rcases List.eq_nil_or_concat
      (L.taken ++ if L.closed then [Chunk.last] else []) with hnil | ⟨t, x, hlast⟩
    · -- the chunk in flight is the last of those that were cut
      have hframes : L.frames.map Chunk.ofData = before ++ [f.chunk] := by
        rw [← hbefore, Ledger.chunks, hnil, List.append_nil]
      have hmem : f.chunk ∈ L.frames.map Chunk.ofData := by simp [hframes]
      obtain ⟨d, hd, hchunk⟩ := List.mem_map.mp hmem
      refine ⟨f.unsent, ?_, fun _ => ⟨f, rfl, ?_, rfl⟩⟩
      · rw [← Chunk.flatMap_data_ofData, hframes, Chunk.dataWithin_append,
          Chunk.dataWithin_of_le (by omega), hlength, Nat.add_sub_cancel_left,
          List.flatMap_append, List.flatMap_singleton, List.append_assoc]
        simp only [Chunk.dataWithin, List.append_nil, InFlight.unsent,
          List.take_append_drop]
      · rw [← hchunk]
        exact (h.frames d hd).2
    · -- the chunk in flight comes from elsewhere, and those that
      -- were cut are before it
      rw [List.concat_eq_append] at hlast
      have hcut : before = L.frames.map Chunk.ofData ++ t := by
        rw [Ledger.chunks, hlast, ← List.append_assoc] at hbefore
        exact (List.append_inj' hbefore rfl).1.symm
      rw [hflight] at hwhole
      refine hwhole ?_
      rw [hlength, hcut, List.flatMap_append, List.length_append]
      omega

end ChunkedBody

/-! ## What a run keeps -/

/-- The chunk of a body that is begun and not yet sent whole. -/
def Payload.inFlight : Payload → Option InFlight
  | .chunked c => c.inFlight
  | .fixed _ | .empty => none

/-- The chunk that is being written. -/
def Encoder.inFlight (e : Encoder) : Option InFlight :=
  match e.phase with
  | .body b => b.inFlight
  | .head _ | .done | .failed => none

namespace Payload

variable {b : Payload} {sent : List Chunk} {p : Plan} {maxChunk : Nat}
  {s : Supply (Recorded σ)} {out : Bytes}

theorem Holds.idle_of_complete (h : b.Holds sent p maxChunk s out)
    (hcomplete : b.IsComplete) :
    b.inFlight = none := by
  cases b with
  | chunked c =>
    obtain ⟨-, -, L, hkeeps⟩ := h
    cases hflight : c.inFlight with
    | none => exact hflight
    | some f => exact absurd hcomplete (hkeeps.of_inFlight hflight).1
  | fixed f | empty => rfl

theorem Holds.idle_of_backlog (h : b.Holds sent p maxChunk s out)
    (hnot : ¬ b.IsComplete) (hbacklog : b.backlog = []) : b.inFlight = none := by
  cases b with
  | chunked c =>
    obtain ⟨-, -, L, hkeeps⟩ := h
    cases hflight : c.inFlight with
    | none => exact hflight
    | some f =>
      have hopen : ¬ c.isDone = true := fun hdone => hnot (beq_iff_eq.mp hdone)
      rw [backlog, if_neg hopen, ChunkedBody.rest, hflight] at hbacklog
      exact absurd hbacklog (hkeeps.of_inFlight hflight).2.1
  | fixed f | empty => rfl

end Payload

/-- What was emitted of a body that has failed, and that nothing of
it is in flight. -/
def Payload.Drops (p : Plan) (maxChunk : Nat) (sent : List Chunk)
    (s : Supply (Recorded σ)) (emitted : Bytes) : Prop :=
  ∃ (b : Payload) (out : Bytes),
    emitted = p.headWire ++ out ∧ b.Holds sent p maxChunk s out
    ∧ ¬ b.IsComplete ∧ b.backlog = []

theorem Encoder.drops_of_writeBody [Source σ] {e : Encoder} {b : Payload}
    {sent : List Chunk} {s : Supply (Recorded σ)} {emitted out : Bytes}
    {dst : Buffer} (hemitted : emitted = e.plan.headWire ++ out)
    (h : b.Holds sent e.plan e.limits.maxChunk s out)
    (hfailed : (e.writeBody b s dst).state.phase = .failed) :
    ∃ more, (e.writeBody b s dst).dst = dst.append more
      ∧ Payload.Drops e.plan e.limits.maxChunk sent (e.writeBody b s dst).supply
        (emitted ++ more) := by
  obtain ⟨more, hdst, -, hholds, hdone⟩ := h.write dst
  obtain ⟨-, -, -, -, -, -, hsettled⟩ := b.write_makes s dst
  obtain ⟨failure, hresult⟩ := error_of_writeBody hfailed
  refine ⟨more, hdst, _, _, by rw [hemitted, List.append_assoc], hholds,
    fun hcomplete => ?_, hsettled (by simp [hresult])⟩
  rw [hdone.mpr hcomplete] at hresult
  cases hresult

/-- A call that fails leaves a body with nothing in flight. -/
theorem Encoder.drops_of_write [Source σ] {e : Encoder} {sent : List Chunk}
    {s : Supply (Recorded σ)} {emitted : Bytes} {dst : Buffer}
    (h : e.phase.Holds sent e.plan e.limits.maxChunk s emitted)
    (hbefore : e.phase = .failed →
      Payload.Drops e.plan e.limits.maxChunk sent s emitted)
    (hfailed : (e.write s dst).state.phase = .failed) :
    ∃ more, (e.write s dst).dst = dst.append more
      ∧ Payload.Drops e.plan e.limits.maxChunk sent (e.write s dst).supply
        (emitted ++ more) := by
  unfold write at hfailed ⊢
  cases hphase : e.phase with
  | head head =>
    rw [hphase] at h
    obtain ⟨hemitted, -, hstart⟩ := h
    obtain ⟨hdst, hdone, -⟩ := head.write_spec dst
    simp only [hphase, hdst] at hfailed ⊢
    split at hfailed
    · next hall =>
      rw [if_pos hall]
      rw [hdone, decide_eq_true_eq] at hall
      rw [List.take_of_length_le hall] at hfailed ⊢
      have hhead : emitted ++ head.rest = e.plan.headWire ++ [] := by
        rw [hemitted, List.append_nil]
      obtain ⟨more, hmore, hdrops⟩ := drops_of_writeBody hhead hstart hfailed
      rw [Buffer.append_append] at hmore
      rw [List.append_assoc] at hdrops
      exact ⟨head.rest ++ more, hmore, hdrops⟩
    · cases hfailed
  | body b =>
    rw [hphase] at h hfailed
    obtain ⟨out, hemitted, hb, -⟩ := h
    exact drops_of_writeBody hemitted hb hfailed
  | done =>
    simp only [hphase] at hfailed
    cases hfailed
  | failed => exact ⟨[], dst.append_nil.symm, by simpa using hbefore hphase⟩

namespace Run

/-- What a run keeps of its source: an encoder that has failed had nothing in
flight, and one whose source has reported its end or an error reads no more. -/
structure Settled (p : Plan) (limits : Limits) (r : Run (Recorded σ)) : Prop where
  follows : r.Follows p limits
  failed : r.encoder.phase = .failed →
    Payload.Drops p limits.maxChunk r.sent r.supply r.emitted
  exhausted : r.supply.events.any SourceEvent.isOver = true →
    r.encoder.payload.reads = false

theorem settled_start {p : Plan} {limits : Limits} {s : Supply σ}
    (hqueue : ∀ q, s.queue = some q → q.Reachable) :
    Settled p limits (start p limits s.recorded) where
  follows := follows_start hqueue
  failed hfailed := by cases hfailed
  exhausted hover := by
    obtain ⟨body, queue⟩ := s
    cases body <;> cases hover

variable {p : Plan} {limits : Limits} {r : Run (Recorded σ)}

section Moves

variable [Source σ]

theorem Settled.failed_step (h : r.Settled p limits) (move : Move σ)
    (hfailed : (r.step move.recorded).encoder.phase = .failed) :
    Payload.Drops p limits.maxChunk (r.step move.recorded).sent
      (r.step move.recorded).supply
      (r.step move.recorded).emitted := by
  obtain ⟨⟨hplan, hlimits, hholds, -, -⟩, hbefore, -⟩ := h
  subst hplan hlimits
  rcases r.step_cases move with ⟨dst, rfl⟩ | ⟨s', more, hs, -, hstep⟩
  · obtain ⟨more, hdst, hdrops⟩ := Encoder.drops_of_write hholds hbefore hfailed
    have hout : (r.encoder.write r.supply dst).dst.bytes.drop dst.length = more := by
      rw [hdst, Buffer.drop_append]
    simp only [Run.step, Move.recorded, hout]
    exact hdrops
  · rw [hstep] at hfailed ⊢
    obtain ⟨b, out, hemitted, hb, hrest⟩ := hbefore hfailed
    exact ⟨b, out, hemitted, hb.extend hs, hrest⟩

theorem Settled.exhausted_step (h : r.Settled p limits) (move : Move σ)
    (hover : (r.step move.recorded).supply.events.any SourceEvent.isOver = true) :
    (r.step move.recorded).encoder.payload.reads = false := by
  cases move with
  | write dst =>
    obtain ⟨⟨events, out, hevents, -, -, hends⟩, -, -⟩ :=
      r.encoder.write_asks r.supply dst
    have hmore : (r.step (Move.recorded (.write dst))).supply.events
        = r.supply.events ++ events := hevents
    rw [hmore, List.any_append, Bool.or_eq_true] at hover
    rcases hover with hbefore | hnow
    · have hnot := h.exhausted hbefore
      rw [Bool.eq_false_iff] at hnot ⊢
      exact fun hreads => hnot (Encoder.reads_of_write hreads)
    · exact hends hnow
  | poll =>
    refine h.exhausted ?_
    rcases r.encoder.poll_asks r.supply with hsame | ⟨-, readiness, -, -, hmore⟩
    · rw [← hsame]
      exact hover
    · have hevents : (r.step (Move.recorded .poll)).supply.events
          = r.supply.events ++ [.poll readiness] := hmore
      rw [hevents, List.any_append] at hover
      simpa [SourceEvent.isOver] using hover
  | feed f =>
    refine h.exhausted ?_
    obtain ⟨e, ⟨body, queue⟩, emitted, sent, results⟩ := r
    cases body <;> exact hover
  | produce act =>
    obtain ⟨e, ⟨body, queue⟩, emitted, sent, results⟩ := r
    cases queue <;> exact h.exhausted hover

theorem Settled.step (h : r.Settled p limits) (move : Move σ) :
    (r.step move.recorded).Settled p limits :=
  ⟨h.follows.step move, h.failed_step move, h.exhausted_step move⟩

theorem Settled.after (h : r.Settled p limits) (moves : List (Move σ)) :
    (r.after (moves.map Move.recorded)).Settled p limits := by
  induction moves generalizing r with
  | nil => exact h
  | cons move moves ih => exact ih (h.step move)

end Moves

/-! ## The bytes that were taken -/

/-- Where the bytes are that a run has taken from its source. -/
def Accounts (p : Plan) (maxChunk : Nat) (r : Run (Recorded σ)) : Prop :=
  match p.framing with
  | .empty => r.supply.handed = [] ∧ r.encoder.inFlight = none
  | .length _ =>
    r.supply.handed = r.emitted.drop p.headWire.length ∧ r.encoder.inFlight = none
  | .chunked =>
    ∃ (S : ChunkedStream) (unsent : Bytes), S.Describes maxChunk r.supply r.sent
      ∧ r.emitted <+: p.headWire ++ S.chunks.flatMap Chunk.wire
      ∧ r.supply.handed
        = Chunk.dataWithin (S.cut.map Chunk.ofData)
          (r.emitted.length - p.headWire.length) ++ unsent
      ∧ (unsent ≠ [] →
        ∃ f, r.encoder.inFlight = some f ∧ f.chunk.data.length ≤ maxChunk
          ∧ unsent = f.unsent)

/-- Whatever the phase, a run is that of a body, and the chunk in flight
is the one of that body. -/
theorem Settled.body (h : r.Settled p limits) :
    ∃ (b : Payload) (out : Bytes), b.Holds r.sent p limits.maxChunk r.supply out
      ∧ r.encoder.inFlight = b.inFlight
      ∧ r.emitted <+: p.headWire ++ out ∧ r.emitted.drop p.headWire.length = out := by
  have hholds := h.follows.holds
  have hbehind : ∀ {out : Bytes}, r.emitted = p.headWire ++ out →
      r.emitted <+: p.headWire ++ out ∧ r.emitted.drop p.headWire.length = out := by
    intro out hemitted
    rw [hemitted, List.drop_left]
    exact ⟨List.prefix_rfl, rfl⟩
  unfold Encoder.inFlight
  cases hphase : r.encoder.phase with
  | head head =>
    rw [hphase] at hholds
    obtain ⟨hemitted, -, hstart⟩ := hholds
    refine ⟨_, [], hstart, ?_, ⟨head.rest, by rw [hemitted, List.append_nil]⟩, ?_⟩
    · cases p.framing <;> rfl
    · rw [← hemitted]
      exact List.drop_of_length_le (by simp)
  | body b =>
    rw [hphase] at hholds
    obtain ⟨out, hemitted, hb, -⟩ := hholds
    exact ⟨b, out, hb, rfl, hbehind hemitted⟩
  | done =>
    rw [hphase] at hholds
    obtain ⟨b, out, hemitted, hb, hcomplete⟩ := hholds
    exact ⟨b, out, hb, (hb.idle_of_complete hcomplete).symm, hbehind hemitted⟩
  | failed =>
    obtain ⟨b, out, hemitted, hb, hnot, hbacklog⟩ := h.failed hphase
    exact ⟨b, out, hb, (hb.idle_of_backlog hnot hbacklog).symm, hbehind hemitted⟩

theorem Settled.accounts (h : r.Settled p limits) : r.Accounts p limits.maxChunk := by
  obtain ⟨b, out, hb, hflight, hemitted, hout⟩ := h.body
  have hlength : r.emitted.length - p.headWire.length = out.length := by
    rw [← hout, List.length_drop]
  cases b with
  | fixed f =>
    obtain ⟨hframing, hhanded, -⟩ := hb
    rw [Accounts, hframing, hhanded, hout]
    exact ⟨rfl, hflight⟩
  | chunked c =>
    obtain ⟨hframing, hmax, L, hkeeps⟩ := hb
    obtain ⟨S, hcut, hchunks, hS⟩ := hkeeps.stream_cut
    obtain ⟨unsent, hhanded, hunsent⟩ := hkeeps.accounts
    rw [Accounts, hframing]
    refine ⟨S, unsent, hmax ▸ hS, ?_, ?_, fun hne => ?_⟩
    · rw [hchunks]
      exact hemitted.trans
        ((List.prefix_append_right_inj _).mpr hkeeps.frames_written.1)
    · rw [hcut, hlength, hhanded]
    · rw [hflight, ← hmax]
      exact hunsent hne
  | empty =>
    obtain ⟨hframing, hhanded, -⟩ := hb
    rw [Accounts, hframing]
    exact ⟨hhanded, hflight⟩

/-! ## When a source is used -/

/-- A source may be used when so much is written behind what was emitted: the head
is complete, the message has a body and is not done, and the source has reported
neither its end nor an error. -/
structure Permits (p : Plan) (r : Run (Recorded σ)) (written : Bytes) : Prop where
  head : p.headWire <+: r.emitted ++ written
  hasBody : p.framing ≠ .empty
  unfinished : ¬ r.IsDone
  notOver : ∀ event ∈ r.supply.events, event.isOver = false

theorem Settled.permits (h : r.Settled p limits)
    (hreads : r.encoder.payload.reads = true) {written : Bytes}
    (hwritten : ∀ head, r.encoder.phase = .head head → head.rest <+: written) :
    r.Permits p written := by
  obtain ⟨⟨hplan, hlimits, hholds, -, hdone⟩, -, hover⟩ := h
  subst hplan hlimits
  have hnotOver : ∀ event ∈ r.supply.events, event.isOver = false := by
    intro event hmem
    rw [Bool.eq_false_iff]
    intro hend
    rw [hover (List.any_eq_true.mpr ⟨event, hmem, hend⟩)] at hreads
    cases hreads
  unfold Encoder.payload at hreads
  cases hphase : r.encoder.phase with
  | head head =>
    obtain ⟨more, rfl⟩ := hwritten head hphase
    rw [hphase] at hholds hreads
    refine ⟨⟨more, ?_⟩, fun hempty => ?_, by simp [hdone, hphase], hnotOver⟩
    · rw [← hholds.1, List.append_assoc]
    · simp only [hempty] at hreads
      cases hreads
  | body b =>
    rw [hphase] at hholds hreads
    obtain ⟨out, hemitted, hb, -⟩ := hholds
    refine ⟨⟨out ++ written, ?_⟩, fun hempty => ?_, by simp [hdone, hphase], hnotOver⟩
    · rw [hemitted, List.append_assoc]
    · cases b with
      | fixed f | chunked c => cases hempty.symm.trans hb.1
      | empty => cases hreads
  | done | failed =>
    rw [hphase] at hreads
    cases hreads

/-- Slices that are lent are not empty, since chunks can carry data. -/
theorem Follows.lends_pos (h : r.Follows p limits) {room offered : Nat}
    (hlends : r.encoder.payload.Lends room offered) : 0 < offered := by
  obtain ⟨hplan, hlimits, hholds, -, -⟩ := h
  subst hplan hlimits
  have hpos : ∀ {b : Payload} {out : Bytes},
      b.Holds r.sent r.encoder.plan r.encoder.limits.maxChunk r.supply out →
      b.Lends room offered → 0 < offered := by
    intro b out hb hlends
    cases b with
    | fixed f => exact hlends.1
    | chunked c =>
      rw [hlends.2]
      exact Cut.lent_pos (hb.2.1 ▸ r.encoder.limits.maxChunk_pos) room
    | empty => exact hlends.elim
  unfold Encoder.payload at hlends
  cases hphase : r.encoder.phase with
  | head head =>
    rw [hphase] at hholds hlends
    exact hpos hholds.2.2 hlends
  | body b =>
    rw [hphase] at hholds hlends
    obtain ⟨out, -, hb, -⟩ := hholds
    exact hpos hb hlends
  | done | failed =>
    rw [hphase] at hlends
    exact hlends.elim

variable [Source σ]

/-- How a source is used by the next call, whichever that is. A writing call
reads, always into a slice and with room left behind what it has written until
then; a poll asks once, or not at all. -/
structure Disciplined (p : Plan) (r : Run (Recorded σ)) : Prop where
  write : ∀ dst, ∃ events out,
    (r.encoder.write r.supply dst).supply.events = r.supply.events ++ events
      ∧ (r.encoder.write r.supply dst).dst = dst.append out
      ∧ ∀ before event after, events = before ++ event :: after →
        let written := r.encoder.backlog
          ++ before.flatMap (fun e => r.encoder.payload.form e.handed)
        (∃ offered report slice, event = .read offered report slice ∧ 0 < offered)
          ∧ written <+: out ∧ written.length < dst.room
          ∧ r.Permits p written ∧ ∀ e ∈ before, e.isOver = false
  poll : ∃ events, (r.encoder.poll r.supply).2.events = r.supply.events ++ events
    ∧ (events = [] ∨ (∃ readiness, events = [.poll readiness]) ∧ r.Permits p [])

theorem Settled.disciplined (h : r.Settled p limits) : r.Disciplined p where
  write dst := by
    obtain ⟨⟨events, out, hevents, hdst, hconsults, -⟩, -, -⟩ :=
      r.encoder.write_asks r.supply dst
    refine ⟨events, out, hevents, hdst, fun before event after hsplit => ?_⟩
    obtain ⟨hroom, hout, ⟨offered, report, slice, hread, hlends⟩, -⟩ :=
      hconsults before event after hsplit
    refine ⟨⟨offered, report, slice, hread, h.follows.lends_pos hlends⟩, hout, hroom,
      h.permits (Payload.reads_of_lends hlends) (fun head hphase => ?_),
        fun e he => ?_⟩
    · rw [Encoder.backlog, hphase]
      exact List.prefix_append _ _
    · obtain ⟨front, back, rfl⟩ := List.append_of_mem he
      obtain ⟨-, -, -, hbrought⟩ :=
        hconsults front e (back ++ event :: after) (by rw [hsplit]; simp)
      rw [Bool.eq_false_iff]
      exact fun hend => hbrought (by simp) (SourceEvent.handed_of_isOver hend)
  poll := by
    rcases r.encoder.poll_asks r.supply with hsame
      | ⟨b, readiness, hphase, hreads, hmore⟩
    · exact ⟨[], by rw [hsame, List.append_nil], .inl rfl⟩
    · have hasked : r.encoder.payload.reads = true := by
        rw [Encoder.payload, hphase]
        exact hreads
      refine ⟨_, hmore,
        .inr ⟨⟨readiness, rfl⟩, h.permits hasked (fun head hhead => ?_)⟩⟩
      cases hphase.symm.trans hhead

end Run

/-! ## What is left in a source -/

/-- `left` is what a source has left to hand out: a read takes what it hands out
off the front, and a poll takes nothing. -/
structure Source.Leaves [Source σ] (left : σ → Bytes) : Prop where
  read : ∀ x slice, left x =
    (SourceEvent.read slice.length (Source.read x slice).1
      (Source.read x slice).2.1).handed
      ++ left (Source.read x slice).2.2
  poll : ∀ x, left (Source.poll x).2 = left x

theorem Memory.leaves : Source.Leaves (fun body : Bytes => body) where
  read body slice := by
    show body = (SourceEvent.read slice.length (read body slice).1
      (read body slice).2.1).handed
      ++ (read body slice).2.2
    unfold read
    split
    · rfl
    · have hle : (body.take slice.length).length ≤ slice.length :=
        List.length_take_le _ _
      simp only [SourceEvent.handed, if_pos hle, copyFront]
      rw [List.take_take, Nat.min_self, List.take_left, List.take_append_drop]
  poll _ := rfl

namespace Run

variable [Source σ] {p : Plan} {limits : Limits}

theorem hasBody_step (r : Run (Recorded σ)) (move : Move σ) :
    (r.step move.recorded).supply.body.isSome = r.supply.body.isSome := by
  rcases r.step_cases move with ⟨dst, rfl⟩ | ⟨s', more, hs, -, hstep⟩
  · exact (r.encoder.write_asks r.supply dst).kept
  · rw [hstep]
    exact hs.hasBody

theorem hasBody_after (r : Run (Recorded σ)) (moves : List (Move σ)) :
    (r.after (moves.map Move.recorded)).supply.body.isSome = r.supply.body.isSome := by
  induction moves generalizing r with
  | nil => rfl
  | cons move moves ih => exact (ih (r.step move.recorded)).trans (r.hasBody_step move)

/-- What a source had left before a run is what it handed out in the run
and what it has left now. -/
theorem left_after {left : σ → Bytes} (hleft : Source.Leaves left)
    {r : Run (Recorded σ)} {x : Recorded σ} (hbody : r.supply.body = some x)
    {moves : List (Move σ)} (hfeed : ∀ f, .feed f ∈ moves → ∀ y, left (f y) = left y) :
    ∃ x', (r.after (moves.map Move.recorded)).supply.body = some x'
      ∧ x.handed ++ left x.source = x'.handed ++ left x'.source := by
  have hkept : Source.Invariant
      (fun y : Recorded σ =>
          x.handed ++ left x.source = y.handed ++ left y.source) := by
    refine ⟨fun y slice hy => ?_, fun y hy => ?_⟩
    · have hmore := @Recorded.handed_of_events σ y (Source.read y slice).2.2 _ rfl
      rw [hmore, List.flatMap_singleton, List.append_assoc, hy,
        hleft.read y.source slice]
      rfl
    · rw [y.handed_poll, hy, ← hleft.poll y.source]
      rfl
  have hbefore : r.supply.BodyHas
      (fun y : Recorded σ =>
          x.handed ++ left x.source = y.handed ++ left y.source) := by
    intro y hy
    cases hbody.symm.trans hy
    rfl
  have hfeeds : ∀ f, .feed f ∈ moves.map Move.recorded → ∀ y : Recorded σ,
      (f y).handed ++ left (f y).source = y.handed ++ left y.source := by
    intro f hf y
    obtain ⟨move, hmem, hmove⟩ := List.mem_map.mp hf
    cases move with
    | feed g =>
      cases hmove
      exact congrArg (y.handed ++ ·) (hfeed g hmem y.source)
    | write dst | poll | produce act => cases hmove
  have hhas :=
    bodyHas_after hkept hbefore (fun f hf y hy => hy.trans (hfeeds f hf y).symm)
  have hsome := r.hasBody_after moves
  rw [hbody, Option.isSome_some, Option.isSome_iff_exists] at hsome
  obtain ⟨x', hx'⟩ := hsome
  exact ⟨x', hx', hhas x' hx'⟩

/-- Between any two calls, what was taken from the source is what was emitted
of the body and what a chunk in flight has left, and the next call uses the
source only as long as there is a use for it. So a source has left what it had,
without what was taken. -/
theorem source_accounted {supply : Supply σ} (limits : Limits)
    (moves : List (Move σ)) (hqueue : ∀ q, supply.queue = some q → q.Reachable) :
    let run := (start p limits supply).after moves
    let recorded := (start p limits supply.recorded).after (moves.map Move.recorded)
    recorded.forget = run
      ∧ recorded.Accounts p limits.maxChunk
      ∧ recorded.Disciplined p
      ∧ ∀ left : σ → Bytes, Source.Leaves left →
        (∀ f, .feed f ∈ moves → ∀ y, left (f y) = left y) →
        ∀ x, supply.body = some x →
          ∃ x', run.supply.body = some x'
            ∧ left x = recorded.supply.handed ++ left x' := by
  intro run recorded
  have hforget : recorded.forget = run := by
    show recorded.forget = (start p limits supply).after moves
    rw [forget_after, forget_start]
  have hsettled : recorded.Settled p limits := (settled_start hqueue).after moves
  refine ⟨hforget, hsettled.accounts, hsettled.disciplined,
    fun left hleft hfeed x hx => ?_⟩
  have hbody :
      (start p limits supply.recorded).supply.body = some { source := x } := by
    show supply.body.map (fun source => ({ source := source } : Recorded σ)) = _
    rw [hx]
    rfl
  obtain ⟨x', hx', hparts⟩ := left_after hleft hbody hfeed
  have hrecorded : recorded.supply.body = some x' := hx'
  refine ⟨x'.source, ?_, ?_⟩
  · rw [← hforget]
    show recorded.supply.body.map Recorded.source = _
    rw [hrecorded]
    rfl
  · rw [Supply.handed, hrecorded]
    exact hparts

/-- The upload is dropped in the middle of its only frame: both bytes of its body
were taken, the first one was emitted, and the other one is lost with the
encoder. -/
theorem source_accounted_upload :
    let recorded :=
      (start uploadPlan {} (Supply.recorded ⟨upload.body, some {}⟩)).after
      [.write (Buffer.empty 56)]
    recorded.supply.handed = Bytes.ofString "hi"
      ∧ recorded.encoder.inFlight.map InFlight.unsent = some [105]
      ∧ recorded.Accounts uploadPlan 16384
      ∧ ((start uploadPlan {} ⟨upload.body, some {}⟩).after
        [.write (Buffer.empty 56)]).supply.body
        = some ([] : Bytes) := by
  intro recorded
  obtain ⟨-, haccounts, -, hleft⟩ :=
    @source_accounted Bytes _ uploadPlan ⟨upload.body, some {}⟩ {}
      [.write (Buffer.empty 56)] ChunkQueue.Reachable.of_fresh
  obtain ⟨x', hx', hparts⟩ := hleft _ Memory.leaves (by simp) (Bytes.ofString "hi") rfl
  have hstate : recorded.supply.handed = Bytes.ofString "hi"
      ∧ recorded.encoder.inFlight.map InFlight.unsent = some [105] := by decide +kernel
  have hnothing : x' = [] := by
    have hsame : Bytes.ofString "hi" = Bytes.ofString "hi" ++ x' := hstate.1 ▸ hparts
    exact List.self_eq_append_right.mp hsame
  exact ⟨hstate.1, hstate.2, haccounts, hnothing ▸ hx'⟩

end Run

end HttpWire
