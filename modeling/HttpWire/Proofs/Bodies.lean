import HttpWire.Proofs.Fetching

/-!
# What has been sent of a body

Both kinds of body are followed by what is known of them from outside: the bytes
emitted so far, the bytes the source handed out, and the chunks taken from the
queue. A fixed body is simple, since what it emits is what it reads
(`FixedBody.fill_spec`).

A chunked body emits chunks of three origins, and any of them may be cut by the
end of a buffer. Its ledger lists the chunks that were begun: those cut from the
source, then those taken, then perhaps the last chunk made up at the end.
`ChunkedBody.Keeps` ties the ledger to the state: what was emitted and what is
left of the chunk in flight are together the written form of the listed chunks;
only the last of them can be a last chunk, and it is one that is completely
written exactly when the body is finished; and nothing is listed behind the
source's chunks before the source has reported its end. The loops are followed by
induction on their own recursion, and every round leaves the ledger true
(`ChunkedBody.write_keeps`).
-/

namespace HttpWire

namespace Supply

variable {σ : Type}

/-- The body bytes handed out so far. -/
def handed (s : Supply (Recorded σ)) : Bytes :=
  match s.body with
  | none => []
  | some r => r.handed

/-- The chunks that are in the queue of a supply, if it has one. -/
def queued (s : Supply σ) : List Chunk :=
  match s.queue with
  | none => []
  | some q => q.toList

/-- There is no source, or it has reported its end. -/
def BodyEnded (s : Supply (Recorded σ)) : Prop :=
  s.BodyHas (fun r => r.ended = true)

end Supply

/-! ## Bodies of a declared length -/

namespace FixedBody

variable {σ : Type}

/-- What writing a fixed body comes to: bytes that the source handed out were
appended, no more of them than were still to come, and the call is done exactly
if that was all of them. -/
def Advances (f : FixedBody) (s : Supply (Recorded σ)) (dst : Buffer)
    (w : Written FixedBody (Recorded σ)) : Prop :=
  ∃ got,
    w.dst = dst.append got ∧ got.length ≤ dst.room ∧ w.supply.handed = s.handed ++ got
    ∧ w.supply.queue = s.queue ∧ w.state = { f with written := f.written + got.length }
    ∧ f.written + got.length ≤ f.length
    ∧ (w.result = .ok .done ↔ f.written + got.length = f.length)

theorem advances_nil {f : FixedBody} {s s' : Supply (Recorded σ)} {dst : Buffer}
    {result : Except Failure Progress} (hle : f.written ≤ f.length)
    (hhanded : s'.handed = s.handed) (hqueue : s'.queue = s.queue)
    (hdone : result = .ok .done ↔ f.written = f.length) :
    Advances f s dst ⟨result, f, s', dst⟩ :=
  ⟨[], by simp, by simp, by simpa using hhanded,
    hqueue, by simp, by simpa using hle, by simpa using hdone⟩

variable [Source σ]

theorem fill_spec (f : FixedBody) (r : Recorded σ) (queue : Option ChunkQueue)
    (dst : Buffer) (hle : f.written ≤ f.length) :
    Advances f ⟨some r, queue⟩ dst (f.fill r queue dst) := by
  obtain ⟨r', events, got, hdst, hstate, hsupply, hevents, hfetched⟩ :=
    f.fill_filled r queue dst hle
  refine ⟨got, hdst, hfetched.fits, ?_, by rw [hsupply], hstate, hfetched.le_length,
    hfetched.done⟩
  rw [hsupply]
  show r'.handed = r.handed ++ got
  rw [Recorded.handed_of_events hevents, hfetched.handed]

theorem write_spec (f : FixedBody) (s : Supply (Recorded σ)) (dst : Buffer)
    (hle : f.written ≤ f.length) : Advances f s dst (f.write s dst) := by
  unfold write
  split
  · next hdone =>
    rw [isDone, beq_iff_eq] at hdone
    exact advances_nil hle rfl rfl (by simp; omega)
  · next hdone =>
    rw [isDone, beq_iff_eq] at hdone
    obtain ⟨body, queue⟩ := s
    cases body with
    | none => exact advances_nil hle rfl rfl (by simp; omega)
    | some r => exact fill_spec f r queue dst hle

end FixedBody

/-! ## The queue -/

namespace ChunkQueue

/-- A queue that has seen the end of its channel is empty, and its channel
takes nothing any more. -/
def Sound (q : ChunkQueue) : Prop :=
  q.ended = true → q.channel.closed = true ∧ q.toList = []

/-- Nothing is in the queue and nothing can be sent to it. -/
def Shut (q : ChunkQueue) : Prop :=
  q.channel.closed = true ∧ q.toList = []

theorem sound_poll {q : ChunkQueue} (h : q.Sound) : (q.poll).2.Sound := by
  unfold poll
  split
  · exact h
  · next hnone =>
    simp only [Bool.or_eq_true, not_or, Bool.not_eq_true] at hnone
    cases hreceive : q.channel.receive with
    | item c rest =>
      intro hended
      simp [hnone.2] at hended
    | ended =>
      intro _
      unfold Channel.receive at hreceive
      split at hreceive
      · cases hreceive
      · next hitems =>
        split at hreceive
        · next hclosed =>
          have hfront : q.front = none := by simpa using hnone.1
          exact ⟨hclosed, by simp [toList, hfront, hitems]⟩
        · cases hreceive
    | pending =>
      exact h

/-- What taking from a queue means: a chunk is the first one of those in the
queue, and a queue is found closed only when nothing is in it any more. -/
def Gives (q : ChunkQueue) : Taken × ChunkQueue → Prop
  | (.chunk c, rest) => q.toList = c :: rest.toList ∧ rest.Sound
  | (.pending, rest) => q.toList = rest.toList ∧ rest.Sound
  | (.closed, rest) => q.toList = rest.toList ∧ rest.Sound ∧ rest.Shut

theorem gives_take {q : ChunkQueue} (h : q.Sound) : q.Gives q.take := by
  have hlist := toList_poll q
  have hsound := sound_poll h
  have hready : (q.poll).1 = true → (q.poll).2.front = none →
      (q.poll).2.ended = true := by
    unfold poll
    split
    · next hhas =>
      intro _ hfront
      simp only at hfront
      simpa [hfront] using hhas
    · cases q.channel.receive <;> simp
  unfold take
  rcases hpoll : q.poll with ⟨ready, q'⟩
  rw [hpoll] at hlist hsound hready
  cases ready with
  | false => exact ⟨hlist.symm, hsound⟩
  | true =>
    simp only
    cases hfront : q'.front with
    | none => exact ⟨hlist.symm, hsound, hsound (hready rfl hfront)⟩
    | some c =>
      refine ⟨?_, ?_⟩
      · rw [← hlist]
        simp [toList, hfront]
      · intro hended
        have := (hsound hended).2
        simp [toList, hfront] at this

theorem take_spec {q q' : ChunkQueue} {taken : Taken} (h : q.Sound)
    (htake : q.take = (taken, q')) :
    q.Gives (taken, q') :=
  htake ▸ gives_take h

end ChunkQueue

/-! ## Chunked bodies -/

/-- None of these chunks ends a body. -/
def Chunk.Open (cs : List Chunk) : Prop :=
  ∀ c ∈ cs, c.isLast = false

/-- These chunks are a whole body: the final one ends it and no other does. -/
def Chunk.Ended (cs : List Chunk) : Prop :=
  ∃ before final, cs = before ++ [final] ∧ Open before ∧ final.isLast = true

theorem Chunk.Open.concat {cs : List Chunk} {c : Chunk} (h : Open cs)
    (hc : c.isLast = false) :
    Open (cs ++ [c]) := by
  intro x hx
  rcases List.mem_append.mp hx with hx | hx
  · exact h x hx
  · rw [List.mem_singleton.mp hx]
    exact hc

/-- The bytes of a chunk in flight that are still to be written. -/
def InFlight.rest (f : InFlight) : Bytes :=
  f.chunk.wire.drop f.cursor.offset

namespace ChunkedBody

/-- What is left of the chunk in flight. -/
def rest (c : ChunkedBody) : Bytes :=
  match c.inFlight with
  | none => []
  | some f => f.rest

/-- The chunks of a body whose sending has begun, by their origin. -/
structure Ledger where
  /-- the data of the chunks cut from the source -/
  frames : List Bytes := []
  /-- the chunks taken from the queue -/
  taken : List Chunk := []
  /-- a plain last chunk was made up -/
  closed : Bool := false

/-- The chunks of a ledger in the order in which they are sent. -/
def Ledger.chunks (L : Ledger) : List Chunk :=
  L.frames.map Chunk.ofData ++ (L.taken ++ if L.closed then [Chunk.last] else [])

/-- Where a body stands among the chunks that were begun: between two of them,
within one of them, or behind the last one. -/
def Stands (c : ChunkedBody) (cs : List Chunk) : Prop :=
  match c.stage, c.inFlight with
  | .finished, none => Chunk.Ended cs
  | .finished, some _ => False
  | _, none => Chunk.Open cs
  | _, some f => f.rest ≠ [] ∧ ∃ before, cs = before ++ [f.chunk] ∧ Chunk.Open before

variable {σ : Type}

/-- The ledger tells the truth about a chunked body, its supply and what it has
emitted; `sent` are the chunks that were put into the queue. -/
structure Keeps (sent : List Chunk) (c : ChunkedBody) (s : Supply (Recorded σ))
    (L : Ledger) (emitted : Bytes) : Prop where
  wire : emitted ++ c.rest = L.chunks.flatMap Chunk.wire
  frames : ∀ d ∈ L.frames, d ≠ [] ∧ d.length ≤ c.maxChunk
  handed : s.handed = L.frames.flatten
  taken : L.taken ++ s.queued = sent
  sound : ∀ q, s.queue = some q → q.Sound
  shut : L.closed = true → ∀ q, s.queue = some q → q.Shut
  source_first : c.stage = .body → s.body.isSome → L.taken = [] ∧ L.closed = false
  source_ended : c.stage ≠ .body → s.BodyEnded
  stands : c.Stands L.chunks

/-- What writing a chunked body comes to: bytes that fit were appended, and some
ledger is true of what is left; the call is done exactly if the body is
finished. -/
def Advances (sent : List Chunk) (emitted : Bytes) (maxChunk : Nat) (dst : Buffer)
    (w : Written ChunkedBody (Recorded σ)) : Prop :=
  ∃ L out, w.dst = dst.append out ∧ out.length ≤ dst.room
    ∧ Keeps sent w.state w.supply L (emitted ++ out) ∧ w.state.maxChunk = maxChunk
    ∧ (w.result = .ok .done ↔ w.state.stage = .finished)

theorem Keeps.advances {sent : List Chunk} {c : ChunkedBody}
    {s : Supply (Recorded σ)} {L : Ledger} {emitted : Bytes} {dst : Buffer}
    {result : Except Failure Progress} (h : Keeps sent c s L emitted)
    (hdone : result = .ok .done ↔ c.stage = .finished) :
    Advances sent emitted c.maxChunk dst ⟨result, c, s, dst⟩ :=
  ⟨L, [], by simp, by simp, by simpa using h, rfl, hdone⟩

theorem Advances.after_append {sent : List Chunk} {emitted out : Bytes}
    {maxChunk : Nat} {dst : Buffer} {w : Written ChunkedBody (Recorded σ)}
    (hfit : out.length ≤ dst.room)
    (h : Advances sent (emitted ++ out) maxChunk (dst.append out) w) :
    Advances sent emitted maxChunk dst w := by
  obtain ⟨L, more, hdst, hmore, hkeeps, hmax, hdone⟩ := h
  rw [Buffer.append_append] at hdst
  rw [Buffer.room_append] at hmore
  rw [List.append_assoc] at hkeeps
  exact ⟨L, out ++ more, hdst, by rw [List.length_append]; omega, hkeeps, hmax, hdone⟩

theorem send_eq (c : ChunkedBody) (f : InFlight) (dst : Buffer) :
    c.send f dst =
      if f.rest.length ≤ dst.room then
        (true,
          { c with
            inFlight := none, stage := if f.chunk.isLast then .finished else c.stage },
          dst.append f.rest)
      else
        (false,
          { c with
            inFlight :=
              some { f with cursor := { offset := f.cursor.offset + dst.room } } },
          dst.append (f.rest.take dst.room)) := by
  have hrest : f.chunk.pieces.flatten.drop f.cursor.offset = f.rest := rfl
  unfold send
  rw [Cursor.write_eq, hrest]
  by_cases hfit : f.rest.length ≤ dst.room
  · rw [if_pos hfit, if_pos hfit]
  · rw [if_neg hfit, if_neg hfit]

/-! Beginning a chunk enters it in the ledger, whatever its origin; completing it
or cutting it short only moves bytes from what is left to what is emitted. -/

section Keeping

variable {sent : List Chunk} {c : ChunkedBody} {s : Supply (Recorded σ)} {L : Ledger}
  {emitted : Bytes}

theorem Keeps.open_of_idle (h : Keeps sent c s L emitted) (hidle : c.inFlight = none)
    (hstage : c.stage ≠ .finished) : Chunk.Open L.chunks := by
  have hstands := h.stands
  rw [Stands, hidle] at hstands
  cases hc : c.stage <;> rw [hc] at hstands
  case finished => exact absurd hc hstage
  all_goals exact hstands

/-- A body between two chunks has made up no last chunk. -/
theorem Keeps.not_closed_of_idle (h : Keeps sent c s L emitted)
    (hidle : c.inFlight = none) (hstage : c.stage ≠ .finished) : L.closed = false := by
  cases hclosed : L.closed with
  | false => rfl
  | true =>
    have hlast :=
      h.open_of_idle hidle hstage Chunk.last (by simp [Ledger.chunks, hclosed])
    exact absurd hlast (by decide)

theorem Keeps.wire_of_idle (h : Keeps sent c s L emitted) (hidle : c.inFlight = none) :
    emitted = L.chunks.flatMap Chunk.wire := by
  have hwire := h.wire
  rwa [rest, hidle, List.append_nil] at hwire

/-- A chunk in flight is the last of those that were begun, and
something is left of it. -/
theorem Keeps.of_inFlight {f : InFlight} (h : Keeps sent c s L emitted)
    (hf : c.inFlight = some f) :
    c.stage ≠ .finished ∧ f.rest ≠ []
      ∧ ∃ before, L.chunks = before ++ [f.chunk] ∧ Chunk.Open before := by
  have hstands := h.stands
  rw [Stands, hf] at hstands
  cases hc : c.stage <;> rw [hc] at hstands
  case finished => cases hstands
  all_goals exact ⟨by simp, hstands⟩

/-- Between two chunks any chunk can be begun, if the new ledger lists it behind
the others and accounts for the new supply. -/
theorem Keeps.begin {s' : Supply (Recorded σ)} {L' : Ledger} {chunk : Chunk}
    (h : Keeps sent c s L emitted) (hidle : c.inFlight = none)
    (hstage : c.stage ≠ .finished) (hchunks : L'.chunks = L.chunks ++ [chunk])
    (frames : ∀ d ∈ L'.frames, d ≠ [] ∧ d.length ≤ c.maxChunk)
    (handed : s'.handed = L'.frames.flatten) (taken : L'.taken ++ s'.queued = sent)
    (sound : ∀ q, s'.queue = some q → q.Sound)
    (shut : L'.closed = true → ∀ q, s'.queue = some q → q.Shut)
    (source_first : c.stage = .body → s'.body.isSome →
      L'.taken = [] ∧ L'.closed = false)
    (source_ended : c.stage ≠ .body → s'.BodyEnded) :
    Keeps sent { c with inFlight := some { chunk := chunk } } s' L' emitted := by
  refine ⟨?_, frames, handed, taken, sound, shut, source_first, source_ended, ?_⟩
  · rw [hchunks, List.flatMap_append, List.flatMap_singleton, ← h.wire_of_idle hidle]
    rfl
  · have hrest : InFlight.rest { chunk := chunk } ≠ [] :=
      List.length_pos_iff.mp chunk.length_wire_pos
    rw [hchunks, Stands]
    cases hc : c.stage
    case finished => exact absurd hc hstage
    all_goals exact ⟨hrest, L.chunks, rfl, h.open_of_idle hidle hstage⟩

theorem Keeps.begin_frame {r r' : Recorded σ} {queue : Option ChunkQueue} {d : Bytes}
    (h : Keeps sent c ⟨some r, queue⟩ L emitted) (hidle : c.inFlight = none)
    (hstage : c.stage = .body) (hne : d ≠ []) (hlen : d.length ≤ c.maxChunk)
    (hhanded : r'.handed = r.handed ++ d) :
    Keeps sent { c with inFlight := some { chunk := Chunk.ofData d } } ⟨some r', queue⟩
      { L with frames := L.frames ++ [d] } emitted := by
  obtain ⟨htaken, hclosed⟩ := h.source_first hstage rfl
  refine h.begin hidle (by simp [hstage]) ?_ ?_ ?_ h.taken h.sound h.shut
    (fun _ _ => ⟨htaken, hclosed⟩) (fun hnot => absurd hstage hnot)
  · simp [Ledger.chunks, htaken, hclosed]
  · intro x hx
    rcases List.mem_append.mp hx with hx | hx
    · exact h.frames x hx
    · rw [List.mem_singleton.mp hx]
      exact ⟨hne, hlen⟩
  · have hbefore : r.handed = L.frames.flatten := h.handed
    show r'.handed = _
    rw [hhanded, hbefore, List.flatten_append, List.flatten_singleton]

theorem Keeps.begin_taken {body : Option (Recorded σ)} {q q' : ChunkQueue}
    {chunk : Chunk} (h : Keeps sent c ⟨body, some q⟩ L emitted)
    (hidle : c.inFlight = none) (hstage : c.stage ≠ .finished)
    (hover : c.stage = .body → body = none) (hlist : q.toList = chunk :: q'.toList)
    (hsound : q'.Sound) :
    Keeps sent { c with inFlight := some { chunk := chunk } } ⟨body, some q'⟩
      { L with taken := L.taken ++ [chunk] } emitted := by
  have hclosed := h.not_closed_of_idle hidle hstage
  refine h.begin hidle hstage ?_ h.frames h.handed ?_ ?_ ?_ ?_ h.source_ended
  · simp [Ledger.chunks, hclosed]
  · rw [← h.taken]
    simp [Supply.queued, hlist]
  · intro x hx
    cases hx
    exact hsound
  · intro hc
    rw [hclosed] at hc
    cases hc
  · intro hb hsome
    rw [hover hb] at hsome
    cases hsome

theorem Keeps.begin_last {body : Option (Recorded σ)}
    {queue queue' : Option ChunkQueue} (h : Keeps sent c ⟨body, queue⟩ L emitted)
    (hidle : c.inFlight = none) (hstage : c.stage ≠ .finished)
    (hover : c.stage = .body → body = none)
    (hlist :
      Supply.queued (σ := σ) ⟨none, queue'⟩ = Supply.queued (σ := σ) ⟨none, queue⟩)
    (hshut : ∀ q, queue' = some q → q.Sound ∧ q.Shut) :
    Keeps sent { c with inFlight := some { chunk := Chunk.last } } ⟨body, queue'⟩
      { L with closed := true } emitted := by
  have hclosed := h.not_closed_of_idle hidle hstage
  refine h.begin hidle hstage ?_ h.frames h.handed ?_ (fun q hq => (hshut q hq).1)
    (fun _ q hq => (hshut q hq).2) ?_ h.source_ended
  · simp [Ledger.chunks, hclosed]
  · rw [← h.taken]
    exact congrArg _ hlist
  · intro hb hsome
    rw [hover hb] at hsome
    cases hsome

/-- As long as the source is read, no chunk in flight ends the body. -/
theorem Keeps.not_last_of_source {f : InFlight} (h : Keeps sent c s L emitted)
    (hf : c.inFlight = some f) (hstage : c.stage = .body) (hsome : s.body.isSome) :
    f.chunk.isLast = false := by
  obtain ⟨-, -, before, hbefore, -⟩ := h.of_inFlight hf
  obtain ⟨htaken, hclosed⟩ := h.source_first hstage hsome
  have hmem : f.chunk ∈ L.frames.map Chunk.ofData := by
    have hchunks : L.chunks = L.frames.map Chunk.ofData := by
      simp [Ledger.chunks, htaken, hclosed]
    rw [← hchunks, hbefore]
    simp
  obtain ⟨d, hd, heq⟩ := List.mem_map.mp hmem
  rw [← heq]
  simpa [Chunk.ofData, Chunk.isLast] using (h.frames d hd).1

theorem Keeps.complete {f : InFlight} (h : Keeps sent c s L emitted)
    (hf : c.inFlight = some f) :
    Keeps sent
      { c with
        inFlight := none, stage := if f.chunk.isLast then .finished else c.stage }
      s L (emitted ++ f.rest) := by
  obtain ⟨hnf, -, before, hbefore, hopen⟩ := h.of_inFlight hf
  refine ⟨?_, h.frames, h.handed, h.taken, h.sound, h.shut, ?_, ?_, ?_⟩
  · have hwire := h.wire
    rw [rest, hf] at hwire
    rw [← hwire]
    exact List.append_nil _
  · intro hb hsome
    refine h.source_first ?_ hsome
    simp only at hb
    split at hb
    · cases hb
    · exact hb
  · intro hover
    by_cases hstage : c.stage = .body
    · intro r hr
      have hnot := h.not_last_of_source hf hstage (by rw [hr]; rfl)
      simp only [hnot, Bool.false_eq_true, if_false] at hover
      exact absurd hstage hover
    · exact h.source_ended hstage
  · rw [Stands]
    by_cases hlast : f.chunk.isLast = true
    · simp only [if_pos hlast]
      exact ⟨before, f.chunk, hbefore, hopen, hlast⟩
    · simp only [if_neg hlast]
      have hall : Chunk.Open L.chunks := by
        rw [hbefore]
        exact hopen.concat (by simpa using hlast)
      cases hc : c.stage
      case finished => exact absurd hc hnf
      all_goals exact hall

theorem Keeps.cut {f : InFlight} {n : Nat} (h : Keeps sent c s L emitted)
    (hf : c.inFlight = some f) (hn : n < f.rest.length) :
    Keeps sent
      { c with
        inFlight := some { f with cursor := { offset := f.cursor.offset + n } } }
      s L (emitted ++ f.rest.take n) := by
  obtain ⟨hnf, -, hbegun⟩ := h.of_inFlight hf
  have hrest : InFlight.rest { f with cursor := { offset := f.cursor.offset + n } }
      = f.rest.drop n := by
    simp [InFlight.rest]
  refine ⟨?_, h.frames, h.handed, h.taken, h.sound, h.shut, h.source_first,
    h.source_ended, ?_⟩
  · have hwire := h.wire
    rw [rest, hf] at hwire
    rw [← hwire]
    simp only [rest, hrest, List.append_assoc, List.take_append_drop]
  · have hne : f.rest.drop n ≠ [] := by
      intro hnil
      have := List.drop_eq_nil_iff.mp hnil
      omega
    rw [Stands]
    cases hc : c.stage
    case finished => exact absurd hc hnf
    all_goals exact ⟨hrest ▸ hne, hbegun⟩

end Keeping

/-! ### The loops -/

/-- Sending a chunk that the ledger already lists. -/
theorem send_keeps {sent : List Chunk} {c c' : ChunkedBody} {s : Supply (Recorded σ)}
    {L : Ledger} {emitted : Bytes} {f : InFlight} {dst dst' : Buffer} {whole : Bool}
    (hsend : c.send f dst = (whole, c', dst'))
    (h : Keeps sent { c with inFlight := some f } s L emitted) :
    ∃ out, dst' = dst.append out ∧ out.length ≤ dst.room
      ∧ Keeps sent c' s L (emitted ++ out)
      ∧ c'.maxChunk = c.maxChunk ∧ (whole = false → c'.stage ≠ .finished)
      ∧ (whole = true → c'.inFlight = none
        ∧ c'.stage = if f.chunk.isLast then .finished else c.stage) := by
  have hnf : c.stage ≠ .finished := (h.of_inFlight rfl).1
  rw [send_eq] at hsend
  split at hsend
  · next hfit =>
    cases hsend
    exact ⟨_, rfl, hfit, h.complete rfl, rfl, fun hno => by simp at hno,
      fun _ => ⟨rfl, rfl⟩⟩
  · next hfit =>
    cases hsend
    refine ⟨_, rfl, ?_, h.cut rfl (by omega), rfl, fun _ => hnf,
      fun hno => by simp at hno⟩
    rw [List.length_take]
    exact Nat.min_le_left _ _

theorem sendLast_advances {sent : List Chunk} {c : ChunkedBody}
    {s : Supply (Recorded σ)} {L : Ledger} {emitted : Bytes} (dst : Buffer)
    (h : Keeps sent { c with inFlight := some { chunk := Chunk.last } } s L emitted) :
    Advances sent emitted c.maxChunk dst (c.sendLast s dst) := by
  rw [sendLast]
  rcases hsend : c.send { chunk := Chunk.last } dst with ⟨whole, c', dst'⟩
  obtain ⟨out, hdst, hfit, hkeeps, hmax, hcut, hall⟩ := send_keeps hsend h
  cases whole with
  | false => exact ⟨L, out, hdst, hfit, hkeeps, hmax, by simp [hcut rfl]⟩
  | true =>
    exact ⟨L, out, hdst, hfit, hkeeps,
      hmax, by simp [(hall rfl).2, Chunk.last, Chunk.isLast]⟩

theorem drainQueue_advances {sent : List Chunk} (c : ChunkedBody)
    (body : Option (Recorded σ)) (queue : ChunkQueue) (dst : Buffer) {L : Ledger}
    {emitted : Bytes} (h : Keeps sent c ⟨body, some queue⟩ L emitted)
    (hidle : c.inFlight = none) (hstage : c.stage ≠ .finished)
    (hover : c.stage = .body → body = none) :
    Advances sent emitted c.maxChunk dst (c.drainQueue body queue dst) := by
  fun_induction drainQueue c body queue dst generalizing L emitted with
  | case1 c queue dst queue' htake =>
    have hgives := ChunkQueue.take_spec (h.sound queue rfl) htake
    have hwait : Keeps sent c ⟨body, some queue'⟩ L emitted :=
      { h with
        taken := (congrArg (L.taken ++ ·) hgives.1.symm).trans h.taken
        sound := fun q hq => by cases hq; exact hgives.2
        shut := fun hc => by rw [h.not_closed_of_idle hidle hstage] at hc; cases hc }
    exact hwait.advances (by simp [hstage])
  | case2 c queue dst queue' htake =>
    have hgives := ChunkQueue.take_spec (h.sound queue rfl) htake
    refine sendLast_advances dst (h.begin_last hidle hstage hover ?_ ?_)
    · exact hgives.1.symm
    · intro q hq
      cases hq
      exact hgives.2
  | case3 c queue dst chunk queue' htake c' dst' hsend =>
    have hgives := ChunkQueue.take_spec (h.sound queue rfl) htake
    obtain ⟨out, hdst, hfit, hkeeps, hmax, hcut, -⟩ :=
      send_keeps hsend (h.begin_taken hidle hstage hover hgives.1 hgives.2)
    exact ⟨_, out, hdst, hfit, hkeeps, hmax, by simp [hcut rfl]⟩
  | case4 c queue dst chunk queue' htake c' dst' hsend hdone =>
    have hgives := ChunkQueue.take_spec (h.sound queue rfl) htake
    obtain ⟨out, hdst, hfit, hkeeps, hmax, -, -⟩ :=
      send_keeps hsend (h.begin_taken hidle hstage hover hgives.1 hgives.2)
    exact ⟨_, out, hdst, hfit, hkeeps, hmax, by simpa [isDone] using hdone⟩
  | case5 c queue dst chunk queue' htake c' dst' hsend hdone ih =>
    have hgives := ChunkQueue.take_spec (h.sound queue rfl) htake
    obtain ⟨out, rfl, hfit, hkeeps, hmax, -, hall⟩ :=
      send_keeps hsend (h.begin_taken hidle hstage hover hgives.1 hgives.2)
    have hmore : c'.stage ≠ .finished := by simpa [isDone] using hdone
    refine Advances.after_append hfit ?_
    rw [← hmax]
    refine ih hkeeps (hall rfl).1 hmore ?_
    intro hb
    refine hover ?_
    rw [(hall rfl).2] at hb
    split at hb
    · cases hb
    · exact hb

theorem afterBody_advances {sent : List Chunk} {c : ChunkedBody}
    {s : Supply (Recorded σ)} {L : Ledger} {emitted : Bytes} (dst : Buffer)
    (h : Keeps sent c s L emitted) (hidle : c.inFlight = none)
    (hstage : c.stage ≠ .finished) (hover : c.stage = .body → s.body = none) :
    Advances sent emitted c.maxChunk dst (c.afterBody s dst) := by
  obtain ⟨body, queue⟩ := s
  cases queue with
  | none =>
    refine sendLast_advances dst (h.begin_last hidle hstage hover rfl ?_)
    intro q hq
    cases hq
  | some queue => exact drainQueue_advances c body queue dst h hidle hstage hover

variable [Source σ]

theorem drainBody_advances {sent : List Chunk} (c : ChunkedBody) (r : Recorded σ)
    (queue : Option ChunkQueue) (dst : Buffer) {L : Ledger} {emitted : Bytes}
    (h : Keeps sent c ⟨some r, queue⟩ L emitted) (hidle : c.inFlight = none)
    (hstage : c.stage = .body) :
    Advances sent emitted c.maxChunk dst (c.drainBody r queue dst) := by
  have hkept : ∀ {c : ChunkedBody} {r r' : Recorded σ} {L : Ledger} {emitted : Bytes},
      Keeps sent c ⟨some r, queue⟩ L emitted → c.stage = .body → r'.handed = r.handed →
      Keeps sent c ⟨some r', queue⟩ L emitted :=
    fun h hstage heq => { h with
      handed := heq.trans h.handed
      source_ended := fun hnot => absurd hstage hnot }
  fun_induction drainBody c r queue dst generalizing L emitted with
  | case1 c r dst r' dst' hcut ih =>
    have hspec := Cut.fromSource_spec c.maxChunk r dst
    rw [hcut] at hspec
    obtain ⟨d, hne, hlen, hhanded, rfl, hfit⟩ := hspec
    have hbegun := h.begin_frame hidle hstage hne hlen hhanded
    have hwhole := hbegun.complete (f := { chunk := Chunk.ofData d }) rfl
    have hnot : (Chunk.ofData d).isLast = false := by
      simpa [Chunk.ofData, Chunk.isLast] using hne
    simp only [hnot, Bool.false_eq_true, if_false] at hwhole
    have hnext : Keeps sent c ⟨some r', queue⟩ { L with frames := L.frames ++ [d] }
        (emitted ++ (Chunk.ofData d).wire) := by
      rw [← hidle] at hwhole
      exact hwhole
    exact Advances.after_append hfit (ih hnext hidle hstage)
  | case2 c r dst chunk r' dst' hcut c' dst'' hsend =>
    have hspec := Cut.fromSource_spec c.maxChunk r dst
    rw [hcut] at hspec
    obtain ⟨d, hne, hlen, hhanded, rfl, rfl⟩ := hspec
    obtain ⟨out, hdst, hfit, hkeeps, hmax, hcut', -⟩ :=
      send_keeps hsend (h.begin_frame hidle hstage hne hlen hhanded)
    exact ⟨_, out, hdst, hfit, hkeeps, hmax, by simp [hcut' rfl]⟩
  | case3 c r dst chunk r' dst' hcut c' dst'' hsend ih =>
    have hspec := Cut.fromSource_spec c.maxChunk r dst
    rw [hcut] at hspec
    obtain ⟨d, hne, hlen, hhanded, rfl, rfl⟩ := hspec
    obtain ⟨out, rfl, hfit, hkeeps, hmax, -, hall⟩ :=
      send_keeps hsend (h.begin_frame hidle hstage hne hlen hhanded)
    have hnot : (Chunk.ofData d).isLast = false := by
      simpa [Chunk.ofData, Chunk.isLast] using hne
    have hstage' := (hall rfl).2
    simp only [hnot, Bool.false_eq_true, if_false, hstage] at hstage'
    refine Advances.after_append hfit ?_
    rw [← hmax]
    exact ih hkeeps (hall rfl).1 hstage'
  | case4 c r dst r' dst' hcut
  | case6 c r dst failure r' dst' hcut =>
    have hspec := Cut.fromSource_spec c.maxChunk r dst
    rw [hcut] at hspec
    obtain ⟨hhanded, rfl⟩ := hspec
    exact (hkept h hstage hhanded).advances (by simp [hstage])
  | case5 c r dst r' dst' hcut =>
    have hspec := Cut.fromSource_spec c.maxChunk r dst
    rw [hcut] at hspec
    obtain ⟨hhanded, rfl, hended⟩ := hspec
    have hopen := h.open_of_idle hidle (by simp [hstage])
    have hover : Keeps sent { c with stage := .queue } ⟨some r', queue⟩ L emitted :=
      { hkept h hstage hhanded with
        source_first := fun hb => by cases hb
        source_ended := fun _ x hx => by cases hx; exact hended
        stands := by unfold Stands; simp only [hidle]; exact hopen }
    exact afterBody_advances dst' hover hidle (by simp) (fun hb => by cases hb)

theorem next_advances {sent : List Chunk} {c : ChunkedBody} {s : Supply (Recorded σ)}
    {L : Ledger} {emitted : Bytes} (dst : Buffer) (h : Keeps sent c s L emitted)
    (hidle : c.inFlight = none) (hstage : c.stage ≠ .finished) :
    Advances sent emitted c.maxChunk dst (c.next s dst) := by
  obtain ⟨body, queue⟩ := s
  unfold next
  split
  · next r hbody hsome =>
    simp only at hsome
    subst hsome
    exact drainBody_advances c r queue dst h hidle hbody
  · next hnot =>
    refine afterBody_advances dst h hidle hstage ?_
    intro hb
    cases body with
    | none => rfl
    | some r => exact absurd rfl (hnot r hb)

/-- Writing a chunked body keeps its ledger, wherever it stands. -/
theorem write_advances {sent : List Chunk} {c : ChunkedBody}
    {s : Supply (Recorded σ)} {L : Ledger} {emitted : Bytes} (dst : Buffer)
    (h : Keeps sent c s L emitted) :
    Advances sent emitted c.maxChunk dst (c.write s dst) := by
  unfold write
  split
  · next hdone => exact h.advances (by simpa [isDone] using hdone)
  · next hdone =>
    have hstage : c.stage ≠ .finished := by simpa [isDone] using hdone
    cases hf : c.inFlight with
    | none => exact next_advances dst h hf hstage
    | some f =>
      have hflying : Keeps sent { c with inFlight := some f } s L emitted := by
        rw [← hf]
        exact h
      rcases hsend : c.send f dst with ⟨whole, c', dst'⟩
      obtain ⟨out, rfl, hfit, hkeeps, hmax, hcut, hall⟩ := send_keeps hsend hflying
      cases whole with
      | false =>
        simp only [hsend]
        exact ⟨L, out, rfl, hfit, hkeeps, hmax, by simp [hcut rfl]⟩
      | true =>
        simp only [hsend]
        by_cases hlast : c'.isDone = true
        · rw [if_pos hlast]
          exact ⟨L, out, rfl, hfit, hkeeps, hmax, by simpa [isDone] using hlast⟩
        · rw [if_neg hlast, ← hmax]
          refine Advances.after_append hfit ?_
          exact next_advances _ hkeeps (hall rfl).1 (by simpa [isDone] using hlast)

end ChunkedBody

end HttpWire
