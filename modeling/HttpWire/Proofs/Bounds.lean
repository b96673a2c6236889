import HttpWire.Proofs.Runs

/-!
# A writing call stays within its buffer

Whatever state an encoder is in and whatever its source does to the slices that
it is lent, a writing call leaves in its buffer what was there, and behind it
bytes of the message that fit (`Encoder.write_within`). The buffer reserves
nothing, and since a buffer remembers the most that was ever asked of it, nothing
was asked of it on the way either.

To say that the new bytes are bytes of the message, they are put beside those that
the encoder had left before the call and has left after it (`Encoder.backlog`).
What was written and what is left are what had been left and what the call made
out of its supply (`Payload.Makes`): the bytes that the source handed out, plain
or as chunks of their own, the chunks that were taken from the queue, and a last
chunk. A byte of a slice that the source did not report, a zero that a slice was
filled with or the room kept for a size line has no place in this sum.

Nothing is asked of the state, so the ledger of a whole body is of no use
here. The loops of a chunked body are followed with a ledger of the one
call (`ChunkedBody.Adds`).
-/

namespace HttpWire

/-! ## Chunked bodies -/

namespace ChunkedBody

variable {σ : Type} {c c' : ChunkedBody} {f : InFlight} {dst dst' : Buffer}
  {whole : Bool}

/-- Sending a chunk moves bytes of it to the buffer; the chunk stays in flight
unless that is all of it. -/
theorem send_moves (h : c.send f dst = (whole, c', dst')) :
    ∃ out, dst' = dst.append out ∧ out.length ≤ dst.room ∧ out ++ c'.rest = f.rest
      ∧ c'.maxChunk = c.maxChunk ∧ (whole = true → c'.inFlight = none)
      ∧ (whole = false ∨ f.chunk.isLast = false → c'.stage = c.stage) := by
  rw [send_eq] at h
  split at h
  · next hfit =>
    cases h
    refine ⟨f.rest, rfl, hfit, List.append_nil _, rfl, fun _ => rfl, ?_⟩
    rintro (hwhole | hlast)
    · cases hwhole
    · simp [hlast]
  · cases h
    refine ⟨f.rest.take dst.room, rfl, List.length_take_le _ _, ?_, rfl, by simp,
      fun _ => rfl⟩
    rw [rest]
    simp only [InFlight.rest, ← List.drop_drop, List.take_append_drop]

/-- The ledger lists what one call began: what it got from its supply,
and perhaps a last chunk. -/
structure Ledger.Draws (L : Ledger) (maxChunk : Nat)
    (s s' : Supply (Recorded σ)) : Prop where
  frames : ∀ d ∈ L.frames, d ≠ [] ∧ d.length ≤ maxChunk
  handed : s'.handed = s.handed ++ L.frames.flatten
  queued : s.queued = L.taken ++ s'.queued

/-- What a call adds to a buffer, of a body that had `rest` left of a chunk in
flight: bytes that fit, and with those that are left now they are the rest and the
chunks that the call began. -/
structure Adds (maxChunk : Nat) (rest : Bytes) (s : Supply (Recorded σ)) (dst : Buffer)
    (L : Ledger) (w : Written ChunkedBody (Recorded σ)) : Prop where
  appended : ∃ out, w.dst = dst.append out ∧ out.length ≤ dst.room
    ∧ out ++ w.state.rest = rest ++ L.chunks.flatMap Chunk.wire
  draws : L.Draws maxChunk s w.supply
  settled : w.result ≠ .ok .inProgress ∨ w.state.stage = .finished → w.state.rest = []

variable {maxChunk : Nat} {rest first : Bytes} {s s' : Supply (Recorded σ)} {L L' :
  Ledger} {w : Written ChunkedBody (Recorded σ)} {result : Except Failure Progress}

/-- Nothing was read; the last chunk has no part in the supply. -/
theorem Ledger.draws_taken {taken : List Chunk} {closed : Bool}
    (hhanded : s'.handed = s.handed) (hqueued : s.queued = taken ++ s'.queued) :
    Ledger.Draws { taken := taken, closed := closed } maxChunk s s' where
  frames _ hd := (List.not_mem_nil hd).elim
  handed := hhanded.trans (List.append_nil _).symm
  queued := hqueued

theorem Ledger.Draws.frame {d : Bytes} (h : L.Draws maxChunk s s') (hne : d ≠ [])
    (hlen : d.length ≤ maxChunk) {before : Supply (Recorded σ)}
    (hhanded : s.handed = before.handed ++ d) (hqueued : s.queued = before.queued) :
    Ledger.Draws { L with frames := d :: L.frames } maxChunk before s' where
  frames := List.forall_mem_cons.mpr ⟨⟨hne, hlen⟩, h.frames⟩
  handed := by
    rw [h.handed, hhanded, List.flatten_cons, List.append_assoc]
  queued := hqueued.symm.trans h.queued

theorem rest_eq_nil (h : c.inFlight = none) : c.rest = [] := by
  rw [ChunkedBody.rest, h]

theorem adds_nothing (hidle : c.inFlight = none) (hhanded : s'.handed = s.handed)
    (hqueued : s.queued = s'.queued) :
    Adds maxChunk [] s dst {} ⟨result, c, s', dst⟩ where
  appended :=
    ⟨[], by simp, Nat.zero_le _, by simpa [Ledger.chunks] using rest_eq_nil hidle⟩
  draws := Ledger.draws_taken hhanded hqueued
  settled _ := rest_eq_nil hidle

/-- What a call does after `first` is in the buffer, taken together with it. -/
theorem Adds.after (h : Adds maxChunk [] s' (dst.append first) L w)
    (hfit : first.length ≤ dst.room)
    (hfirst :
      first ++ L.chunks.flatMap Chunk.wire = rest ++ L'.chunks.flatMap Chunk.wire)
    (hdraws : L.Draws maxChunk s' w.supply → L'.Draws maxChunk s w.supply) :
    Adds maxChunk rest s dst L' w := by
  obtain ⟨⟨out, hdst, hout, hwire⟩, hsupply, hsettled⟩ := h
  rw [Buffer.append_append] at hdst
  rw [Buffer.room_append] at hout
  refine ⟨⟨first ++ out, hdst, ?_, ?_⟩, hdraws hsupply, hsettled⟩
  · rw [List.length_append]
    omega
  · rw [List.append_assoc, hwire, List.nil_append, hfirst]

/-- The chunk that a call begins last; `L` lists only this one. -/
theorem adds_send {chunk : Chunk}
    (hsend : c.send { chunk := chunk } dst = (whole, c', dst'))
    (hnot : c.stage ≠ .finished) (hL : L.chunks = [chunk])
    (hdraws : L.Draws maxChunk s s')
    (hresult : whole = false → result = .ok .inProgress) :
    Adds maxChunk [] s dst L ⟨result, c', s', dst'⟩ := by
  obtain ⟨out, hdst, hfit, hout, -, hwhole, hstage⟩ := send_moves hsend
  refine ⟨⟨out, hdst, hfit, ?_⟩, hdraws, ?_⟩
  · rw [hout, hL, List.flatMap_singleton, List.nil_append]
    rfl
  · cases whole with
    | true => exact fun _ => rest_eq_nil (hwhole rfl)
    | false =>
      rintro (hother | hfinished)
      · exact absurd (hresult rfl) hother
      · exact absurd ((hstage (.inl rfl)).symm.trans hfinished) hnot

theorem sendLast_adds (maxChunk : Nat) (c : ChunkedBody) (s : Supply (Recorded σ))
    (dst : Buffer) (hnot : c.stage ≠ .finished) :
    Adds maxChunk [] s dst { closed := true } (c.sendLast s dst) := by
  have hdraws : Ledger.Draws { closed := true } maxChunk s s :=
    Ledger.draws_taken rfl rfl
  unfold sendLast
  rcases hsend : c.send { chunk := Chunk.last } dst with ⟨_ | _, c', dst'⟩
  · exact adds_send hsend hnot rfl hdraws (fun _ => rfl)
  · exact adds_send hsend hnot rfl hdraws (fun hwhole => by cases hwhole)

theorem drainQueue_adds (maxChunk : Nat) (c : ChunkedBody)
    (body : Option (Recorded σ)) (queue : ChunkQueue) (dst : Buffer)
    (hidle : c.inFlight = none) (hnot : c.stage ≠ .finished) :
    ∃ taken closed,
      Adds maxChunk [] ⟨body, some queue⟩ dst { taken := taken, closed := closed }
      (c.drainQueue body queue dst) := by
  have hone : ∀ {q q' : ChunkQueue} {chunk : Chunk}, q.take = (.chunk chunk, q') →
      Ledger.Draws { taken := [chunk] } maxChunk ⟨body, some q⟩ ⟨body, some q'⟩ :=
    fun htake => Ledger.draws_taken rfl (ChunkQueue.toList_take htake)
  fun_induction drainQueue c body queue dst with
  | case1 c queue dst queue' htake =>
    exact ⟨[], false, adds_nothing hidle rfl (ChunkQueue.toList_take htake)⟩
  | case2 c queue dst queue' htake =>
    obtain ⟨happended, ⟨hframes, hhanded, hqueued⟩, hsettled⟩ :=
      sendLast_adds maxChunk c ⟨body, some queue'⟩ dst hnot
    exact ⟨[], true, happended,
      ⟨hframes, hhanded, (ChunkQueue.toList_take htake).trans hqueued⟩, hsettled⟩
  | case3 c queue dst chunk queue' htake c' dst' hsend =>
    exact ⟨[chunk], false, adds_send hsend hnot rfl (hone htake) (fun _ => rfl)⟩
  | case4 c queue dst chunk queue' htake c' dst' hsend hdone =>
    exact ⟨[chunk], false,
      adds_send hsend hnot rfl (hone htake) (fun hwhole => by cases hwhole)⟩
  | case5 c queue dst chunk queue' htake c' dst' hsend hdone ih =>
    obtain ⟨out, rfl, hfit, hout, -, hwhole, -⟩ := send_moves hsend
    rw [rest_eq_nil (hwhole rfl), List.append_nil] at hout
    obtain ⟨taken, closed, hadds⟩ := ih (hwhole rfl) (by simpa [isDone] using hdone)
    refine ⟨chunk :: taken, closed, hadds.after hfit ?_ ?_⟩
    · rw [hout, List.nil_append]
      rfl
    · rintro ⟨hframes, hhanded, hqueued⟩
      exact ⟨hframes, hhanded,
        (ChunkQueue.toList_take htake).trans (congrArg (chunk :: ·) hqueued)⟩

theorem afterBody_adds (maxChunk : Nat) (c : ChunkedBody) (s : Supply (Recorded σ))
    (dst : Buffer) (hidle : c.inFlight = none) (hnot : c.stage ≠ .finished) :
    ∃ taken closed,
      Adds maxChunk [] s dst { taken := taken, closed := closed }
        (c.afterBody s dst) := by
  obtain ⟨body, queue⟩ := s
  cases queue with
  | none => exact ⟨[], true, sendLast_adds maxChunk c _ dst hnot⟩
  | some queue => exact drainQueue_adds maxChunk c body queue dst hidle hnot

variable [Source σ]

theorem drainBody_adds (c : ChunkedBody) (r : Recorded σ) (queue : Option ChunkQueue)
    (dst : Buffer) (hidle : c.inFlight = none) (hnot : c.stage ≠ .finished) :
    ∃ L, Adds c.maxChunk [] ⟨some r, queue⟩ dst L (c.drainBody r queue dst) := by
  fun_induction drainBody c r queue dst with
  | case1 c r dst r' dst' hcut ih =>
    have hspec := Cut.fromSource_spec c.maxChunk r dst
    rw [hcut] at hspec
    obtain ⟨d, hne, hlen, hhanded, rfl, hfit⟩ := hspec
    obtain ⟨L, hadds⟩ := ih hidle hnot
    exact ⟨{ L with frames := d :: L.frames },
      hadds.after hfit rfl (fun hdraws => hdraws.frame hne hlen hhanded rfl)⟩
  | case2 c r dst chunk r' dst' hcut c' dst'' hsend =>
    have hspec := Cut.fromSource_spec c.maxChunk r dst
    rw [hcut] at hspec
    obtain ⟨d, hne, hlen, hhanded, rfl, rfl⟩ := hspec
    have hdraws : Ledger.Draws {} c.maxChunk ⟨some r', queue⟩ ⟨some r', queue⟩ :=
      Ledger.draws_taken rfl rfl
    exact ⟨{ frames := [d] },
      adds_send hsend hnot rfl (hdraws.frame hne hlen hhanded rfl) (fun _ => rfl)⟩
  | case3 c r dst chunk r' dst' hcut c' dst'' hsend ih =>
    have hspec := Cut.fromSource_spec c.maxChunk r dst
    rw [hcut] at hspec
    obtain ⟨d, hne, hlen, hhanded, rfl, rfl⟩ := hspec
    obtain ⟨out, rfl, hfit, hout, hmax, hwhole, hstage⟩ := send_moves hsend
    rw [rest_eq_nil (hwhole rfl), List.append_nil] at hout
    have hopen : (Chunk.ofData d).isLast = false := by
      simpa [Chunk.ofData, Chunk.isLast] using hne
    obtain ⟨L, hadds⟩ := ih (hwhole rfl) (by rwa [hstage (.inr hopen)])
    rw [hmax] at hadds
    refine ⟨{ L with frames := d :: L.frames },
      hadds.after hfit ?_ (fun hdraws => hdraws.frame hne hlen hhanded rfl)⟩
    rw [hout]
    rfl
  | case4 c r dst r' dst' hcut
  | case6 c r dst failure r' dst' hcut =>
    have hspec := Cut.fromSource_spec c.maxChunk r dst
    rw [hcut] at hspec
    obtain ⟨hhanded, rfl⟩ := hspec
    exact ⟨{}, adds_nothing hidle hhanded rfl⟩
  | case5 c r dst r' dst' hcut =>
    have hspec := Cut.fromSource_spec c.maxChunk r dst
    rw [hcut] at hspec
    obtain ⟨hhanded, rfl, -⟩ := hspec
    obtain ⟨taken, closed, happended, ⟨hframes, hmore, hqueued⟩, hsettled⟩ :=
      afterBody_adds c.maxChunk { c with stage := .queue } ⟨some r', queue⟩ dst'
        hidle (by simp)
    exact ⟨_, happended,
      ⟨hframes, hmore.trans (congrArg (· ++ _) hhanded), hqueued⟩, hsettled⟩

theorem next_adds (c : ChunkedBody) (s : Supply (Recorded σ)) (dst : Buffer)
    (hidle : c.inFlight = none) (hnot : c.stage ≠ .finished) :
    ∃ L, Adds c.maxChunk [] s dst L (c.next s dst) := by
  obtain ⟨body, queue⟩ := s
  unfold next
  split
  · next hbody =>
    simp only at hbody
    subst hbody
    exact drainBody_adds c _ queue dst hidle hnot
  · obtain ⟨taken, closed, hadds⟩ :=
      afterBody_adds c.maxChunk c ⟨body, queue⟩ dst hidle hnot
    exact ⟨_, hadds⟩

theorem write_adds (c : ChunkedBody) (s : Supply (Recorded σ)) (dst : Buffer)
    (hnot : ¬ c.isDone = true) :
    ∃ L, Adds c.maxChunk c.rest s dst L (c.write s dst) := by
  have hstage : c.stage ≠ .finished := by simpa [isDone] using hnot
  rw [write, if_neg hnot]
  cases hflight : c.inFlight with
  | none =>
    rw [rest_eq_nil hflight]
    exact next_adds c s dst hflight hstage
  | some f =>
    have hrest : c.rest = f.rest := by rw [ChunkedBody.rest, hflight]
    have hsame : Ledger.Draws {} c.maxChunk s s := Ledger.draws_taken rfl rfl
    simp only
    rcases hsend : c.send f dst with ⟨_ | _, c', dst'⟩
    · obtain ⟨out, rfl, hfit, hout, -, -, hkept⟩ := send_moves hsend
      refine ⟨{}, ⟨out, rfl, hfit, ?_⟩, hsame, ?_⟩
      · simpa [Ledger.chunks, hrest] using hout
      · rintro (hresult | hfinished)
        · exact absurd rfl hresult
        · exact absurd ((hkept (.inl rfl)).symm.trans hfinished) hstage
    · obtain ⟨out, rfl, hfit, hout, hmax, hwhole, -⟩ := send_moves hsend
      rw [rest_eq_nil (hwhole rfl), List.append_nil] at hout
      simp only
      split
      · refine ⟨{}, ⟨out, rfl, hfit, ?_⟩, hsame, fun _ => rest_eq_nil (hwhole rfl)⟩
        simp [Ledger.chunks, rest_eq_nil (hwhole rfl), hrest, hout]
      · next hgoes =>
        obtain ⟨L, hadds⟩ :=
          next_adds c' s (dst.append out) (hwhole rfl) (by simpa [isDone] using hgoes)
        rw [hmax] at hadds
        exact ⟨L, hadds.after hfit (by rw [hout, hrest]) (fun hdraws => hdraws)⟩

end ChunkedBody

/-! ## Messages -/

namespace Payload

/-- The bytes of the chunk in flight that are still to be written. -/
def backlog : Payload → Bytes
  | .chunked c => if c.isDone then [] else c.rest
  | .fixed _ | .empty => []

variable {σ : Type}

/-- What a writing call of a body made, by what it did to the supply: the
bytes that the source handed out, or chunks with them and the chunks that
were taken from the queue. -/
def Makes (b : Payload) (s s' : Supply (Recorded σ)) (made : Bytes) : Prop :=
  match b with
  | .fixed f =>
    s'.handed = s.handed ++ made ∧ s'.queue = s.queue
      ∧ made.length ≤ f.length - f.written
  | .chunked c =>
    ∃ L : ChunkedBody.Ledger,
      L.Draws c.maxChunk s s' ∧ made = L.chunks.flatMap Chunk.wire
  | .empty => s' = s ∧ made = []

theorem makes_nothing (b : Payload) (s : Supply (Recorded σ)) : b.Makes s s [] := by
  cases b with
  | fixed f => exact ⟨(List.append_nil _).symm, rfl, Nat.zero_le _⟩
  | chunked c =>
    exact ⟨{}, ChunkedBody.Ledger.draws_taken rfl rfl, rfl⟩
  | empty => exact ⟨rfl, rfl⟩

theorem backlog_start (framing : Framing) (maxChunk : Nat) :
    (start framing maxChunk).backlog = [] := by
  cases framing <;> rfl

theorem write_makes [Source σ] (b : Payload) (s : Supply (Recorded σ)) (dst : Buffer) :
    ∃ out made, (b.write s dst).dst = dst.append out ∧ out.length ≤ dst.room
      ∧ out ++ (b.write s dst).state.backlog = b.backlog ++ made
      ∧ b.Makes s (b.write s dst).supply made
      ∧ ((b.write s dst).result ≠ .ok .inProgress →
        (b.write s dst).state.backlog = []) := by
  cases b with
  | fixed f =>
    by_cases hdone : f.isDone = true
    · refine ⟨[], [], ?_⟩
      simp only [write, FixedBody.write, if_pos hdone, Buffer.append_nil]
      exact ⟨trivial, Nat.zero_le _, rfl, makes_nothing _ s, fun _ => rfl⟩
    · rw [FixedBody.isDone, beq_iff_eq] at hdone
      obtain ⟨got, hdst, hfit, hhanded, hqueue, -, hle, -⟩ :=
        f.write_spec s dst (by omega)
      refine ⟨got, got, hdst, hfit, ?_, ⟨hhanded, hqueue, by omega⟩, fun _ => rfl⟩
      simp [backlog, write]
  | chunked c =>
    by_cases hdone : c.isDone = true
    · refine ⟨[], [], ?_⟩
      simp only [write, ChunkedBody.write, if_pos hdone, Buffer.append_nil]
      exact ⟨trivial, Nat.zero_le _, by simp, makes_nothing _ s, fun _ => if_pos hdone⟩
    · obtain ⟨L, ⟨out, hdst, hfit, hout⟩, hdraws, hsettled⟩ := c.write_adds s dst hdone
      -- a body that is done has no backlog, and a chunk in flight is over by then
      have hleft :
          (write (.chunked c) s dst).state.backlog = (c.write s dst).state.rest := by
        show (if (c.write s dst).state.isDone then [] else (c.write s dst).state.rest)
          = _
        split
        · next hfinished =>
          exact (hsettled (.inr (by simpa [ChunkedBody.isDone] using hfinished))).symm
        · rfl
      refine ⟨out, _, hdst, hfit, ?_, ⟨L, hdraws, rfl⟩, fun hresult => ?_⟩
      · rw [hleft, hout, backlog, if_neg hdone]
      · rw [hleft]
        exact hsettled (.inl hresult)
  | empty =>
    exact ⟨[], [], by simp [write], Nat.zero_le _, rfl, ⟨rfl, rfl⟩, fun _ => rfl⟩

end Payload

namespace Encoder

/-- The bytes that are begun and still to be written: of the head, or
of the chunk in flight. -/
def backlog (e : Encoder) : Bytes :=
  match e.phase with
  | .head head => head.rest
  | .body b => b.backlog
  | .done | .failed => []

/-- The body that is written or comes next; there is none any more for an encoder
that is done or has failed. -/
def payload (e : Encoder) : Payload :=
  match e.phase with
  | .head _ => Payload.start e.plan.framing e.limits.maxChunk
  | .body b => b
  | .done | .failed => .empty

variable {σ : Type} [Source σ]

theorem writeBody_makes (e : Encoder) (b : Payload) (s : Supply (Recorded σ))
    (dst : Buffer) :
    ∃ out made, (e.writeBody b s dst).dst = dst.append out ∧ out.length ≤ dst.room
      ∧ out ++ (e.writeBody b s dst).state.backlog = b.backlog ++ made
      ∧ b.Makes s (e.writeBody b s dst).supply made := by
  obtain ⟨out, made, hdst, hfit, hout, hmakes, hsettled⟩ := b.write_makes s dst
  refine ⟨out, made, hdst, hfit, ?_, hmakes⟩
  have hleft :
      (e.writeBody b s dst).state.backlog = (b.write s dst).state.backlog := by
    simp only [writeBody, backlog]
    cases hresult : (b.write s dst).result with
    | error failure => exact (hsettled (by simp [hresult])).symm
    | ok progress =>
      cases progress with
      | done => exact (hsettled (by simp [hresult])).symm
      | inProgress => rfl
  rw [hleft, hout]

theorem write_makes (e : Encoder) (s : Supply (Recorded σ)) (dst : Buffer) :
    ∃ out made, (e.write s dst).dst = dst.append out ∧ out.length ≤ dst.room
      ∧ out ++ (e.write s dst).state.backlog = e.backlog ++ made
      ∧ e.payload.Makes s (e.write s dst).supply made := by
  obtain ⟨plan, limits, phase⟩ := e
  cases phase with
  | head head =>
    obtain ⟨hdst, hdone, hrest⟩ := head.write_spec dst
    simp only [write, hdst]
    split
    · next hall =>
      rw [hdone, decide_eq_true_eq] at hall
      rw [List.take_of_length_le hall]
      obtain ⟨out, made, hbody, hfit, hout, hmakes⟩ :=
        writeBody_makes ⟨plan, limits, .head head⟩
          (Payload.start plan.framing limits.maxChunk) s (dst.append head.rest)
      rw [Buffer.append_append] at hbody
      rw [Buffer.room_append] at hfit
      rw [Payload.backlog_start, List.nil_append] at hout
      refine ⟨head.rest ++ out, made, hbody, ?_, ?_, hmakes⟩
      · rw [List.length_append]
        omega
      · rw [List.append_assoc, hout]
        rfl
    · next hnot =>
      refine ⟨head.rest.take dst.room, [], rfl, List.length_take_le _ _, ?_,
        Payload.makes_nothing _ s⟩
      simp only [backlog, hrest (by simpa using hnot), List.take_append_drop,
        List.append_nil]
  | body b => exact writeBody_makes ⟨plan, limits, .body b⟩ b s dst
  | done | failed => exact ⟨[], [], by simp [write], Nat.zero_le _, rfl, rfl, rfl⟩

theorem write_recorded (e : Encoder) (s : Supply σ) (dst : Buffer) :
    (e.write s.recorded dst).map Recorded.source = e.write s dst := by
  rw [← write_map Recorded.hom_source e s.recorded dst]
  obtain ⟨body, queue⟩ := s
  cases body <;> rfl

theorem write_appends (e : Encoder) (s : Supply σ) (dst : Buffer) :
    ∃ out, (e.write s dst).dst = dst.append out ∧ out.length ≤ dst.room := by
  obtain ⟨out, -, hdst, hfit, -⟩ := e.write_makes s.recorded dst
  rw [← e.write_recorded s dst]
  exact ⟨out, hdst, hfit⟩

/-- For every state of an encoder and every source, a writing call leaves what was
in the buffer, and behind it bytes that fit; the buffer reserves nothing at any
moment of the call. The new bytes and those left over are the bytes that were left
before and those that the call made of what it got: nothing else was written. -/
theorem write_within (e : Encoder) (s : Supply σ) (dst : Buffer) :
    let w := e.write s dst
    let recorded := e.write s.recorded dst
    recorded.map Recorded.source = w
      ∧ ∃ out made, w.dst.bytes = dst.bytes ++ out ∧ w.dst.length ≤ dst.capacity
        ∧ w.dst.capacity = dst.capacity ∧ out ++ w.state.backlog = e.backlog ++ made
        ∧ e.payload.Makes s.recorded recorded.supply made := by
  intro w recorded
  have hmap : recorded.map Recorded.source = w := e.write_recorded s dst
  obtain ⟨out, made, hdst, hfit, hout, hmakes⟩ := e.write_makes s.recorded dst
  have hwritten : w.dst = dst.append out := hmap ▸ hdst
  have hstate : recorded.state = w.state := hmap ▸ rfl
  have hcapacity : w.dst.capacity = dst.capacity := by
    rw [hwritten, Buffer.capacity_append_of_le hfit]
  refine ⟨hmap, out, made, ?_, hcapacity ▸ w.dst.length_le, hcapacity, ?_, hmakes⟩
  · rw [hwritten, Buffer.bytes_append]
  · rw [← hstate]
    exact hout

end Encoder

end HttpWire
