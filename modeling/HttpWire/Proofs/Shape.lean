import Mathlib.Data.List.Forall2
import HttpWire.Proofs.Delivery

/-!
# The shape of a chunked stream

What follows the head of a chunked message is a sequence of frames, at every
moment of a run and wherever the buffers ended. `ChunkedStream` names the chunks
whose frames were begun by where they come from: cut from the body source, passed
on from the queue, and the final one. `ChunkedStream.Describes` says what the
supply has to do with them: the cut data is what the source handed out, nothing of
the queue comes before the source has reported its end, queued chunks are passed
on whole and in order, and the final chunk is the first empty one of the queue or
is made up when the queue is closed or missing.

`Run.chunked_stream` puts this together with what was emitted. All frames are
completely written but perhaps the one begun last, and the run is done exactly
when the frame of the final chunk is completely written.

Most of it is in the ledger of a chunked body already. What has to be added is
where the final chunk stands: the ledger lists it with the taken chunks or as made
up, and `ChunkedBody.Keeps.stream` sorts it out.
-/

namespace HttpWire

/-! ## Frames -/

namespace Chunk

/-- The frame of a chunk: a lowercase size without leading zeros, the extensions
and a line end; then the data, or the trailers if there is none; and a line end. -/
def IsFrame (c : Chunk) (x : Bytes) : Prop :=
  ∃ size, Hex.IsNumeral size c.data.length
    ∧ x = size ++ c.extensions.flatMap extensionWire ++ Bytes.crlf
      ++ (if c.data = [] then (c.trailers.getD []).flatMap trailerWire else c.data)
        ++ Bytes.crlf

theorem isFrame_wire (c : Chunk) : c.IsFrame c.wire := by
  refine ⟨Hex.digits c.data.length, Hex.isNumeral_digits _, ?_⟩
  rw [wire, pieces]
  by_cases hdata : c.data = []
  · rw [if_pos hdata, if_pos (by rw [isLast, hdata]; rfl)]
    simp [sizeLine]
  · rw [if_neg hdata, if_neg (by simpa [isLast] using hdata)]
    simp [sizeLine]

end Chunk

/-- The chunks of a chunked stream whose frames were begun, in the order
in which they are sent. -/
structure ChunkedStream where
  /-- the data of the chunks cut from the body source -/
  cut : List Bytes := []
  /-- the chunks with data that were taken from the queue -/
  passed : List Chunk := []
  /-- the chunk that ends the body -/
  final : Option Chunk := none

namespace ChunkedStream

/-- The chunks of a stream in order: those that were cut, those that were passed
on, and the final one. -/
def chunks (S : ChunkedStream) : List Chunk :=
  S.cut.map Chunk.ofData ++ (S.passed ++ S.final.toList)

variable {σ : Type}

/-- The stream is the one that such a supply gives rise to; `sent` are the chunks
that were put into the queue over the run. -/
structure Describes (S : ChunkedStream) (maxChunk : Nat) (s : Supply (Recorded σ))
    (sent : List Chunk) : Prop where
  cut_size : ∀ d ∈ S.cut, 1 ≤ d.length ∧ d.length ≤ maxChunk
  cut_data : S.cut.flatten = s.handed
  after_source : S.passed ≠ [] ∨ S.final.isSome → s.BodyEnded
  passed_data : ∀ c ∈ S.passed, c.data ≠ []
  passed_sent : S.final = none → S.passed ++ s.queued = sent
  final_chunk : ∀ c, S.final = some c → c.data = []
    ∧ (S.passed ++ c :: s.queued = sent
      ∨ c = Chunk.last ∧ S.passed = sent ∧ ∀ q, s.queue = some q → q.Shut)

end ChunkedStream

/-! ## The stream of a ledger -/

namespace ChunkedBody

variable {σ : Type} {sent : List Chunk} {c : ChunkedBody} {s : Supply (Recorded σ)}
  {L : Ledger} {emitted : Bytes}

theorem data_ne_nil_of_open {cs : List Chunk} (h : Chunk.Open cs) :
    ∀ x ∈ cs, x.data ≠ [] := by
  intro x hx hnil
  have hopen := h x hx
  rw [Chunk.isLast, hnil] at hopen
  cases hopen

/-- What is written of the chunks of a ledger: everything, or everything before
the chunk in flight and a part of its frame that is not all of it. -/
theorem Keeps.emitted_cases (h : Keeps sent c s L emitted) :
    (c.inFlight = none ∧ emitted = L.chunks.flatMap Chunk.wire)
      ∨ ∃ before x front,
        L.chunks = before ++ [x] ∧ Chunk.Open before ∧ c.stage ≠ .finished
        ∧ front <+: x.wire ∧ front ≠ x.wire
        ∧ emitted = before.flatMap Chunk.wire ++ front := by
  cases hf : c.inFlight with
  | none => exact .inl ⟨rfl, h.wire_of_idle hf⟩
  | some f =>
    obtain ⟨hstage, hrest, before, hbefore, hopen⟩ := h.of_inFlight hf
    have hwire := h.wire
    have hsplit : f.chunk.wire = f.chunk.wire.take f.cursor.offset ++ f.rest :=
      (List.take_append_drop _ _).symm
    rw [rest, hf, hbefore, List.flatMap_append, List.flatMap_singleton, hsplit,
      ← List.append_assoc] at hwire
    refine .inr ⟨before, f.chunk, _, hbefore, hopen, hstage, List.take_prefix _ _, ?_,
      List.append_cancel_right hwire⟩
    intro hall
    rw [hall] at hsplit
    exact hrest (List.self_eq_append_right.mp hsplit)

theorem Keeps.open_before (h : Keeps sent c s L emitted) {cs : List Chunk} {x : Chunk}
    (hchunks : L.chunks = cs ++ [x]) : Chunk.Open cs := by
  have hcut : ∀ {before : List Chunk} {y : Chunk}, L.chunks = before ++ [y] →
      Chunk.Open before → Chunk.Open cs := by
    intro before y hbefore hopen
    rw [hchunks] at hbefore
    rwa [(List.append_inj' hbefore rfl).1]
  cases hf : c.inFlight with
  | some f =>
    obtain ⟨-, -, before, hbefore, hopen⟩ := h.of_inFlight hf
    exact hcut hbefore hopen
  | none =>
    by_cases hstage : c.stage = .finished
    · obtain ⟨⟨before, y, hbefore, hopen, -⟩, -⟩ := h.ended hstage
      exact hcut hbefore hopen
    · intro y hy
      refine h.open_of_idle hf hstage y ?_
      rw [hchunks]
      exact List.mem_append_left _ hy

theorem Keeps.ended_of_taken (h : Keeps sent c s L emitted)
    (hany : L.taken ≠ [] ∨ L.closed = true) :
    s.BodyEnded := by
  by_cases hstage : c.stage = .body
  · intro r hr
    obtain ⟨htaken, hclosed⟩ := h.source_first hstage (by rw [hr]; rfl)
    rw [htaken, hclosed] at hany
    rcases hany with hne | hno
    · exact absurd rfl hne
    · cases hno
  · exact h.source_ended hstage

/-! Which chunk is the final one of a ledger: one that was made up, or the last of
those that were taken if it has no data, or none yet. -/

theorem Keeps.cut_size (h : Keeps sent c s L emitted) :
    ∀ d ∈ L.frames, 1 ≤ d.length ∧ d.length ≤ c.maxChunk :=
  fun d hd => ⟨List.length_pos_iff.mpr (h.frames d hd).1, (h.frames d hd).2⟩

/-- A last chunk was made up, so the queue has nothing left and
gets nothing any more. -/
theorem Keeps.describes_closed (h : Keeps sent c s L emitted)
    (hclosed : L.closed = true) :
    ChunkedStream.Describes ⟨L.frames, L.taken, some Chunk.last⟩
      c.maxChunk s sent where
  cut_size := h.cut_size
  cut_data := h.handed.symm
  after_source _ := h.ended_of_taken (.inr hclosed)
  passed_data x hx := by
    have hchunks :
        L.chunks = (L.frames.map Chunk.ofData ++ L.taken) ++ [Chunk.last] := by
      simp [Ledger.chunks, hclosed]
    exact data_ne_nil_of_open (h.open_before hchunks) x (List.mem_append_right _ hx)
  passed_sent hnone := by cases hnone
  final_chunk x hx := by
    cases hx
    have hqueued : s.queued = [] := by
      rw [Supply.queued]
      cases hq : s.queue with
      | none => rfl
      | some q => exact (h.shut hclosed q hq).2
    have hsent : L.taken = sent := by rw [← h.taken, hqueued, List.append_nil]
    exact ⟨rfl, .inr ⟨rfl, hsent, h.shut hclosed⟩⟩

theorem Keeps.describes_last (h : Keeps sent c s L emitted)
    (hclosed : L.closed = false) {t : List Chunk} {x : Chunk}
    (htaken : L.taken = t ++ [x]) (hlast : x.data = []) :
    ChunkedStream.Describes ⟨L.frames, t, some x⟩ c.maxChunk s sent where
  cut_size := h.cut_size
  cut_data := h.handed.symm
  after_source _ := h.ended_of_taken (.inl (by simp [htaken]))
  passed_data y hy := by
    have hchunks : L.chunks = (L.frames.map Chunk.ofData ++ t) ++ [x] := by
      simp [Ledger.chunks, hclosed, htaken]
    exact data_ne_nil_of_open (h.open_before hchunks) y (List.mem_append_right _ hy)
  passed_sent hnone := by cases hnone
  final_chunk y hy := by
    cases hy
    refine ⟨hlast, .inl ?_⟩
    rw [← h.taken, htaken, List.append_assoc]
    rfl

theorem Keeps.describes_open (h : Keeps sent c s L emitted)
    (hdata : ∀ x ∈ L.taken, x.data ≠ []) :
    ChunkedStream.Describes ⟨L.frames, L.taken, none⟩ c.maxChunk s sent where
  cut_size := h.cut_size
  cut_data := h.handed.symm
  after_source hany := h.ended_of_taken (.inl (hany.resolve_right Bool.false_ne_true))
  passed_data := hdata
  passed_sent _ := h.taken
  final_chunk y hy := by cases hy

/-- The chunks of a ledger are a chunked stream, cut from the source
where the ledger says. -/
theorem Keeps.stream_cut (h : Keeps sent c s L emitted) :
    ∃ S : ChunkedStream,
      S.cut = L.frames ∧ S.chunks = L.chunks ∧ S.Describes c.maxChunk s sent := by
  cases hclosed : L.closed with
  | true =>
    exact ⟨_, rfl, by simp [ChunkedStream.chunks, Ledger.chunks, hclosed],
      h.describes_closed hclosed⟩
  | false =>
    have hopen : (∀ x ∈ L.taken, x.data ≠ []) →
        ∃ S : ChunkedStream,
            S.cut = L.frames ∧ S.chunks = L.chunks ∧ S.Describes c.maxChunk s sent :=
      fun hdata => ⟨_, rfl, by simp [ChunkedStream.chunks, Ledger.chunks, hclosed],
        h.describes_open hdata⟩
    rcases List.eq_nil_or_concat L.taken with hnil | ⟨t, x, htaken⟩
    · exact hopen (by simp [hnil])
    · rw [List.concat_eq_append] at htaken
      have hchunks : L.chunks = (L.frames.map Chunk.ofData ++ t) ++ [x] := by
        simp [Ledger.chunks, hclosed, htaken]
      by_cases hlast : x.data = []
      · exact ⟨_, rfl, by simp [ChunkedStream.chunks, hchunks],
          h.describes_last hclosed htaken hlast⟩
      · refine hopen (fun y hy => ?_)
        rw [htaken, List.mem_append, List.mem_singleton] at hy
        rcases hy with hy | rfl
        · exact data_ne_nil_of_open (h.open_before hchunks) y
            (List.mem_append_right _ hy)
        · exact hlast

theorem Keeps.stream (h : Keeps sent c s L emitted) :
    ∃ S : ChunkedStream, S.chunks = L.chunks ∧ S.Describes c.maxChunk s sent := by
  obtain ⟨S, -, hchunks, hS⟩ := h.stream_cut
  exact ⟨S, hchunks, hS⟩

/-- A body is finished exactly when the frame of a final chunk is
completely written. -/
theorem Keeps.finished_iff (h : Keeps sent c s L emitted) {S : ChunkedStream}
    (hchunks : S.chunks = L.chunks) (hS : S.Describes c.maxChunk s sent) :
    c.stage = .finished ↔ S.final.isSome ∧ emitted = S.chunks.flatMap Chunk.wire := by
  constructor
  · intro hstage
    obtain ⟨⟨before, x, hbefore, -, hlast⟩, hemitted⟩ := h.ended hstage
    refine ⟨?_, hchunks ▸ hemitted⟩
    cases hfinal : S.final with
    | some y => rfl
    | none =>
      have hmem : x ∈ S.chunks := by simp [hchunks, hbefore]
      have hdata : x.data = [] := List.isEmpty_iff.mp hlast
      rw [ChunkedStream.chunks, hfinal, Option.toList_none, List.append_nil] at hmem
      rcases List.mem_append.mp hmem with hcut | hpassed
      · obtain ⟨d, hd, rfl⟩ := List.mem_map.mp hcut
        have hpos := (hS.cut_size d hd).1
        rw [show d = [] from hdata] at hpos
        cases hpos
      · exact absurd hdata (hS.passed_data x hpassed)
  · rintro ⟨hsome, hemitted⟩
    by_contra hstage
    rcases h.emitted_cases with ⟨hidle, -⟩
      | ⟨before, x, front, hbefore, -, -, -, hcut, hpart⟩
    · obtain ⟨y, hy⟩ := Option.isSome_iff_exists.mp hsome
      have hmem : y ∈ L.chunks := by simp [← hchunks, ChunkedStream.chunks, hy]
      exact data_ne_nil_of_open (h.open_of_idle hidle hstage) y hmem
        (hS.final_chunk y hy).1
    · rw [hpart, hchunks, hbefore, List.flatMap_append, List.flatMap_singleton]
        at hemitted
      exact hcut (List.append_cancel_left hemitted)

/-- What is written of a chunked body is all of its frames but perhaps the
last, and a part of that. -/
theorem Keeps.frames_written (h : Keeps sent c s L emitted) :
    emitted <+: L.chunks.flatMap Chunk.wire
      ∧ L.chunks.dropLast.flatMap Chunk.wire <+: emitted := by
  rcases h.emitted_cases with ⟨-, hall⟩
    | ⟨before, x, front, hbefore, -, -, hfront, -, hpart⟩
  · rw [hall]
    refine ⟨List.prefix_rfl, ?_⟩
    rcases List.eq_nil_or_concat L.chunks with hnil | ⟨before, x, hbefore⟩
    · rw [hnil]
      exact List.prefix_rfl
    · rw [hbefore, List.concat_eq_append, List.dropLast_concat, List.flatMap_append]
      exact List.prefix_append _ _
  · rw [hbefore, hpart, List.dropLast_concat, List.flatMap_append,
      List.flatMap_singleton]
    exact ⟨(List.prefix_append_right_inj _).mpr hfront, List.prefix_append _ _⟩

end ChunkedBody

/-! ## The stream of a run -/

namespace Run

variable {σ : Type}

/-- A run of a chunked message keeps a ledger, which is empty as long as
the head is not complete. -/
theorem Follows.ledger {p : Plan} {limits : Limits} {r : Run (Recorded σ)}
    (h : r.Follows p limits) (hchunked : p.framing = .chunked) :
    ∃ c L out, c.maxChunk = limits.maxChunk ∧ ChunkedBody.Keeps r.sent c r.supply L out
      ∧ (r.IsDone ↔ c.stage = .finished)
      ∧ (r.emitted = p.headWire ++ out
        ∨ L.chunks = [] ∧ c.stage ≠ .finished ∧ r.emitted <+: p.headWire
          ∧ r.emitted ≠ p.headWire) := by
  have hkept :
      ∀ {b : Payload} {out : Bytes}, b.Holds r.sent p limits.maxChunk r.supply out →
      ∃ c L, b = .chunked c ∧ c.maxChunk = limits.maxChunk
        ∧ ChunkedBody.Keeps r.sent c r.supply L out := by
    intro b out hb
    cases b with
    | chunked c =>
      obtain ⟨-, hmax, L, hkeeps⟩ := hb
      exact ⟨c, L, rfl, hmax, hkeeps⟩
    | fixed f => cases hchunked.symm.trans hb.1
    | empty => cases hchunked.symm.trans hb.1
  have hholds := h.holds
  have hdone := h.done
  cases hphase : r.encoder.phase with
  | head head =>
    rw [hphase] at hholds hdone
    obtain ⟨hemitted, hrest, hstart⟩ := hholds
    rw [hchunked] at hstart
    obtain ⟨-, hmax, L, hkeeps⟩ := hstart
    -- nothing is emitted of the body yet, and no frame is empty
    have hnone : L.chunks = [] := by
      have hwire := (hkeeps.wire_of_idle rfl).symm
      rw [List.flatMap_eq_nil_iff] at hwire
      refine List.eq_nil_iff_forall_not_mem.mpr (fun x hx => ?_)
      exact absurd (hwire x hx) (List.length_pos_iff.mp x.length_wire_pos)
    refine ⟨_, L, [], hmax, hkeeps, by simp [hdone],
      .inr ⟨hnone, by simp, ⟨_, hemitted⟩, ?_⟩⟩
    intro hwhole
    rw [hwhole] at hemitted
    exact hrest (List.append_right_eq_self.mp hemitted)
  | body b =>
    rw [hphase] at hholds hdone
    obtain ⟨out, hemitted, hb, hnot⟩ := hholds
    obtain ⟨c, L, rfl, hmax, hkeeps⟩ := hkept hb
    exact ⟨c, L, out, hmax, hkeeps, by simpa [hdone, Payload.IsComplete] using hnot,
      .inl hemitted⟩
  | done =>
    rw [hphase] at hholds hdone
    obtain ⟨b, out, hemitted, hb, hcomplete⟩ := hholds
    obtain ⟨c, L, rfl, hmax, hkeeps⟩ := hkept hb
    exact ⟨c, L, out, hmax,
      hkeeps, by simpa [hdone, Payload.IsComplete] using hcomplete, .inl hemitted⟩
  | failed =>
    rw [hphase] at hholds hdone
    obtain ⟨b, out, hemitted, hb, hnot⟩ := hholds
    obtain ⟨c, L, rfl, hmax, hkeeps⟩ := hkept hb
    exact ⟨c, L, out, hmax, hkeeps, by simpa [hdone, Payload.IsComplete] using hnot,
      .inl hemitted⟩

variable [Source σ]

/-- What a run of a chunked message has emitted is the front of its head and a
sequence of frames: of chunks with what the source handed out so far, then, once
the source has ended, of the chunks of the queue, and then of one final chunk.
Only the last frame may be missing bytes, and the run is done exactly when it is
that of a final chunk and misses none. -/
theorem chunked_stream {p : Plan} {supply : Supply σ} (limits : Limits)
    (moves : List (Move σ)) (hchunked : p.framing = .chunked)
    (hqueue : ∀ q, supply.queue = some q → q.Reachable) :
    let run := (start p limits supply).after moves
    let recorded := (start p limits supply.recorded).after (moves.map Move.recorded)
    recorded.forget = run
      ∧ ∃ (S : ChunkedStream) (frames : List Bytes),
        S.Describes limits.maxChunk recorded.supply recorded.sent
        ∧ List.Forall₂ Chunk.IsFrame S.chunks frames
        ∧ run.emitted <+: p.headWire ++ frames.flatten
        ∧ (frames ≠ [] → p.headWire ++ frames.dropLast.flatten <+: run.emitted)
        ∧ (run.IsDone ↔
          S.final.isSome ∧ run.emitted = p.headWire ++ frames.flatten) := by
  intro run recorded
  have hforget : recorded.forget = run := by
    show recorded.forget = (start p limits supply).after moves
    rw [forget_after, forget_start]
  have hfollows : recorded.Follows p limits := (follows_start hqueue).after moves
  obtain ⟨c, L, out, hmax, hkeeps, hdone, hemitted⟩ := hfollows.ledger hchunked
  obtain ⟨S, hchunks, hS⟩ := hkeeps.stream
  have hwire : (S.chunks.map Chunk.wire).flatten = L.chunks.flatMap Chunk.wire := by
    rw [hchunks, ← List.flatMap_def]
  refine ⟨hforget, S, S.chunks.map Chunk.wire, hmax ▸ hS, ?_, ?_⟩
  · rw [List.forall₂_map_right_iff, List.forall₂_same]
    exact fun x _ => x.isFrame_wire
  · rw [← hforget]
    show recorded.emitted <+: _ ∧ (_ → _ <+: recorded.emitted)
      ∧ (recorded.IsDone ↔ _ ∧ recorded.emitted = _)
    rw [hwire, hdone]
    rcases hemitted with hemitted | ⟨hnone, hnot, hfront, hpart⟩
    · obtain ⟨hfirst, hlast⟩ := hkeeps.frames_written
      rw [hemitted, hkeeps.finished_iff hchunks hS,
        List.append_cancel_left_eq, hchunks]
      refine ⟨(List.prefix_append_right_inj _).mpr hfirst, fun _ => ?_, Iff.rfl⟩
      rw [← List.map_dropLast, ← List.flatMap_def]
      exact (List.prefix_append_right_inj _).mpr hlast
    · rw [hchunks, hnone]
      refine ⟨by simpa using hfront, by simp, ?_⟩
      simp [hnot, hpart]

/-- The upload with its queued chunk: the frames carry what its body handed out,
and all of them are written. -/
theorem chunked_stream_upload :
    ∃ (S : ChunkedStream) (frames : List Bytes),
      S.cut.flatten = Bytes.ofString "hi" ∧ S.final.isSome
        ∧ List.Forall₂ Chunk.IsFrame S.chunks frames
        ∧ ((start uploadPlan {} ⟨upload.body, some {}⟩).after uploadMoves).emitted
          = uploadPlan.headWire ++ frames.flatten := by
  obtain ⟨-, S, frames, hS, hframes, -, -, hdone⟩ :=
    @chunked_stream Bytes _ uploadPlan ⟨upload.body, some {}⟩ {} uploadMoves rfl
      ChunkQueue.Reachable.of_fresh
  have hhanded : ((start uploadPlan {} (Supply.recorded ⟨upload.body, some {}⟩)).after
      (uploadMoves.map Move.recorded)).supply.handed = Bytes.ofString "hi" := by
    decide +kernel
  obtain ⟨hfinal, hwhole⟩ := hdone.mp (by decide +kernel)
  exact ⟨S, frames, hS.cut_data.trans hhanded, hfinal, hframes, hwhole⟩

end Run

end HttpWire
