import HttpWire.Proofs.Shape
import HttpWire.Source.Scripted

/-!
# Scheduling does not show

A message can be written through any buffers, its source may cut its bytes as
it likes and keep the encoder waiting, and producers may run ahead or lag
behind. When the message is done, the only trace of all that is where the data
of a chunked body was cut.

`Plan.Writes` describes the bytes of a finished message without a word about
buffers, reads and moments: they are determined by the plan, by the bytes that the
source had to offer and by the chunks that were sent to the queue, except for the
cuts. Every run that is done has written what is described (`Run.Follows.writes`),
and two runs of one message agree because there is only one such description
(`Run.independent_of_schedule`).

What a source has to offer is not a property of its state, since producers
may change it at any time. `Supply.Brings` therefore says it of what a run
has read: the reads go along some byte string, and they have gone to its end
when the end is reported.
-/

namespace HttpWire

/-- What the queue brings at last, of the chunks that are sent to it: those up to
the first one without data, or all of them and a plain last chunk. -/
def Chunk.ending : List Chunk → List Chunk
  | [] => [Chunk.last]
  | c :: rest => if c.isLast then [c] else c :: ending rest

/-- The reads have handed out a front of `T`, and all of it if the
source has reported its end. -/
def Supply.Brings {σ : Type} (s : Supply (Recorded σ)) (T : Bytes) : Prop :=
  s.handed <+: T ∧ (s.BodyEnded → s.handed = T)

theorem Supply.brings_of_eq {σ : Type} {s : Supply (Recorded σ)} {T : Bytes}
    (h : s.handed = T) : s.Brings T :=
  ⟨h ▸ List.prefix_rfl, fun _ => h⟩

/-- What is written of a message when it is done, for a body source that brings
`T` and the chunks `sent` to the queue. -/
def Plan.Writes (p : Plan) (maxChunk : Nat) (T : Bytes) (sent : List Chunk)
    (x : Bytes) : Prop :=
  match p.framing with
  | .empty => x = p.headWire
  | .length n => x = p.headWire ++ T.take n
  | .chunked =>
    ∃ cut : List Bytes,
      (∀ d ∈ cut, 1 ≤ d.length ∧ d.length ≤ maxChunk) ∧ cut.flatten = T
      ∧ x = p.headWire ++ (cut.map Chunk.ofData).flatMap Chunk.wire
        ++ (Chunk.ending sent).flatMap Chunk.wire

namespace Chunk

theorem ending_append {before rest : List Chunk} (h : ∀ c ∈ before, c.data ≠ []) :
    ending (before ++ rest) = before ++ ending rest := by
  induction before with
  | nil => rfl
  | cons c before ih =>
    have hc : c.isLast = false := by simpa [isLast] using h c List.mem_cons_self
    rw [List.cons_append, ending, hc, if_neg Bool.false_ne_true,
      ih (fun x hx => h x (List.mem_cons_of_mem c hx)), List.cons_append]

theorem ending_cons_of_last {c : Chunk} (rest : List Chunk) (h : c.data = []) :
    ending (c :: rest) = [c] := by
  have hc : c.isLast = true := by rw [isLast, h]; rfl
  rw [ending, hc, if_pos rfl]

end Chunk

/-- Behind the cut chunks, a finished stream has what the queue brings at last. -/
theorem ChunkedStream.Describes.chunks_eq {σ : Type} {S : ChunkedStream}
    {maxChunk : Nat} {s : Supply (Recorded σ)} {sent : List Chunk}
    (h : S.Describes maxChunk s sent) (hfinal : S.final.isSome) :
    S.chunks = S.cut.map Chunk.ofData ++ Chunk.ending sent := by
  obtain ⟨c, hc⟩ := Option.isSome_iff_exists.mp hfinal
  obtain ⟨hdata, hsent | ⟨rfl, hsent, -⟩⟩ := h.final_chunk c hc
  · rw [chunks, hc, ← hsent, Chunk.ending_append h.passed_data,
      Chunk.ending_cons_of_last _ hdata]
    rfl
  · have hending := @Chunk.ending_append S.passed [] h.passed_data
    rw [List.append_nil, hsent] at hending
    rw [chunks, hc, hsent, hending]
    rfl

namespace Run

variable {σ : Type}

theorem Follows.writes {p : Plan} {limits : Limits} {r : Run (Recorded σ)}
    (h : r.Follows p limits) (hdone : r.IsDone) {T : Bytes}
    (hbrings : r.supply.Brings T) :
    p.Writes limits.maxChunk T r.sent r.emitted := by
  have hholds := h.holds
  rw [h.done.mp hdone] at hholds
  obtain ⟨b, out, hemitted, hb, hcomplete⟩ := hholds
  unfold Plan.Writes
  cases b with
  | fixed f =>
    obtain ⟨hframing, hhanded, hwritten, -⟩ := hb
    have hlength : f.length = out.length := hcomplete.symm.trans hwritten
    have htake : T.take out.length = out := by
      rw [← hhanded]
      exact (List.prefix_iff_eq_take.mp hbrings.1).symm
    rw [hframing, hemitted, hlength]
    show _ = p.headWire ++ T.take out.length
    rw [htake]
  | chunked c =>
    obtain ⟨hframing, hmax, L, hkeeps⟩ := hb
    have hstage : c.stage = .finished := hcomplete
    have hended : r.supply.BodyEnded := hkeeps.source_ended (by simp [hstage])
    obtain ⟨S, hchunks, hS⟩ := hkeeps.stream
    obtain ⟨hfinal, hout⟩ := (hkeeps.finished_iff hchunks hS).mp hstage
    rw [hframing]
    refine ⟨S.cut, hmax ▸ hS.cut_size, hS.cut_data.trans (hbrings.2 hended), ?_⟩
    rw [hemitted, hout, hS.chunks_eq hfinal, List.flatMap_append, List.append_assoc]
  | empty =>
    obtain ⟨hframing, -, hout⟩ := hb
    rw [hframing, hemitted, hout, List.append_nil]

end Run

/-- What is written is determined, except for the cuts of a chunked body; and
without a body there are no cuts. -/
theorem Plan.Writes.eq {p : Plan} {maxChunk₁ maxChunk₂ : Nat} {T : Bytes}
    {sent : List Chunk} {x₁ x₂ : Bytes} (h₁ : p.Writes maxChunk₁ T sent x₁)
    (h₂ : p.Writes maxChunk₂ T sent x₂) (hcuts : p.framing = .chunked → T = []) :
    x₁ = x₂ := by
  unfold Writes at h₁ h₂
  cases hframing : p.framing with
  | length n =>
    rw [hframing] at h₁ h₂
    exact h₁.trans h₂.symm
  | empty =>
    rw [hframing] at h₁ h₂
    exact h₁.trans h₂.symm
  | chunked =>
    rw [hframing] at h₁ h₂
    have hnone : ∀ {maxChunk : Nat} {cut : List Bytes},
        (∀ d ∈ cut, 1 ≤ d.length ∧ d.length ≤ maxChunk) → cut.flatten = T →
            cut = [] := by
      intro maxChunk cut hsize hflat
      rw [hcuts hframing, List.flatten_eq_nil_iff] at hflat
      refine List.eq_nil_iff_forall_not_mem.mpr (fun d hd => ?_)
      have hpos := (hsize d hd).1
      rw [hflat d hd] at hpos
      cases hpos
    obtain ⟨cut₁, hsize₁, hflat₁, rfl⟩ := h₁
    obtain ⟨cut₂, hsize₂, hflat₂, rfl⟩ := h₂
    rw [hnone hsize₁ hflat₁, hnone hsize₂ hflat₂]

namespace Run

section Scheduled

variable {σ : Type} [Source σ] {p : Plan} {supply : Supply σ} {limits : Limits}
  {moves : List (Move σ)} {T : Bytes}

/-- A run that is done has written what its plan, its source and
its queue determine. -/
theorem writes_after (hqueue : ∀ q, supply.queue = some q → q.Reachable)
    (hdone : ((start p limits supply).after moves).IsDone)
    (hbrings : ((start p limits supply.recorded).after
      (moves.map Move.recorded)).supply.Brings T) :
    let run := (start p limits supply).after moves
    p.Writes limits.maxChunk T run.sent run.emitted := by
  have hforget := forget_after (start p limits supply.recorded) moves
  rw [forget_start] at hforget
  rw [← hforget] at hdone ⊢
  exact ((follows_start hqueue).after moves).writes hdone hbrings

/-- What is not there brings nothing. -/
theorem brings_of_bodyless (hbody : supply.body = none)
    (hbrings : ((start p limits supply.recorded).after
      (moves.map Move.recorded)).supply.Brings T) :
    T = [] := by
  have hnone :
      ((start p limits supply.recorded).after (moves.map Move.recorded)).supply.BodyHas
      (fun _ => False) := by
    refine bodyHas_after ⟨fun _ _ h => h, fun _ h => h⟩ ?_ (fun _ _ _ h => h)
    intro r hr
    simp [start, Supply.recorded, hbody] at hr
  generalize ((start p limits supply.recorded).after (moves.map Move.recorded)).supply
    = s at hnone hbrings
  have hhanded := hbrings.2 (fun r hr => (hnone r hr).elim)
  rw [← hhanded, Supply.handed]
  split
  · rfl
  · next r hr => exact (hnone r hr).elim

end Scheduled

/-- Two runs of one message that are done have written the same bytes,
whatever their buffers, limits and moves were, provided that their sources
bring the same bytes and the same chunks were sent to their queues. Only a
chunked body with a source leaves a choice: its data may be cut at other
places, and nothing else differs. -/
theorem independent_of_schedule {σ₁ σ₂ : Type} [Source σ₁] [Source σ₂] {p : Plan}
    {supply₁ : Supply σ₁} {supply₂ : Supply σ₂} {limits₁ limits₂ : Limits}
    {moves₁ : List (Move σ₁)} {moves₂ : List (Move σ₂)} {T : Bytes}
    (hqueue₁ : ∀ q, supply₁.queue = some q → q.Reachable)
    (hqueue₂ : ∀ q, supply₂.queue = some q → q.Reachable)
    (hdone₁ : ((start p limits₁ supply₁).after moves₁).IsDone)
    (hdone₂ : ((start p limits₂ supply₂).after moves₂).IsDone)
    (hbrings₁ : ((start p limits₁ supply₁.recorded).after
      (moves₁.map Move.recorded)).supply.Brings T)
    (hbrings₂ : ((start p limits₂ supply₂.recorded).after
      (moves₂.map Move.recorded)).supply.Brings T)
    (hsent : ((start p limits₁ supply₁).after moves₁).sent
      = ((start p limits₂ supply₂).after moves₂).sent) :
    let run₁ := (start p limits₁ supply₁).after moves₁
    let run₂ := (start p limits₂ supply₂).after moves₂
    ((p.framing = .chunked → supply₁.body = none ∨ supply₂.body = none) →
      run₁.emitted = run₂.emitted)
      ∧ (p.framing = .chunked → ∃ (cut₁ cut₂ : List Bytes) (ending : Bytes),
        run₁.emitted
          = p.headWire ++ (cut₁.map Chunk.ofData).flatMap Chunk.wire ++ ending
        ∧ run₂.emitted
          = p.headWire ++ (cut₂.map Chunk.ofData).flatMap Chunk.wire ++ ending
        ∧ cut₁.flatten = T ∧ cut₂.flatten = T
        ∧ (∀ d ∈ cut₁, 1 ≤ d.length ∧ d.length ≤ limits₁.maxChunk)
        ∧ (∀ d ∈ cut₂, 1 ≤ d.length ∧ d.length ≤ limits₂.maxChunk)
        ∧ ending = (Chunk.ending run₁.sent).flatMap Chunk.wire) := by
  intro run₁ run₂
  have hwrites₁ : p.Writes limits₁.maxChunk T run₁.sent run₁.emitted :=
    writes_after hqueue₁ hdone₁ hbrings₁
  have hwrites₂ : p.Writes limits₂.maxChunk T run₂.sent run₂.emitted :=
    writes_after hqueue₂ hdone₂ hbrings₂
  have hsame : run₂.sent = run₁.sent := hsent.symm
  rw [hsame] at hwrites₂
  constructor
  · intro hbodyless
    refine hwrites₁.eq hwrites₂ (fun hchunked => ?_)
    rcases hbodyless hchunked with hbody | hbody
    · exact brings_of_bodyless hbody hbrings₁
    · exact brings_of_bodyless hbody hbrings₂
  · intro hchunked
    rw [Plan.Writes, hchunked] at hwrites₁ hwrites₂
    obtain ⟨cut₁, hsize₁, hdata₁, hemitted₁⟩ := hwrites₁
    obtain ⟨cut₂, hsize₂, hdata₂, hemitted₂⟩ := hwrites₂
    exact ⟨cut₁, cut₂, _, hemitted₁, hemitted₂, hdata₁, hdata₂, hsize₁, hsize₂, rfl⟩

/-- The body of the upload from a source that keeps the encoder
waiting between its bytes. -/
def dripping : Supply Scripted where
  body := some
    { reads := [.data (Bytes.ofString "h"), .pending, .data (Bytes.ofString "i")] }
  queue := some {}

/-- It is written in four calls, with the same chunk sent between them. -/
def drippingMoves : List (Move Scripted) :=
  [.write (Buffer.empty 50),
    .produce (.send (Bytes.ofString "!") [.extension (Bytes.ofString "n") none]),
    .write (Buffer.empty 9), .poll, .write (Buffer.empty 3), .produce .close,
    .write (Buffer.empty 100)]

/-- Dripping or not, the upload differs in its cuts only; in them it does. -/
theorem independent_upload :
    let run₁ := (start uploadPlan {} ⟨upload.body, some {}⟩).after uploadMoves
    let run₂ := (start uploadPlan {} dripping).after drippingMoves
    run₁.emitted ≠ run₂.emitted
      ∧ ∃ (cut₁ cut₂ : List Bytes) (ending : Bytes),
        run₁.emitted
          = uploadPlan.headWire ++ (cut₁.map Chunk.ofData).flatMap Chunk.wire ++ ending
        ∧ run₂.emitted
          = uploadPlan.headWire ++ (cut₂.map Chunk.ofData).flatMap Chunk.wire ++ ending
        ∧ cut₁.flatten = Bytes.ofString "hi" ∧ cut₂.flatten = Bytes.ofString "hi" := by
  have hhanded₁ : ((start uploadPlan {} (Supply.recorded ⟨upload.body, some {}⟩)).after
      (uploadMoves.map Move.recorded)).supply.handed = Bytes.ofString "hi" := by
    decide +kernel
  have hhanded₂ : ((start uploadPlan {} dripping.recorded).after
      (drippingMoves.map Move.recorded)).supply.handed = Bytes.ofString "hi" := by
    decide +kernel
  obtain ⟨cut₁, cut₂, ending, hemitted₁, hemitted₂, hdata₁, hdata₂, -⟩ :=
    (@independent_of_schedule Bytes Scripted _ _ uploadPlan ⟨upload.body, some {}⟩
      dripping {} {} uploadMoves drippingMoves (Bytes.ofString "hi")
      ChunkQueue.Reachable.of_fresh ChunkQueue.Reachable.of_fresh (by decide +kernel)
      (by decide +kernel) (Supply.brings_of_eq hhanded₁) (Supply.brings_of_eq hhanded₂)
      (by decide +kernel)).2 rfl
  exact ⟨by decide +kernel, cut₁, cut₂, ending, hemitted₁, hemitted₂, hdata₁, hdata₂⟩

end Run

end HttpWire
