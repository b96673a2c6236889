import HttpWire.Proofs.Promises
import HttpWire.Proofs.Queueing

/-!
# Calls that fill their buffers

A body in memory never makes its reader wait, and a queue that is closed, or that
holds the chunk that ends the body, does not either. With only such a supply a
writing call has no reason to stop but a full buffer, the end of the message, or a
body that is shorter than was declared (`Written.Fills`). The last bytes of a
buffer are used up too: a chunk that does not fit behind its size line is read
beside the buffer and cut there.

A queue with an end in it stops being one when that end is taken. By then the last
chunk is in flight, so what is kept along a run is that one or the other is the
case (`ChunkedBody.Closing`).
-/

namespace HttpWire

/-! ## Supplies that do not make a call wait -/

/-- Every read into a slice brings data, or the end. -/
def Source.Prompt (σ : Type) [Source σ] : Prop :=
  ∀ (x : σ) (slice : Bytes), slice ≠ [] → (Source.read x slice).1 = .ended
    ∨ ∃ n, (Source.read x slice).1 = .data n ∧ 0 < n ∧ n ≤ slice.length

theorem Memory.prompt : Source.Prompt Bytes := by
  intro body slice hslice
  show (read body slice).1 = .ended ∨ ∃ n,
    (read body slice).1 = .data n ∧ 0 < n ∧ n ≤ slice.length
  unfold read
  split
  · exact .inl rfl
  · next hbody =>
    have hpos := List.length_pos_iff.mpr (show body ≠ [] by simpa using hbody)
    have hslice := List.length_pos_iff.mpr hslice
    refine .inr ⟨_, rfl, ?_, List.length_take_le _ _⟩
    rw [List.length_take]
    omega

namespace ChunkQueue

/-- The queue leads to the end of the body: it is closed, or a chunk
without data is in it. -/
def Ends (q : ChunkQueue) : Prop :=
  q.channel.closed = true ∨ ∃ c ∈ q.toList, c.data = []

variable {q q' : ChunkQueue}

theorem Ends.take_ne_pending (h : q.Ends) : q.take ≠ (.pending, q') := by
  intro htake
  obtain ⟨-, hempty, hopen⟩ := poll_of_pending (poll_of_take htake).1
  rcases h with hclosed | ⟨c, hmem, -⟩
  · rw [hclosed] at hopen
    cases hopen
  · rw [hempty] at hmem
    cases hmem

/-- Taking anything but the end leaves the end in the queue. -/
theorem Ends.take {taken : Taken} (h : q.Ends) (htake : q.take = (taken, q'))
    (hdata : ∀ c ∈ taken.toList, c.data ≠ []) : q'.Ends := by
  rcases h with hclosed | ⟨c, hmem, hend⟩
  · have hsame := q.closed_take
    rw [htake] at hsame
    exact .inl (hsame.trans hclosed)
  · rw [toList_take htake, List.mem_append] at hmem
    exact .inr ⟨c, hmem.resolve_left (fun htaken => hdata c htaken hend), hend⟩

theorem Ends.poll (h : q.Ends) : (q.poll).2.Ends := by
  rw [Ends, closed_poll, toList_poll]
  exact h

theorem Ends.produce (h : q.Ends) (act : ChunkAct) : (q.produce act).1.Ends := by
  rcases h with hclosed | ⟨c, hmem, hend⟩
  · refine .inl ?_
    rcases q.produce_cases act with heq | ⟨c, channel, -, hopen, -, -, -⟩
      | ⟨channel, -, hkept, heq⟩
    · rw [heq]
      exact hclosed
    · rw [hclosed] at hopen
      cases hopen
    · rw [heq]
      exact hkept hclosed
  · refine .inr ⟨c, ?_, hend⟩
    rw [toList_produce]
    exact List.mem_append_left _ hmem

end ChunkQueue

/-- The queue leads to the end of the body, if there is one. -/
def Supply.QueueEnds {σ : Type} (s : Supply σ) : Prop :=
  ∀ q, s.queue = some q → q.Ends

/-! ## Bodies -/

/-- The call stopped because the buffer is full, because everything is written, or
because the body is shorter than was declared. -/
def Written.Fills {π σ : Type} (w : Written π σ) : Prop :=
  w.result = .ok .inProgress ∧ w.dst.room = 0 ∨ w.result = .ok .done
    ∨ ∃ length written, w.result = .error (.shortBody length written)

theorem Buffer.room_append_take {dst : Buffer} {x : Bytes} (h : dst.room ≤ x.length) :
    (dst.append (x.take dst.room)).room = 0 := by
  rw [room_append, List.length_take]
  omega

section Reading

variable {σ : Type} [Source σ] (hσ : Source.Prompt σ)

include hσ

theorem FixedBody.fill_fills (f : FixedBody) (x : σ) (queue : Option ChunkQueue)
    (dst : Buffer) :
    (f.fill x queue dst).Fills := by
  have hanswer :
      ∀ {f : FixedBody} {dst filled : Buffer} {x x' : σ} {report : ReadReport},
      ¬ f.length - f.written = 0 → ¬ dst.room = 0 →
      dst.lend dst.length (min (f.length - f.written) dst.room) x
        = (report, filled, x') →
      report = .ended ∨ ∃ n,
          report = .data n ∧ 0 < n ∧ n ≤ min (f.length - f.written) dst.room := by
    intro f dst filled x x' report hmissing hroom hread
    obtain ⟨slice, hslice, -, -, -⟩ := Buffer.lend_reads (Nat.min_le_right _ _) hread
    have hprompt :=
      hσ x (List.replicate (min (f.length - f.written) dst.room) 0) (by simp; omega)
    rwa [hslice, List.length_replicate] at hprompt
  fun_induction fill f x queue dst with
  | case1 f x dst hdone => exact .inr (.inl rfl)
  | case2 f x dst hdone hroom => exact .inl ⟨rfl, hroom⟩
  | case3 f x dst hdone hroom size n filled x' hread hover =>
    obtain hended | ⟨n', hdata, -, hle⟩ := hanswer hdone hroom hread
    · cases hended
    · cases hdata
      simp only [size] at hover
      omega
  | case4 f x dst hdone hroom size filled x' hread hover =>
    obtain hended | ⟨n', hdata, hpos, -⟩ := hanswer hdone hroom hread
    · cases hended
    · cases hdata
      omega
  | case5 f x dst hdone hroom size n filled x' hread hover hn ih => exact ih
  | case6 f x dst hdone hroom size filled x' hread
  | case8 f x dst hdone hroom size e filled x' hread =>
    obtain hended | ⟨n', hdata, -⟩ := hanswer hdone hroom hread
    · cases hended
    · cases hdata
  | case7 f x dst hdone hroom size filled x' hread => exact .inr (.inr ⟨_, _, rfl⟩)

/-- With room left, an attempt to cut a chunk brings a chunk or the end. -/
theorem Cut.fromSource_of_prompt {maxChunk : Nat} {x : σ} {dst : Buffer}
    (hmax : 0 < maxChunk) (hroom : dst.room ≠ 0) :
    (fromSource maxChunk x dst).1 ≠ .stalled
      ∧ ∀ failure, (fromSource maxChunk x dst).1 ≠ .failed failure := by
  have hpos := lent_pos hmax dst.room
  have hprompt := hσ x (List.replicate (lent maxChunk dst.room) 0) (by simp; omega)
  rcases hread :
    Source.read x (List.replicate (lent maxChunk dst.room) 0) with ⟨report, slice, x'⟩
  rw [hread, List.length_replicate] at hprompt
  rw [fromSource_of_read hroom hread]
  obtain rfl | ⟨n, rfl, hn, hle⟩ := hprompt
  · simp [ofRead]
  · simp only [ofRead]
    rw [if_neg (by omega), if_neg (by omega)]
    split <;> simp

end Reading

namespace ChunkedBody

/-- The body can come to its end without waiting: its chunks can carry data, and
its last chunk is in flight or the queue leads to one. -/
structure Closing {σ : Type} (c : ChunkedBody) (s : Supply σ) : Prop where
  carries : 0 < c.maxChunk
  ending : (∃ f, c.inFlight = some f ∧ f.chunk.isLast = true) ∨ s.QueueEnds

/-- The call filled its buffer or came to an end, and the next one can. -/
structure Flows {σ : Type} (w : Written ChunkedBody σ) : Prop where
  fills : w.Fills
  closing : w.result = .ok .inProgress → w.state.Closing w.supply

section Sending

variable {σ : Type} {c c' : ChunkedBody} {s : Supply σ} {f : InFlight}
  {dst dst' : Buffer}

theorem flows_done : Flows (⟨.ok .done, c, s, dst⟩ : Written ChunkedBody σ) :=
  ⟨.inr (.inl rfl), fun hresult => by cases hresult⟩

/-- A chunk that is cut has filled the buffer. -/
theorem flows_of_cut (h : c.send f dst = (false, c', dst'))
    (hcarries : 0 < c.maxChunk) (hending : f.chunk.isLast = true ∨ s.QueueEnds) :
    Flows ⟨.ok .inProgress, c', s, dst'⟩ := by
  rw [send_eq] at h
  split at h
  · cases h
  · next hrest =>
    cases h
    refine ⟨.inl ⟨rfl, Buffer.room_append_take (by omega)⟩,
      fun _ => ⟨hcarries, hending.imp_left ?_⟩⟩
    exact fun hlast => ⟨_, rfl, hlast⟩

theorem of_sent (h : c.send f dst = (true, c', dst')) :
    c'.maxChunk = c.maxChunk ∧ c'.inFlight = none
      ∧ (¬ c'.isDone = true → f.chunk.isLast = false) := by
  rw [send_eq] at h
  split at h
  · cases h
    refine ⟨rfl, rfl, fun hdone => ?_⟩
    rw [Bool.eq_false_iff]
    exact fun hlast => hdone (by simp [isDone, hlast])
  · cases h

theorem sendLast_flows (hcarries : 0 < c.maxChunk) : Flows (c.sendLast s dst) := by
  unfold sendLast
  rcases hsend : c.send { chunk := Chunk.last } dst with ⟨_ | _, c', dst'⟩
  · exact flows_of_cut hsend hcarries (.inl rfl)
  · exact flows_done

theorem drainQueue_flows (c : ChunkedBody) (body : Option σ) (queue : ChunkQueue)
    (dst : Buffer) (hcarries : 0 < c.maxChunk) (h : queue.Ends) :
    Flows (c.drainQueue body queue dst) := by
  have hlater : ∀ {q q' : ChunkQueue} {chunk : Chunk}, q.Ends →
      q.take = (.chunk chunk, q') → chunk.isLast = false → q'.Ends := by
    intro q q' chunk hends htake hopen
    refine hends.take htake (fun c hmem hdata => ?_)
    rw [List.mem_singleton.mp hmem] at hdata
    rw [Chunk.isLast, hdata] at hopen
    cases hopen
  fun_induction drainQueue c body queue dst with
  | case1 c queue dst queue' htake => exact absurd htake h.take_ne_pending
  | case2 c queue dst queue' htake => exact sendLast_flows hcarries
  | case3 c queue dst chunk queue' htake c' dst' hsend =>
    refine flows_of_cut hsend hcarries ?_
    cases hlast : chunk.isLast with
    | true => exact .inl rfl
    | false =>
      refine .inr (fun q hq => ?_)
      cases hq
      exact hlater h htake hlast
  | case4 c queue dst chunk queue' htake c' dst' hsend hdone => exact flows_done
  | case5 c queue dst chunk queue' htake c' dst' hsend hdone ih =>
    obtain ⟨hmax, -, hopen⟩ := of_sent hsend
    exact ih (hmax ▸ hcarries) (hlater h htake (hopen hdone))

theorem afterBody_flows (hcarries : 0 < c.maxChunk) (h : s.QueueEnds) :
    Flows (c.afterBody s dst) := by
  obtain ⟨body, queue⟩ := s
  cases queue with
  | none => exact sendLast_flows hcarries
  | some q => exact c.drainQueue_flows body q dst hcarries (h q rfl)

end Sending

variable {σ : Type} [Source σ] (hσ : Source.Prompt σ)

include hσ

theorem drainBody_flows (c : ChunkedBody) (x : σ) (queue : Option ChunkQueue)
    (dst : Buffer) (hcarries : 0 < c.maxChunk) (h : Supply.QueueEnds ⟨some x, queue⟩) :
    Flows (c.drainBody x queue dst) := by
  fun_induction drainBody c x queue dst with
  | case1 c x dst x' dst' hcut ih => exact ih hcarries h
  | case2 c x dst chunk x' dst' hcut c' dst'' hsend =>
    exact flows_of_cut hsend hcarries (.inr h)
  | case3 c x dst chunk x' dst' hcut c' dst'' hsend ih =>
    exact ih ((of_sent hsend).1 ▸ hcarries) h
  | case4 c x dst x' dst' hcut =>
    obtain rfl := Cut.dst_of_unwritten hcut (by simp)
    by_cases hroom : dst'.room = 0
    · exact ⟨.inl ⟨rfl, hroom⟩, fun _ => ⟨hcarries, .inr h⟩⟩
    · exact absurd (congrArg Prod.fst hcut)
        (Cut.fromSource_of_prompt hσ hcarries hroom).1
  | case5 c x dst x' dst' hcut => exact afterBody_flows hcarries h
  | case6 c x dst failure x' dst' hcut =>
    by_cases hroom : dst.room = 0
    · rw [Cut.fromSource_full hroom] at hcut
      cases hcut
    · exact absurd (congrArg Prod.fst hcut)
        ((Cut.fromSource_of_prompt hσ hcarries hroom).2 failure)

theorem next_flows (c : ChunkedBody) (s : Supply σ) (dst : Buffer)
    (hcarries : 0 < c.maxChunk) (h : s.QueueEnds) : Flows (c.next s dst) := by
  unfold next
  split
  · exact drainBody_flows hσ c _ s.queue dst hcarries h
  · exact afterBody_flows hcarries h

theorem write_flows (c : ChunkedBody) (s : Supply σ) (dst : Buffer) (h : c.Closing s) :
    Flows (c.write s dst) := by
  obtain ⟨hcarries, hending⟩ := h
  unfold write
  split
  · exact flows_done
  · cases hflight : c.inFlight with
    | none =>
      refine next_flows hσ c s dst hcarries (hending.resolve_left ?_)
      rw [hflight]
      simp
    | some f =>
      have hqueue : f.chunk.isLast = true ∨ s.QueueEnds := by
        refine hending.imp_left ?_
        rintro ⟨f', hf', hlast⟩
        cases hflight.symm.trans hf'
        exact hlast
      simp only
      rcases hsend : c.send f dst with ⟨_ | _, c', dst'⟩
      · exact flows_of_cut hsend hcarries hqueue
      · obtain ⟨hmax, -, hopen⟩ := of_sent hsend
        simp only
        split
        · exact flows_done
        · next hdone =>
          refine next_flows hσ c' s dst' (hmax ▸ hcarries) (hqueue.resolve_left ?_)
          simp [hopen hdone]

end ChunkedBody

/-! ## Messages -/

/-- What is written of the body can come to its end without waiting. -/
def Payload.Closing {σ : Type} (b : Payload) (s : Supply σ) : Prop :=
  match b with
  | .chunked c => c.Closing s
  | .fixed _ | .empty => True

/-- What is left of the message can come to its end without waiting. -/
def Encoder.Closing {σ : Type} (e : Encoder) (s : Supply σ) : Prop :=
  match e.phase with
  | .head _ => s.QueueEnds
  | .body b => b.Closing s
  | .done | .failed => True

theorem Payload.closing_start {σ : Type} {framing : Framing} {limits : Limits}
    {s : Supply σ} (h : s.QueueEnds) :
    (start framing limits.maxChunk).Closing s := by
  cases framing with
  | chunked => exact ⟨limits.maxChunk_pos, .inr h⟩
  | length n | empty => trivial

/-- Only the queue matters for it, and what else happens to a queue does
not take its end away. -/
theorem Encoder.Closing.of_queue {σ : Type} {e : Encoder} {s s' : Supply σ}
    (h : e.Closing s) (hqueue : s.QueueEnds → s'.QueueEnds) : e.Closing s' := by
  unfold Closing at h ⊢
  cases hphase : e.phase with
  | head head =>
    rw [hphase] at h
    exact hqueue h
  | body b =>
    rw [hphase] at h
    cases b with
    | chunked c => exact ⟨h.carries, h.ending.imp_right hqueue⟩
    | fixed f | empty => trivial
  | done | failed => trivial

section Messages

variable {σ : Type} [Source σ]

theorem Encoder.Closing.poll {e : Encoder} {s : Supply σ} (h : e.Closing s) :
    e.Closing (e.poll s).2 := by
  refine h.of_queue (fun hends => ?_)
  rcases e.poll_cases s with hsame | ⟨x, queue, rfl, hasked, -⟩
    | ⟨body, q, rfl, hasked⟩
  · rw [hsame]
    exact hends
  · rw [hasked]
    exact hends
  · rw [hasked]
    intro q' hq'
    cases hq'
    exact (hends q rfl).poll

variable (hσ : Source.Prompt σ)

include hσ

theorem Payload.write_fills (b : Payload) (s : Supply σ) (dst : Buffer)
    (h : b.Closing s) :
    (b.write s dst).Fills
      ∧ ((b.write s dst).result = .ok .inProgress →
        (b.write s dst).state.Closing (b.write s dst).supply) := by
  cases b with
  | fixed f =>
    refine ⟨?_, fun _ => trivial⟩
    show (f.write s dst).Fills
    unfold FixedBody.write
    split
    · exact .inr (.inl rfl)
    · split
      · exact .inr (.inr ⟨_, _, rfl⟩)
      · exact FixedBody.fill_fills hσ f _ s.queue dst
  | chunked c =>
    obtain ⟨hfills, hclosing⟩ := c.write_flows hσ s dst h
    exact ⟨hfills, hclosing⟩
  | empty => exact ⟨.inr (.inl rfl), fun _ => trivial⟩

namespace Encoder

theorem writeBody_fills (e : Encoder) (b : Payload) (s : Supply σ) (dst : Buffer)
    (h : b.Closing s) :
    (e.writeBody b s dst).Fills
      ∧ (e.writeBody b s dst).state.Closing (e.writeBody b s dst).supply := by
  obtain ⟨hfills, hclosing⟩ := b.write_fills hσ s dst h
  refine ⟨hfills, ?_⟩
  simp only [writeBody, Closing]
  rcases hresult : (b.write s dst).result with failure | _ | _
  · trivial
  · exact hclosing hresult
  · trivial

/-- A call fills its buffer or comes to an end, unless the encoder
has failed before. -/
theorem write_fills (e : Encoder) (s : Supply σ) (dst : Buffer) (h : e.Closing s)
    (hnot : e.phase ≠ .failed) :
    (e.write s dst).Fills ∧ (e.write s dst).state.Closing (e.write s dst).supply := by
  obtain ⟨plan, limits, phase⟩ := e
  cases phase with
  | head head =>
    obtain ⟨hdst, hdone, -⟩ := head.write_spec dst
    simp only [write, hdst]
    split
    · exact writeBody_fills hσ _ _ s _ (Payload.closing_start h)
    · next hcut =>
      rw [hdone, decide_eq_true_eq] at hcut
      exact ⟨.inl ⟨rfl, Buffer.room_append_take (by omega)⟩, h⟩
  | body b => exact writeBody_fills hσ _ b s dst h
  | done => exact ⟨.inr (.inl rfl), trivial⟩
  | failed => exact absurd rfl hnot

end Encoder

end Messages

/-! ## Runs -/

namespace Run

/-- What a run keeps whose supply does not make it wait: the rest of the
message can come to its end, and an encoder that has failed has said
that the body is short. -/
structure Flowing {σ : Type} (r : Run σ) : Prop where
  closing : r.encoder.Closing r.supply
  failed : r.encoder.phase = .failed →
    ∃ length written, .error (.shortBody length written) ∈ r.results

theorem flowing_start {σ : Type} {p : Plan} {limits : Limits} {s : Supply σ}
    (h : s.QueueEnds) :
    (start p limits s).Flowing where
  closing := h
  failed hfailed := by cases hfailed

variable {σ : Type} [Source σ] {r : Run σ}

theorem Flowing.write (h : r.Flowing) (hσ : Source.Prompt σ) (dst : Buffer) :
    (r.encoder.write r.supply dst).Fills
      ∨ (r.encoder.write r.supply dst).result = .error .aborted
        ∧ ∃ length written, .error (.shortBody length written) ∈ r.results := by
  by_cases hphase : r.encoder.phase = .failed
  · refine .inr ⟨?_, h.failed hphase⟩
    rw [Encoder.write, hphase]
  · exact .inl (r.encoder.write_fills hσ r.supply dst h.closing hphase).1

theorem Flowing.step (h : r.Flowing) (hσ : Source.Prompt σ) (move : Move σ) :
    (r.step move).Flowing := by
  obtain ⟨hclosing, hfailed⟩ := h
  cases move with
  | write dst =>
    by_cases hphase : r.encoder.phase = .failed
    · obtain ⟨length, written, hshort⟩ := hfailed hphase
      refine ⟨?_, fun _ => ⟨length, written, List.mem_append_left _ hshort⟩⟩
      simp only [Run.step, Encoder.write, hphase]
      exact hclosing
    · obtain ⟨hfills, hnext⟩ := r.encoder.write_fills hσ r.supply dst hclosing hphase
      refine ⟨hnext, fun hover => ?_⟩
      -- a call that fills its buffer or comes to an end fails only
      -- as a short body
      obtain ⟨failure, herror⟩ :=
        @Encoder.error_of_write _ _ r.encoder r.supply dst hover
      rcases hfills with ⟨hresult, -⟩ | hresult | ⟨length, written, hresult⟩
      · cases herror.symm.trans hresult
      · cases herror.symm.trans hresult
      · exact ⟨length, written,
          List.mem_append_right _ (List.mem_singleton.mpr hresult.symm)⟩
  | poll => exact ⟨hclosing.poll, hfailed⟩
  | feed f => exact ⟨hclosing.of_queue id, hfailed⟩
  | produce act =>
    simp only [Run.step]
    cases hq : r.supply.queue with
    | none => exact ⟨hclosing, hfailed⟩
    | some q =>
      refine ⟨hclosing.of_queue (fun hends q' hq' => ?_), hfailed⟩
      cases hq'
      exact (hends q hq).produce act

theorem Flowing.after (h : r.Flowing) (hσ : Source.Prompt σ) (moves : List (Move σ)) :
    (r.after moves).Flowing := by
  induction moves generalizing r with
  | nil => exact h
  | cons move moves ih => exact ih (h.step hσ move)

end Run

end HttpWire
