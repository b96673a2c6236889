import HttpWire.Proofs.Bounds
import HttpWire.Proofs.Delivery

/-!
# Bodies of a declared length, over a whole run

A declared length is a promise made on the wire before the first byte of the body
is known, so it has to be kept whatever the source does. `Run.declared_exact` says
how: at any moment of a run, what was emitted behind the head is what the source
has handed out, and that is never more than was declared; a call returns that the
message is written exactly if it is all of it; and the next call reads as the law
of its reads allows (`FixedBody.Fetched`).

The count that the encoder keeps is the length of what was handed out. That is all
that has to be known of a state (`Payload.Holds.fixed`), since one call was
already told by its reads.
-/

namespace HttpWire

variable {σ : Type}

theorem Payload.Holds.fixed {b : Payload} {sent : List Chunk} {p : Plan}
    {maxChunk n : Nat} {s : Supply (Recorded σ)} {out : Bytes}
    (h : b.Holds sent p maxChunk s out) (hframing : p.framing = .length n) :
    b = .fixed ⟨n, s.handed.length⟩ ∧ s.handed = out ∧ s.handed.length ≤ n := by
  cases b with
  | fixed f =>
    obtain ⟨length, written⟩ := f
    obtain ⟨hlength, hhanded, hwritten, hle⟩ := h
    simp only at hwritten hle hlength
    rw [hframing] at hlength
    cases hlength
    refine ⟨?_, hhanded, ?_⟩
    · rw [hhanded, hwritten]
    · rw [hhanded, ← hwritten]
      exact hle
  | chunked c => exact absurd (hframing.symm.trans h.1) (by simp)
  | empty => exact absurd (hframing.symm.trans h.1) (by simp)

theorem Phase.Holds.fixed {phase : Phase} {sent : List Chunk} {p : Plan}
    {maxChunk n : Nat} {s : Supply (Recorded σ)} {emitted : Bytes}
    (h : phase.Holds sent p maxChunk s emitted) (hframing : p.framing = .length n)
    (hn : 0 < n) :
    s.handed.length ≤ n
      ∧ (emitted = p.headWire ++ s.handed ∨ s.handed = [] ∧ emitted <+: p.headWire)
      ∧ (∀ b, phase = .body b → b = .fixed ⟨n, s.handed.length⟩)
      ∧ (phase = .done ↔ s.handed.length = n) := by
  cases phase with
  | head head =>
    obtain ⟨hemitted, -, hstart⟩ := h
    have hhanded := (hstart.fixed hframing).2.1
    rw [hhanded]
    refine ⟨Nat.zero_le n, .inr ⟨rfl, head.rest, hemitted⟩, by simp, ?_⟩
    simp only [reduceCtorEq, List.length_nil, false_iff]
    omega
  | body b =>
    obtain ⟨out, hemitted, hb, hnot⟩ := h
    obtain ⟨rfl, hhanded, hle⟩ := hb.fixed hframing
    refine ⟨hle, .inl (hhanded ▸ hemitted), fun b hb => ?_,
      iff_of_false (by simp) hnot⟩
    cases hb
    rfl
  | done =>
    obtain ⟨b, out, hemitted, hb, hcomplete⟩ := h
    obtain ⟨rfl, hhanded, hle⟩ := hb.fixed hframing
    exact ⟨hle, .inl (hhanded ▸ hemitted), by simp, iff_of_true rfl hcomplete⟩
  | failed =>
    obtain ⟨b, out, hemitted, hb, hnot⟩ := h
    obtain ⟨rfl, hhanded, hle⟩ := hb.fixed hframing
    exact ⟨hle, .inl (hhanded ▸ hemitted), by simp, iff_of_false (by simp) hnot⟩

namespace Encoder

/-- What a writing call comes to when a body of `n` bytes was planned. A head that
does not fit is all that is written. Behind it the body is read, and without a
source it is short from its first byte. -/
def Fetches (n : Nat) (e : Encoder) (s : Supply (Recorded σ)) (dst : Buffer)
    (w : Written Encoder (Recorded σ)) : Prop :=
  match e.phase with
  | .done => w = ⟨.ok .done, e, s, dst⟩
  | .failed => w = ⟨.error .aborted, e, s, dst⟩
  | .head _ | .body _ =>
    if dst.room < e.backlog.length then
      w.result = .ok .inProgress ∧ w.supply = s
        ∧ w.dst = dst.append (e.backlog.take dst.room)
    else
      ∃ got, w.dst = dst.append (e.backlog ++ got) ∧
        match s.body with
        | none => w.result = .error (.shortBody n 0) ∧ w.supply = s ∧ got = []
        | some r =>
          ∃ r' events, w.supply = ⟨some r', s.queue⟩ ∧ r'.events = r.events ++ events
            ∧ FixedBody.Fetched n r.handed.length (dst.room - e.backlog.length)
              events got w.result

variable [Source σ]

/-- A call that comes to its body reads so, with what was handed out
before it as the count. -/
theorem writeBody_fetches (e : Encoder) {n : Nat} {s : Supply (Recorded σ)}
    (dst : Buffer)
    (hless : s.handed.length < n) :
    ∃ got, (e.writeBody (.fixed ⟨n, s.handed.length⟩) s dst).dst = dst.append got ∧
      match s.body with
      | none => (e.writeBody (.fixed ⟨n, s.handed.length⟩) s dst).result
        = .error (.shortBody n 0)
          ∧ (e.writeBody (.fixed ⟨n, s.handed.length⟩) s dst).supply = s ∧ got = []
      | some r => ∃ r' events,
        (e.writeBody (.fixed ⟨n, s.handed.length⟩) s dst).supply = ⟨some r', s.queue⟩
          ∧ r'.events = r.events ++ events
          ∧ FixedBody.Fetched n r.handed.length dst.room events got
            (e.writeBody (.fixed ⟨n, s.handed.length⟩) s dst).result := by
  have hnot : ¬ (FixedBody.isDone ⟨n, s.handed.length⟩) = true := by
    rw [FixedBody.isDone, beq_iff_eq]
    simp only
    omega
  obtain ⟨body, queue⟩ := s
  simp only [writeBody, Payload.write, FixedBody.write, if_neg hnot]
  cases body with
  | none => exact ⟨[], dst.append_nil.symm, rfl, rfl, rfl⟩
  | some r =>
    obtain ⟨r', events, got, hdst, -, hsupply, hevents, hfetched⟩ :=
      FixedBody.fill_filled ⟨n, r.handed.length⟩ r queue dst (Nat.le_of_lt hless)
    exact ⟨got, hdst, r', events, hsupply, hevents, hfetched⟩

theorem write_fetches {e : Encoder} {sent : List Chunk} {n : Nat}
    {s : Supply (Recorded σ)} {emitted : Bytes}
    (h : e.phase.Holds sent e.plan e.limits.maxChunk s emitted)
    (hframing : e.plan.framing = .length n) (hn : 0 < n) (dst : Buffer) :
    e.Fetches n s dst (e.write s dst) := by
  obtain ⟨plan, limits, phase⟩ := e
  cases phase with
  | head head =>
    obtain ⟨-, -, hstart⟩ := h
    obtain ⟨hbody, hhanded, -⟩ := hstart.fixed hframing
    obtain ⟨hdst, hdone, -⟩ := head.write_spec dst
    simp only [Fetches, write, backlog]
    by_cases hfit : head.rest.length ≤ dst.room
    · rw [decide_eq_true hfit] at hdone
      rw [if_neg (Nat.not_lt.mpr hfit), if_pos hdone, hbody, hdst,
        List.take_of_length_le hfit]
      obtain ⟨got, hgot, hreads⟩ := writeBody_fetches ⟨plan, limits, .head head⟩
        (dst.append head.rest) (show s.handed.length < n by rw [hhanded]; exact hn)
      rw [Buffer.append_append] at hgot
      rw [Buffer.room_append] at hreads
      exact ⟨got, hgot, hreads⟩
    · rw [decide_eq_false hfit] at hdone
      rw [if_pos (Nat.not_le.mp hfit), if_neg (by simp [hdone])]
      exact ⟨rfl, rfl, hdst⟩
  | body b =>
    obtain ⟨out, -, hb, hnot⟩ := h
    obtain ⟨rfl, -, hle⟩ := hb.fixed hframing
    have hless : s.handed.length < n := Nat.lt_of_le_of_ne hle hnot
    obtain ⟨got, hgot, hreads⟩ :=
      writeBody_fetches ⟨plan, limits, .body (.fixed ⟨n, s.handed.length⟩)⟩ dst hless
    simp only [Fetches, write, backlog, Payload.backlog, List.length_nil,
      Nat.not_lt_zero, if_false, List.nil_append, Nat.sub_zero]
    exact ⟨got, hgot, hreads⟩
  | done | failed => rfl

end Encoder

namespace Run

/-- How a run stands that is to send a body of `n` bytes, with a
record of its source. -/
structure Declared [Source σ] (n : Nat) (p : Plan) (r : Run (Recorded σ)) : Prop where
  handed_le : r.supply.handed.length ≤ n
  /-- the head comes first, and until it is out nothing is read -/
  emitted : r.emitted = p.headWire ++ r.supply.handed ∨ r.supply.handed = []
    ∧ r.emitted <+: p.headWire
  counted : ∀ b, r.encoder.phase = .body b → b = .fixed ⟨n, r.supply.handed.length⟩
  done : r.IsDone ↔ r.supply.handed.length = n
  next : ∀ dst, r.encoder.Fetches n r.supply dst (r.encoder.write r.supply dst)
    ∧ ((r.encoder.write r.supply dst).result = .ok .done
      ↔ (r.encoder.write r.supply dst).supply.handed.length = n)

variable [Source σ]

theorem Follows.declared {p : Plan} {limits : Limits} {n : Nat}
    {r : Run (Recorded σ)} (h : r.Follows p limits)
    (hframing : p.framing = .length n) (hn : 0 < n) : r.Declared n p := by
  obtain ⟨hle, hemitted, hcounted, hdone⟩ := h.holds.fixed hframing hn
  refine ⟨hle, hemitted, hcounted, h.done.trans hdone, fun dst => ?_⟩
  -- what stands after the call says when the call returns that the
  -- message is written
  have hholds := h.holds
  have hnext := (h.step (.write dst)).holds.fixed hframing hn
  rw [← h.plan, ← h.limits] at hholds
  obtain ⟨-, -, -, -, -, -, hend⟩ := r.encoder.write_advances dst hholds
  exact ⟨Encoder.write_fetches hholds (h.plan ▸ hframing) hn dst,
    hend.trans hnext.2.2.2⟩

/-- Whatever a source does and however the calls are made, a body of a declared
length is as long as that and no longer, and it is what the source handed out. -/
theorem declared_exact {p : Plan} {n : Nat} (limits : Limits) (body : Option σ)
    {queue : Option ChunkQueue} (moves : List (Move σ))
    (hframing : p.framing = .length n) (hn : 0 < n)
    (hqueue : ∀ q, queue = some q → q.Reachable) :
    let recorded :=
      (start p limits (Supply.recorded ⟨body, queue⟩)).after (moves.map Move.recorded)
    recorded.forget = (start p limits ⟨body, queue⟩).after moves
      ∧ recorded.Declared n p := by
  have hfollows : ((start p limits (Supply.recorded ⟨body, queue⟩)).after
      (moves.map Move.recorded)).Follows p limits := (follows_start hqueue).after moves
  refine ⟨?_, hfollows.declared hframing hn⟩
  rw [forget_after, forget_start]

/-- Five bytes were declared, and the source ends after three of them. -/
def shortMoves : List (Move Scripted) :=
  [.write (Buffer.empty 60), .poll, .write (Buffer.empty 2), .write (Buffer.empty 8),
    .write (Buffer.empty 8)]

/-- A body that pauses twice and has three bytes. -/
def shortBody : Scripted where
  reads := [.data (Bytes.ofString "he"), .pending, .data [],
    .data (Bytes.ofString "l"), .ended]

theorem declared_exact_short :
    let recorded := (start { uploadPlan with framing := .length 5 } {}
      (Supply.recorded ⟨some shortBody, none⟩)).after (shortMoves.map Move.recorded)
    recorded.supply.handed = Bytes.ofString "hel"
      ∧ .error (.shortBody 5 3) ∈ recorded.results
      ∧ recorded.Declared 5 { uploadPlan with framing := .length 5 } := by
  refine ⟨by decide +kernel, by decide +kernel, ?_⟩
  exact (declared_exact {} (some shortBody) shortMoves rfl (by decide) (by simp)).2

end Run

end HttpWire
