import HttpWire.Proofs.Progress

/-!
# What a receiver makes of a run

The bytes of a run are a message to a receiver exactly if some call has returned
that the message is written. Then it is the message that was planned, with the
body that was delivered, and whatever follows on the connection is left for the
next reader (`Run.receive_of_done`). Before that call the bytes are incomplete,
wherever they were cut and for whatever reason nothing more came; the call brings
the last of them, and the calls after it bring nothing
(`Run.incomplete_until_done`).

Both are read off `Run.Follows`: of a run with a record of its source, since only
the record says what a source handed out.
-/

namespace HttpWire

namespace Run

variable {σ : Type}

section Received

variable {startLine : StartLine} {hs : Headers} {options : PlanOptions} {p : Plan}
  {limits : Limits} {r : Run (Recorded σ)}

theorem Follows.receive (h : r.Follows p limits)
    (hmake : Plan.make startLine hs options = .ok p) (hdone : r.IsDone) :
    ∃ w, Delivered limits.maxChunk p.framing r.supply r.sent w
      ∧ ∀ rest, Receiver.message options.bodyIgnored (r.emitted ++ rest)
        = .complete ⟨startLine.written, hs, w.received⟩ rest := by
  have hholds := h.holds
  rw [h.done.mp hdone] at hholds
  obtain ⟨b, out, hemitted, hb, hcomplete⟩ := hholds
  obtain ⟨w, hdelivered, hcarries, hwire⟩ := hb.whole h.valid hcomplete
  refine ⟨w, hdelivered, fun rest => ?_⟩
  rw [hemitted, hwire]
  exact Plan.reads_message hmake hcarries rest

theorem Follows.incomplete (h : r.Follows p limits)
    (hmake : Plan.make startLine hs options = .ok p) (hnot : ¬ r.IsDone) :
    Receiver.message options.bodyIgnored r.emitted = .incomplete := by
  obtain ⟨w, more, hcarries, hwire, hmore⟩ :=
    h.holds.part h.valid (fun hphase => hnot (h.done.mpr hphase))
  exact (Plan.reads_message hmake hcarries).incomplete
    (Receiver.stable_message _) hwire hmore

end Received

variable [Source σ] {m : Message σ} {options : PlanOptions} {p : Plan}
  {queue : Option ChunkQueue}

/-- A run is in order, with a record of its source, and without the
record it is the same run. -/
theorem follows_recorded (limits : Limits) (moves : List (Move σ))
    (hqueue : ∀ q, queue = some q → q.Reachable) :
    ∃ r : Run (Recorded σ),
      r = (start p limits (Supply.recorded ⟨m.body, queue⟩)).after
        (moves.map Move.recorded)
      ∧ r.Follows p limits
      ∧ r.forget = (start p limits ⟨m.body, queue⟩).after moves := by
  refine ⟨_, rfl, (follows_start hqueue).after moves, ?_⟩
  rw [forget_after, forget_start]

/-- A receiver takes the bytes of a run that is done for the message that was
planned: the start line, the fields as they were given, and the body that was
delivered. It leaves whatever follows them. -/
theorem receive_of_done (limits : Limits) (moves : List (Move σ))
    (hplan : m.plan options = .ok p) (hqueue : ∀ q, queue = some q → q.Reachable)
    (hdone : ((start p limits ⟨m.body, queue⟩).after moves).IsDone) :
    let run := (start p limits ⟨m.body, queue⟩).after moves
    let recorded := (start p limits (Supply.recorded ⟨m.body, queue⟩)).after
      (moves.map Move.recorded)
    recorded.forget = run
      ∧ ∃ w, Delivered limits.maxChunk p.framing recorded.supply recorded.sent w
        ∧ ∀ rest, Receiver.message options.bodyIgnored (run.emitted ++ rest)
          = .complete ⟨m.startLine.written, m.headers, w.received⟩ rest := by
  obtain ⟨r, hr, hfollows, hforget⟩ :=
    follows_recorded (m := m) (p := p) limits moves hqueue
  rw [← hforget] at hdone
  obtain ⟨w, hdelivered, hreceive⟩ := hfollows.receive hplan hdone
  intro run recorded
  have hrun : run = r.forget := hforget.symm
  have hrecorded : recorded = r := hr.symm
  rw [hrun, hrecorded]
  exact ⟨rfl, w, hdelivered, hreceive⟩

/-- A chunked upload with two bytes in memory. -/
def upload : Message Bytes where
  startLine := .request (some (Bytes.ofString "PUT")) (some (Bytes.ofString "/upload"))
  headers := [⟨Bytes.ofString "Transfer-Encoding", Bytes.ofString "chunked"⟩]
  body := some (Bytes.ofString "hi")

/-- The plan that belongs to the upload. -/
def uploadPlan : Plan where
  startLine := upload.startLine.written
  headers := upload.headers
  framing := .chunked
  chunked := true
  closesConnection := false
  contentLength := 0
  bodyIgnored := false

/-- It is written in two calls; before them a chunk is queued and
the queue closed. -/
def uploadMoves : List (Move Bytes) :=
  [.produce (.send (Bytes.ofString "!") [.extension (Bytes.ofString "n") none]),
    .produce .close, .write (Buffer.empty 20), .poll, .write (Buffer.empty 100)]

theorem receive_upload :
    ((start uploadPlan {} ⟨upload.body, some {}⟩).after uploadMoves).IsDone
      ∧ ∃ w : WireBody, ∀ rest,
        Receiver.message false
            (((start uploadPlan {} ⟨upload.body, some {}⟩).after uploadMoves).emitted
              ++ rest)
          = .complete ⟨uploadPlan.startLine, upload.headers, w.received⟩ rest := by
  have hplan : upload.plan {} = .ok uploadPlan := rfl
  have hdone :
      ((start uploadPlan {} ⟨upload.body, some {}⟩).after uploadMoves).IsDone := by
    decide +kernel
  obtain ⟨-, w, -, hreceive⟩ := receive_of_done {} uploadMoves hplan
    ChunkQueue.Reachable.of_fresh hdone
  exact ⟨hdone, w, hreceive⟩

/-- A run is incomplete to a receiver until a call returns that the message is
written. That call appends the last bytes of the message; every later one returns
the same, appends nothing and changes nothing. -/
theorem incomplete_until_done (limits : Limits) (moves : List (Move σ))
    (hplan : m.plan options = .ok p) (hqueue : ∀ q, queue = some q → q.Reachable) :
    let run := (start p limits ⟨m.body, queue⟩).after moves
    (¬ run.IsDone → Receiver.message options.bodyIgnored run.emitted = .incomplete)
      ∧ (¬ run.IsDone → ∀ dst, (run.encoder.write run.supply dst).result = .ok .done →
        ∃ last body,
          last ≠ [] ∧ (run.encoder.write run.supply dst).dst = dst.append last
          ∧ Receiver.message options.bodyIgnored (run.emitted ++ last)
            = .complete ⟨m.startLine.written, m.headers, body⟩ [])
      ∧ (run.IsDone → ∀ dst,
        run.encoder.write run.supply dst = ⟨.ok .done, run.encoder, run.supply, dst⟩
          ∧ run.encoder.poll run.supply = (.ready, run.supply)) := by
  obtain ⟨r, -, hfollows, hforget⟩ :=
    follows_recorded (m := m) (p := p) limits moves hqueue
  intro run
  have hrun : run = r.forget := hforget.symm
  rw [hrun]
  refine ⟨hfollows.incomplete hplan, ?_, ?_⟩
  · intro hnot dst hresult
    have hmap : r.forget.encoder.write r.forget.supply dst
        = (r.encoder.write r.supply dst).map Recorded.source :=
      Encoder.write_map Recorded.hom_source r.encoder r.supply dst
    have hnext := hfollows.step (.write dst)
    have hdone : (r.step (Move.recorded (.write dst))).IsDone := by
      rw [hmap] at hresult
      refine List.mem_append_right _ ?_
      rw [List.mem_singleton]
      exact hresult.symm
    obtain ⟨more, hdst, -⟩ := r.encoder.write_advances dst (by
      have hholds := hfollows.holds
      rw [← hfollows.plan, ← hfollows.limits] at hholds
      exact hholds)
    obtain ⟨w, -, hreceive⟩ := hnext.receive hplan hdone
    have hwhole : Receiver.message options.bodyIgnored (r.emitted ++ more)
        = .complete ⟨m.startLine.written, m.headers, w.received⟩ [] := by
      have hemitted :
          (r.step (Move.recorded (.write dst))).emitted = r.emitted ++ more := by
        show r.emitted ++ (r.encoder.write r.supply dst).dst.bytes.drop dst.length = _
        rw [hdst, Buffer.bytes_append]
        exact congrArg (r.emitted ++ ·) List.drop_left
      have hnothing := hreceive []
      rwa [List.append_nil, hemitted] at hnothing
    refine ⟨more, w.received, ?_, by rw [hmap]; exact hdst, hwhole⟩
    intro hnil
    rw [hnil, List.append_nil, hfollows.incomplete hplan hnot] at hwhole
    cases hwhole
  · intro hdone dst
    have hphase : r.forget.encoder.phase = .done := hfollows.done.mp hdone
    rw [Encoder.write, Encoder.poll, hphase]
    exact ⟨rfl, rfl⟩

/-- Stopped in the middle of its body, the upload is incomplete. -/
theorem incomplete_upload :
    ¬ ((start uploadPlan {} ⟨upload.body, some {}⟩).after
      [.write (Buffer.empty 60)]).IsDone
      ∧ Receiver.message false
          ((start uploadPlan {} ⟨upload.body, some {}⟩).after
            [.write (Buffer.empty 60)]).emitted
        = .incomplete := by
  have hplan : upload.plan {} = .ok uploadPlan := rfl
  have hnot : ¬ ((start uploadPlan {} ⟨upload.body, some {}⟩).after
      [.write (Buffer.empty 60)]).IsDone := by
    decide +kernel
  exact ⟨hnot, (incomplete_until_done {} [.write (Buffer.empty 60)] hplan
    ChunkQueue.Reachable.of_fresh).1 hnot⟩

end Run

end HttpWire
