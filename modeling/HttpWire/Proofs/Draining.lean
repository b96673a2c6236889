import HttpWire.Encoder.Drain
import HttpWire.Proofs.Consumption
import HttpWire.Proofs.Filling

/-!
# Draining a message without waiting

A message whose supply never makes it wait is written in as many calls as its
bytes need. All buffers but the last one are filled (`Run.Flowing.write`), and the
last one is not empty, since the call that returns that the message is written
brings bytes (`Run.Follows.gains`). So the calls are counted by a division.

They are also finitely many. What a run can emit is bounded by what it is fed
from: a source in memory hands out no more than it has, and the frames around it
cost at most five bytes for each byte of data (`Run.Settled.emitted_le`). A run
that went on filling its buffers would come to exceed that.

A body that is shorter than was declared ends the message too, and the calls after
that are aborted and write nothing.
-/

namespace HttpWire

/-! ## One round of draining -/

namespace Encoder

variable {σ : Type} [Source σ] {capacity calls : Nat}
  {outputs : List Bytes} {e : Encoder} {supply : Supply σ} {w : Written Encoder σ}
  (hw : e.write supply (Buffer.empty capacity) = w)

include hw

theorem drainFrom_of_inProgress (hresult : w.result = .ok .inProgress)
    (hsome : w.dst.bytes ≠ []) :
    drainFrom capacity outputs (calls + 1) e supply =
      drainFrom capacity (w.dst.bytes :: outputs) calls w.state w.supply := by
  subst hw
  rw [drainFrom, hresult]
  exact if_neg (mt List.isEmpty_iff.mp hsome)

theorem drainFrom_of_done (hresult : w.result = .ok .done) :
    drainFrom capacity outputs (calls + 1) e supply =
      ⟨.ok .done, w.state, w.supply, (w.dst.bytes :: outputs).reverse⟩ := by
  subst hw
  rw [drainFrom, hresult]

theorem drainFrom_of_error {failure : Failure} (hresult : w.result = .error failure) :
    drainFrom capacity outputs (calls + 1) e supply =
      ⟨.error failure, w.state, w.supply, (w.dst.bytes :: outputs).reverse⟩ := by
  subst hw
  rw [drainFrom, hresult]

end Encoder

/-! ## How much a run can emit -/

theorem Hex.width_le {n : Nat} (h : 0 < n) : width n ≤ n := by
  have hlog : Nat.log2 n < n := (Nat.log2_lt (by omega)).mpr Nat.lt_two_pow_self
  rw [width, if_neg (by omega)]
  omega

theorem Chunk.length_frames_le {frames : List Bytes} (h : ∀ d ∈ frames, d ≠ []) :
    ((frames.map ofData).flatMap wire).length ≤ 6 * frames.flatten.length := by
  induction frames with
  | nil => exact Nat.le_refl 0
  | cons d frames ih =>
    have hd : d ≠ [] := h d List.mem_cons_self
    have hpos := List.length_pos_iff.mpr hd
    have hwidth := Hex.width_le hpos
    have hmore := ih (fun x hx => h x (List.mem_cons_of_mem d hx))
    rw [List.map_cons, List.flatMap_cons, List.flatten_cons, List.length_append,
      List.length_append, length_wire_ofData hd]
    omega

namespace Run

/-- What a message can come to, of which so many bytes were handed out and
these chunks were sent. -/
def limit (p : Plan) (handed : Nat) (sent : List Chunk) : Nat :=
  p.headWire.length +
    match p.framing with
    | .length n => n
    | .chunked =>
      6 * handed + (sent.flatMap Chunk.wire).length + Chunk.last.wire.length
    | .empty => 0

section Limit

variable {σ : Type} {p : Plan} {limits : Limits} {r : Run (Recorded σ)}

theorem Settled.emitted_le (h : r.Settled p limits) :
    r.emitted.length ≤ limit p r.supply.handed.length r.sent := by
  obtain ⟨b, out, hb, -, hemitted, -⟩ := h.body
  have hle := hemitted.length_le
  rw [List.length_append] at hle
  refine Nat.le_trans hle (Nat.add_le_add_left ?_ _)
  cases b with
  | fixed f =>
    obtain ⟨hframing, -, hwritten, hbound⟩ := hb
    rw [hframing]
    simp only
    omega
  | chunked c =>
    obtain ⟨hframing, -, L, hkeeps⟩ := hb
    -- the frames of the ledger are those that were cut, some of those that were
    -- sent, and the one that ends them
    have hframes := Chunk.length_frames_le (fun d hd => (hkeeps.frames d hd).1)
    have hwire := congrArg List.length hkeeps.wire
    have hsent := congrArg (fun cs => (cs.flatMap Chunk.wire).length) hkeeps.taken
    have hlast : ((if L.closed then [Chunk.last] else []).flatMap Chunk.wire).length
        ≤ Chunk.last.wire.length := by
      split
      · exact Nat.le_of_eq (by rw [List.flatMap_singleton])
      · exact Nat.zero_le _
    rw [hframing, hkeeps.handed]
    simp only [ChunkedBody.Ledger.chunks, List.flatMap_append, List.length_append]
      at hwire hsent ⊢
    omega
  | empty =>
    obtain ⟨-, -, rfl⟩ := hb
    exact Nat.zero_le _

end Limit

/-! ## The last call -/

variable {σ : Type} [Source σ]

/-- The call that completes a message adds bytes to its buffer. -/
theorem Follows.gains {startLine : StartLine} {hs : Headers} {options : PlanOptions}
    {p : Plan} {limits : Limits} {r : Run (Recorded σ)} (h : r.Follows p limits)
    (hmake : Plan.make startLine hs options = .ok p) (hnot : ¬ r.IsDone)
    {dst : Buffer} (hresult : (r.encoder.write r.supply dst).result = .ok .done) :
    dst.length < (r.encoder.write r.supply dst).dst.length := by
  obtain ⟨out, hdst, -⟩ := r.encoder.write_appends r.supply dst
  have hemitted :
      (r.step (Move.recorded (.write dst))).emitted = r.emitted ++ out := by
    show r.emitted ++ (r.encoder.write r.supply dst).dst.bytes.drop dst.length = _
    rw [hdst, Buffer.drop_append]
  have hdone : (r.step (Move.recorded (.write dst))).IsDone :=
    List.mem_append_right _ (List.mem_singleton.mpr hresult.symm)
  obtain ⟨w, -, hreceive⟩ := (h.step (.write dst)).receive hmake hdone
  have hout : out ≠ [] := by
    intro hnil
    have hwhole := hreceive []
    rw [hemitted, hnil, List.append_nil, List.append_nil, h.incomplete hmake hnot]
      at hwhole
    cases hwhole
  have hpos := List.length_pos_iff.mpr hout
  rw [hdst, Buffer.length_append]
  omega

theorem gains_of_done {startLine : StartLine} {hs : Headers} {options : PlanOptions}
    {p : Plan} {limits : Limits} {s : Supply σ} {moves : List (Move σ)}
    (hmake : Plan.make startLine hs options = .ok p)
    (hqueue : ∀ q, s.queue = some q → q.Reachable)
    (hnot : ¬ ((start p limits s).after moves).IsDone) {dst : Buffer}
    {w : Written Encoder σ}
    (hw : w = ((start p limits s).after moves).encoder.write
      ((start p limits s).after moves).supply dst)
    (hresult : w.result = .ok .done) : dst.length < w.dst.length := by
  have hfollows :
      ((start p limits s.recorded).after (moves.map Move.recorded)).Follows p limits :=
    (follows_start hqueue).after moves
  rw [← forget_start, ← forget_after] at hnot hw
  generalize (start p limits s.recorded).after (moves.map Move.recorded)
    = r at hfollows hnot hw
  have hmap : w = (r.encoder.write r.supply dst).map Recorded.source :=
    hw.trans (Encoder.write_map Recorded.hom_source r.encoder r.supply dst)
  rw [hmap] at hresult ⊢
  exact hfollows.gains hmake hnot hresult

/-! ## Draining -/

/-- A run of nothing but writing calls with fresh buffers of one
capacity, that is not over. -/
structure Draining (p : Plan) (limits : Limits) (s : Supply σ) (capacity : Nat)
    (r : Run σ) : Prop where
  calls : ∃ n,
    r = (start p limits s).after (List.replicate n (.write (Buffer.empty capacity)))
  notFailed : r.encoder.phase ≠ .failed
  notDone : ¬ r.IsDone

theorem draining_start (p : Plan) (limits : Limits) (s : Supply σ) (capacity : Nat) :
    Draining p limits s capacity (start p limits s) where
  calls := ⟨0, rfl⟩
  notFailed := by simp [start, Encoder.start]
  notDone := by simp [start, IsDone]

section Filling

variable {startLine : StartLine} {hs : Headers}
  {options : PlanOptions} {p : Plan} {limits : Limits} {s : Supply σ} {capacity : Nat}
  {r : Run σ} (hσ : Source.Prompt σ) (hmake : Plan.make startLine hs options = .ok p)
  (hqueue : ∀ q, s.queue = some q → q.Reachable) (hends : s.QueueEnds)

include hσ hmake hqueue hends

/-- The next call fills its buffer and goes on, or brings the last bytes,
or finds the body short. -/
theorem Draining.next (h : r.Draining p limits s capacity) :
    let w := r.encoder.write r.supply (Buffer.empty capacity)
    (w.result = .ok .inProgress ∧ w.dst.bytes.length = capacity
        ∧ (r.step (.write (Buffer.empty capacity))).Draining p limits s capacity)
      ∨ (w.result = .ok .done ∧ 0 < w.dst.bytes.length ∧ w.dst.bytes.length ≤ capacity)
      ∨ ∃ length written, w.result = .error (.shortBody length written) := by
  obtain ⟨⟨n, hr⟩, hnotFailed, hnotDone⟩ := h
  intro w
  obtain ⟨out, hdst, hfit⟩ := r.encoder.write_appends r.supply (Buffer.empty capacity)
  have hempty : (Buffer.empty capacity).length = 0
      ∧ (Buffer.empty capacity).capacity = capacity :=
    ⟨rfl, Nat.max_eq_left (Nat.zero_le _)⟩
  have hroom := (Buffer.empty capacity).length_add_room
  have hbytes : w.dst.bytes = out := by
    show (r.encoder.write r.supply (Buffer.empty capacity)).dst.bytes = out
    rw [hdst]
    rfl
  have hflowing : r.Flowing := by
    rw [hr]
    exact (flowing_start hends).after hσ _
  rcases (r.encoder.write_fills hσ r.supply (Buffer.empty capacity) hflowing.closing
      hnotFailed).1 with
    ⟨hresult, hfull⟩ | hresult | hshort
  · refine .inl ⟨hresult, ?_, ⟨n + 1, ?_⟩, fun hfailed => ?_, fun hdone => ?_⟩
    · rw [hdst, Buffer.room_append] at hfull
      rw [hbytes]
      omega
    · rw [hr, List.replicate_succ', after, after, List.foldl_append]
      rfl
    · obtain ⟨failure, herror⟩ := Encoder.error_of_write hfailed
      cases herror.symm.trans hresult
    · rcases List.mem_append.mp hdone with hbefore | hnow
      · exact hnotDone hbefore
      · rw [List.mem_singleton, hresult] at hnow
        cases hnow
  · refine .inr (.inl ⟨hresult, ?_, by rw [hbytes]; omega⟩)
    rw [hr] at hnotDone
    have hgains : (Buffer.empty capacity).length < w.dst.length :=
      gains_of_done hmake hqueue hnotDone (by rw [← hr]) hresult
    exact hgains
  · exact .inr (.inr hshort)

/-- Draining goes on filling its buffers, or brings all bytes in as many calls as
it takes, or finds the body short. -/
theorem Draining.drainFrom (hcapacity : 0 < capacity)
    (h : r.Draining p limits s capacity) (calls : Nat) {outputs : List Bytes}
    (hfull : outputs.flatten.length = capacity * outputs.length) :
    let d := Encoder.drainFrom capacity outputs calls r.encoder r.supply
    (d.result = .ok .limit ∧ ∃ r', Draining p limits s capacity r'
        ∧ r'.emitted.length = r.emitted.length + capacity * calls)
      ∨ (d.result = .ok .done ∧ ∃ last, 0 < last ∧ last ≤ capacity
        ∧ d.outputs.flatten.length + capacity = capacity * d.outputs.length + last)
      ∨ ∃ length written, d.result = .error (.shortBody length written) := by
  induction calls generalizing r outputs with
  | zero => exact .inl ⟨rfl, r, h, rfl⟩
  | succ calls ih =>
    intro d
    let w := r.encoder.write r.supply (Buffer.empty capacity)
    rcases h.next hσ hmake hqueue hends with
      ⟨hresult, (hbytes : w.dst.bytes.length = capacity), hnext⟩
        | ⟨hresult, (hpos : 0 < w.dst.bytes.length),
            (hle : w.dst.bytes.length ≤ capacity)⟩
        | ⟨length, written, hresult⟩
    · -- the buffer is full, so it is not empty, and the next calls go on
      -- with one more of them
      have hsome : w.dst.bytes ≠ [] := by
        rw [← List.length_pos_iff]
        omega
      have hmore : (w.dst.bytes :: outputs).flatten.length
          = capacity * (outputs.length + 1) := by
        rw [List.flatten_cons, List.length_append, hbytes, hfull, Nat.mul_succ]
        omega
      have hstep : (r.step (.write (Buffer.empty capacity))).emitted.length
          = r.emitted.length + capacity := by
        show (r.emitted ++ w.dst.bytes).length = _
        rw [List.length_append, hbytes]
      have hround : d = Encoder.drainFrom capacity (w.dst.bytes :: outputs) calls
          w.state w.supply :=
        Encoder.drainFrom_of_inProgress rfl hresult hsome
      rw [hround]
      rcases ih hnext hmore with ⟨hlimit, r', hr', hemitted⟩ | hover
      · refine .inl ⟨hlimit, r', hr', ?_⟩
        rw [hemitted, hstep, Nat.mul_succ]
        omega
      · exact .inr hover
    · have hround :
          d = ⟨.ok .done, w.state, w.supply, (w.dst.bytes :: outputs).reverse⟩ :=
        Encoder.drainFrom_of_done rfl hresult
      rw [hround]
      refine .inr (.inl ⟨rfl, _, hpos, hle, ?_⟩)
      simp only [List.length_flatten, List.map_reverse, List.sum_reverse,
        List.length_reverse, List.map_cons, List.sum_cons, List.length_cons,
        Nat.mul_succ] at hfull ⊢
      omega
    · exact .inr (.inr ⟨length, written,
        congrArg Encoder.Drained.result (Encoder.drainFrom_of_error rfl hresult)⟩)

end Filling

/-- When all buffers but the last one are full and that one is not empty, their
number is the quotient of the bytes and the capacity, rounded up. -/
theorem calls_eq {total capacity calls last : Nat} (hpos : 0 < last)
    (hle : last ≤ capacity) (hbytes : total + capacity = capacity * calls + last) :
    calls = (total + capacity - 1) / capacity := by
  have hsum : total + capacity - 1 = last - 1 + capacity * calls := by omega
  rw [hsum, Nat.add_mul_div_left _ _ (by omega), Nat.div_eq_of_lt (by omega),
    Nat.zero_add]

/-! ## Bodies in memory -/

theorem sent_of_writes (r : Run σ) (dst : Buffer) (n : Nat) :
    (r.after (List.replicate n (.write dst))).sent = r.sent := by
  induction n generalizing r with
  | zero => rfl
  | succ n ih => exact ih (r.step (.write dst))

theorem limit_mono (p : Plan) {handed total : Nat} (h : handed ≤ total)
    (sent : List Chunk) :
    limit p handed sent ≤ limit p total sent := by
  unfold limit
  cases p.framing <;> simp only <;> omega

/-- A source hands out no more than it has, so draining it cannot go on for
ever. -/
theorem Draining.emitted_le {p : Plan} {limits : Limits} {s : Supply Bytes}
    {capacity : Nat} {r : Run Bytes} (hqueue : ∀ q, s.queue = some q → q.Reachable)
    (h : r.Draining p limits s capacity) :
    r.emitted.length ≤ limit p (s.body.getD []).length s.queued := by
  obtain ⟨⟨n, rfl⟩, -, -⟩ := h
  have hsettled := (@settled_start Bytes p limits s hqueue).after
    (List.replicate n (.write (Buffer.empty capacity)))
  have hhanded : ((start p limits s.recorded).after
      ((List.replicate n (.write (Buffer.empty capacity))).map
      Move.recorded)).supply.handed.length
        ≤ (s.body.getD []).length := by
    rcases hbody : s.body with _ | x
    · have hnone := (start p limits s.recorded).hasBody_after
        (List.replicate n (.write (Buffer.empty capacity)))
      have hstart : (start p limits s.recorded).supply.body = none := by
        show s.body.map _ = none
        rw [hbody]
        rfl
      rw [hstart, Option.isSome_none, Option.isSome_eq_false_iff,
        Option.isNone_iff_eq_none] at hnone
      rw [Supply.handed, hnone]
      exact Nat.le_refl 0
    · have hstart :
          (start p limits s.recorded).supply.body = some { source := x } := by
        show s.body.map _ = _
        rw [hbody]
        rfl
      have hfeed :
          ∀ f, .feed f ∈ List.replicate n (Move.write (Buffer.empty capacity)) →
          ∀ y : Bytes, f y = y := by simp
      obtain ⟨x', hx', hparts⟩ := left_after Memory.leaves hstart hfeed
      have hsame : x = x'.handed ++ x'.source := hparts
      rw [Supply.handed, hx', Option.getD_some, hsame, List.length_append]
      exact Nat.le_add_right _ _
  rw [← forget_start, ← forget_after]
  have hsent : ((start p limits s.recorded).after
      ((List.replicate n (.write (Buffer.empty capacity))).map Move.recorded)).sent
          = s.queued := by
    rw [List.map_replicate]
    exact sent_of_writes _ (Buffer.empty capacity) n
  have hle := hsettled.emitted_le
  rw [hsent] at hle
  exact Nat.le_trans hle (limit_mono p hhanded _)

/-- With a body in memory, or none, and a queue that leads to its end, or none, a
call has only these reasons to return: it has filled its buffer, the message is
written, the body is short, or an earlier call has found it so. Draining the
message with buffers of one capacity therefore ends, and if it ends well, then
after as many calls as its bytes need. -/
theorem never_stalls {m : Message Bytes} {options : PlanOptions} {p : Plan}
    {queue : Option ChunkQueue} (limits : Limits) (hplan : m.plan options = .ok p)
    (hqueue : ∀ q, queue = some q → q.Reachable ∧ q.Ends) :
    (∀ (moves : List (Move Bytes)) (dst : Buffer),
      let run := (start p limits ⟨m.body, queue⟩).after moves
      let w := run.encoder.write run.supply dst
      (w.result = .ok .inProgress ∧ w.dst.length = dst.capacity
        ∧ w.dst.capacity = dst.capacity)
        ∨ w.result = .ok .done
        ∨ (∃ length written, w.result = .error (.shortBody length written))
        ∨ w.result = .error .aborted ∧ ∃ length written,
          .error (.shortBody length written) ∈ run.results)
    ∧ ∀ capacity, 0 < capacity →
      let drained := fun calls =>
        (Encoder.start p limits).drain capacity calls (⟨m.body, queue⟩ : Supply Bytes)
      (∃ bound, ∀ calls, bound ≤ calls →
        (drained calls).result = .ok .done
          ∨ ∃ length written,
            (drained calls).result = .error (.shortBody length written))
      ∧ ∀ calls, (drained calls).result = .ok .done →
        (drained calls).outputs.length
          = ((drained calls).outputs.flatten.length + capacity - 1) / capacity := by
  have hreachable : ∀ q, queue = some q → q.Reachable := fun q hq => (hqueue q hq).1
  have hends : Supply.QueueEnds (⟨m.body, queue⟩ : Supply Bytes) :=
    fun q hq => (hqueue q hq).2
  refine ⟨fun moves dst => ?_, fun capacity hcapacity => ?_⟩
  · intro run w
    have hflowing : run.Flowing := (flowing_start hends).after Memory.prompt moves
    obtain ⟨out, hdst, hfit⟩ := run.encoder.write_appends run.supply dst
    have hcap : w.dst.capacity = dst.capacity := by
      show (run.encoder.write run.supply dst).dst.capacity = _
      rw [hdst, Buffer.capacity_append_of_le hfit]
    rcases hflowing.write Memory.prompt dst with
      (⟨hresult, hfull⟩ | hdone | hshort) | haborted
    · have hroom := w.dst.length_add_room
      have hnone : w.dst.room = 0 := hfull
      exact .inl ⟨hresult, by omega, hcap⟩
    · exact .inr (.inl hdone)
    · exact .inr (.inr (.inl hshort))
    · exact .inr (.inr (.inr haborted))
  · intro drained
    let s : Supply Bytes := ⟨m.body, queue⟩
    have hstart := draining_start p limits s capacity
    have hnone :
        ([] : List Bytes).flatten.length = capacity * ([] : List Bytes).length := rfl
    refine ⟨⟨limit p (m.body.getD []).length s.queued + 1, fun calls hcalls => ?_⟩,
      fun calls hdone => ?_⟩
    · rcases hstart.drainFrom Memory.prompt hplan hreachable hends hcapacity
          calls hnone with
        ⟨-, r, hr, hemitted⟩ | ⟨hdone, -⟩ | hshort
      · -- all these calls would have brought more than the message can come to
        have hle : r.emitted.length ≤ limit p (m.body.getD []).length s.queued :=
          hr.emitted_le hreachable
        have hmul := Nat.le_mul_of_pos_left calls hcapacity
        omega
      · exact .inl hdone
      · exact .inr hshort
    · rcases hstart.drainFrom Memory.prompt hplan hreachable hends hcapacity
          calls hnone with
        ⟨hlimit, -⟩ | ⟨-, last, hpos, hle, hbytes⟩ | ⟨length, written, hshort⟩
      · cases hdone.symm.trans hlimit
      · exact calls_eq hpos hle hbytes
      · cases hdone.symm.trans hshort

/-- With a chunk behind the two bytes of its body, the upload comes to 70 bytes. -/
theorem never_stalls_upload :
    let queue :=
      ((({} : ChunkQueue).produce (.send (Bytes.ofString "!") [])).1.produce .close).1
    let drained := (Encoder.start uploadPlan {}).drain 32 100
      (⟨upload.body, some queue⟩ : Supply Bytes)
    drained.result = .ok .done ∧ drained.outputs.flatten.length = 70
      ∧ drained.outputs.length = 3 := by
  intro queue drained
  have hplan : upload.plan {} = .ok uploadPlan := rfl
  have hqueue : ∀ q, some queue = some q → q.Reachable ∧ q.Ends := by
    intro q hq
    cases hq
    exact ⟨.produced .close (.produced _ .fresh), .inl rfl⟩
  have hdrained :
      drained.result = .ok .done ∧ drained.outputs.flatten.length = 70 := by
    decide +kernel
  obtain ⟨hdone, hbytes⟩ := hdrained
  have hcalls := ((never_stalls {} hplan hqueue).2 32 (by decide)).2 100 hdone
  refine ⟨hdone, hbytes, hcalls.trans ?_⟩
  show (drained.outputs.flatten.length + 32 - 1) / 32 = 3
  rw [hbytes]

/-- An upload that declares five bytes and has three. -/
def shortUpload : Message Bytes where
  startLine := .request (some (Bytes.ofString "PUT")) (some (Bytes.ofString "/upload"))
  headers := [⟨Bytes.ofString "Content-Length", Bytes.ofString "5"⟩]
  body := some (Bytes.ofString "abc")

/-- The plan that belongs to the short upload. -/
def shortUploadPlan : Plan where
  startLine := shortUpload.startLine.written
  headers := shortUpload.headers
  framing := .length 5
  chunked := false
  closesConnection := false
  contentLength := 5
  bodyIgnored := false

/-- The call after the one that finds a body short has yet another
reason to return. -/
theorem aborted_after_short :
    let run := (start shortUploadPlan {} ⟨shortUpload.body, none⟩).after
      [.write (Buffer.empty 1024)]
    let w := run.encoder.write run.supply (Buffer.empty 1024)
    shortUpload.plan {} = .ok shortUploadPlan ∧ run.results = [.error (.shortBody 5 3)]
      ∧ ¬ (w.dst.length = (Buffer.empty 1024).capacity ∨ w.result = .ok .done
        ∨ ∃ length written, w.result = .error (.shortBody length written)) := by
  intro run w
  have haborted : w.result = .error .aborted := by decide +kernel
  refine ⟨rfl, by decide +kernel, ?_⟩
  rw [haborted]
  rintro (hfull | hdone | ⟨length, written, hshort⟩)
  · exact absurd hfull (by decide +kernel)
  · cases hdone
  · cases hshort

end Run

end HttpWire
