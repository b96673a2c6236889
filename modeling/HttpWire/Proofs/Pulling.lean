import HttpWire.Proofs.Feeding
import HttpWire.Proofs.Readiness

/-!
# What a body made of frames carries

A body is polled for its frames, and its reader sees bytes. Between the two stand
the frame at hand, which may be read in many parts, and the frames that carry no
bytes, which are passed over. Nothing of this shows in what a reader is told: the
signals of the frames that the body was polled for are the signals that were told,
and behind them the rest of the frame at hand (`Pulling.faithful`).

What a use of the body may poll it for is `Frames.draws`: frames to pass over
and one that is not, and nothing at all while data is at hand and after the end.
From this it is told what the use answers, whatever the frames before and
behind. The rest is bookkeeping, one law for all uses (`Frames.Leaves`) and its
sum over any list of them.
-/

namespace HttpWire

namespace BodyFrame

/-- The frame has nothing for a reader, and the body goes on behind it. -/
def isPassedOver : BodyFrame → Bool
  | .data piece => piece.isEmpty
  | .trailers _ => true
  | .failed _ | .pending | .finished => false

/-- The bytes of a frame, or its error. -/
def signals : BodyFrame → List Signal
  | .data piece => piece.map .byte
  | .failed text => [.failure ⟨.other, some text⟩]
  | .trailers _ | .pending | .finished => []

/-- The data of a frame. -/
def bytes : BodyFrame → Bytes
  | .data piece => piece
  | .failed _ | .trailers _ | .pending | .finished => []

theorem signals_of_isPassedOver {frame : BodyFrame} (h : frame.isPassedOver = true) :
    frame.signals = [] := by
  cases frame with
  | data piece => simpa [isPassedOver, signals] using h
  | trailers fields | failed text | pending | finished =>
    simp_all [isPassedOver, signals]

theorem bytes_signals (frame : BodyFrame) :
    Signal.bytes frame.signals = frame.bytes := by
  cases frame with
  | data piece => exact Signal.bytes_map_byte piece
  | trailers fields | failed text | pending | finished => rfl

/-- What polling comes to at a frame that is not passed over, with
the answers behind it. -/
def stops (rest : List BodyFrame) : BodyFrame → Readiness × Frames
  | .data piece => (.ready, { answers := rest, held := piece })
  | .failed text => (.failed ⟨.other, some text⟩, { answers := rest })
  | .pending => (.pending, { answers := rest })
  | .trailers _ | .finished => (.ready, { answers := rest, ended := true })

end BodyFrame

namespace SourceEvent

/-- The signals that a use tells. -/
def signals : SourceEvent → List Signal
  | .read _ report slice => report.signals slice
  | .poll readiness => readiness.signals

/-- The source said that there is nothing yet. -/
def isPending : SourceEvent → Bool
  | .read _ .pending _ | .poll .pending => true
  | .read _ _ _ | .poll _ => false

/-- The error that the source reported, if it did. -/
def failure? : SourceEvent → Option IoError
  | .read _ (.failed error) _ | .poll (.failed error) => some error
  | .read _ _ _ | .poll _ => none

end SourceEvent

/-! ## One use of a body -/

/-- A use of a body made of frames: a read of a slice, or a
question for readiness. -/
inductive FrameUse
  | read (slice : Bytes)
  | poll
  deriving DecidableEq, Repr

namespace Frames

/-- Uses a body: what came of it, and the body as it is then. -/
def use (b : Frames) : FrameUse → SourceEvent × Frames
  | .read slice =>
    (.read slice.length (b.read slice).1 (b.read slice).2.1, (b.read slice).2.2)
  | .poll => (.poll b.poll.1, b.poll.2)

/-- The answers that the next use polls the body for: none if there is data at
hand or the end was seen, and otherwise all up to the first that is not passed
over. Past the last answer the body is finished. -/
def draws (b : Frames) : List BodyFrame :=
  if b.held ≠ [] ∨ b.ended = true then []
  else b.answers.takeWhile BodyFrame.isPassedOver
    ++ [(b.answers.dropWhile BodyFrame.isPassedOver).headD .finished]

theorem pull_eq (answers : List BodyFrame) :
    pull answers = ((answers.dropWhile BodyFrame.isPassedOver).headD .finished).stops
      (answers.dropWhile BodyFrame.isPassedOver).tail := by
  fun_induction pull answers with
  | case1 | case2 => rfl
  | case3 piece rest hempty ih =>
    have hpassed : (BodyFrame.data piece).isPassedOver = true := hempty
    rwa [List.dropWhile_cons_of_pos hpassed]
  | case4 piece rest hpiece =>
    have hstops : ¬ (BodyFrame.data piece).isPassedOver = true := hpiece
    rw [List.dropWhile_cons_of_neg hstops]
    rfl
  | case5 fields rest ih => exact ih
  | case6 text rest => rfl
  | case7 rest => rfl

theorem not_holding_iff {b : Frames} :
    ¬ b.Holding ↔ b.held = [] ∧ b.ended = false := by
  simp [Holding]

/-- The answers that are drawn are the first that were to come. -/
theorem draws_spec {b : Frames} (h : ¬ b.Holding) :
    ∃ skipped last,
      b.draws = skipped ++ [last] ∧ (∀ frame ∈ skipped, frame.isPassedOver = true)
      ∧ last.isPassedOver = false ∧ b.draws <+: b.answers ++ [.finished]
      ∧ b.poll = last.stops (b.answers.drop b.draws.length) := by
  obtain ⟨hheld, hended⟩ := not_holding_iff.mp h
  have hdraws : b.draws = b.answers.takeWhile BodyFrame.isPassedOver
      ++ [(b.answers.dropWhile BodyFrame.isPassedOver).headD .finished] := if_neg h
  have hpoll : b.poll = pull b.answers := by
    rw [poll, if_neg (by simp [hheld, hended])]
  have hskipped : ∀ frame ∈ b.answers.takeWhile BodyFrame.isPassedOver,
      frame.isPassedOver = true :=
    List.all_eq_true.mp List.all_takeWhile
  have hlast := List.head?_dropWhile_not BodyFrame.isPassedOver b.answers
  have hsplit : b.answers = b.answers.takeWhile BodyFrame.isPassedOver
      ++ b.answers.dropWhile BodyFrame.isPassedOver :=
        List.takeWhile_append_dropWhile.symm
  rw [hpoll, pull_eq, hdraws]
  generalize b.answers.takeWhile BodyFrame.isPassedOver = skipped at hskipped hsplit ⊢
  generalize b.answers.dropWhile BodyFrame.isPassedOver = behind at hlast hsplit ⊢
  refine ⟨skipped, behind.headD .finished, rfl, hskipped, ?_, ?_, ?_⟩
  · cases behind with
    | nil => rfl
    | cons last rest => simpa using hlast
  · rw [hsplit]
    cases behind with
    | nil => simp
    | cons last rest => exact ⟨rest ++ [.finished], by simp⟩
  · rw [hsplit, List.length_append, List.length_singleton, ← List.drop_drop,
      List.drop_left, List.drop_one]

theorem draws_of_holding {b : Frames} (h : b.Holding) : b.draws = [] :=
  if_pos h

/-- What one use of a body leaves of it, with what came of it. -/
structure Leaves (b : Frames) (e : SourceEvent) (b' : Frames) : Prop where
  answers : b'.answers = b.answers.drop b.draws.length
  signals : b.held.map .byte ++ b.draws.flatMap BodyFrame.signals
    = e.signals ++ b'.held.map .byte
  ended : b'.ended = true ↔ b.ended = true ∨ .finished ∈ b.draws
  settled : b'.ended = true → b'.held = []
  pending : e.isPending = true ↔ .pending ∈ b.draws
  failed : ∀ error, e.failure? = some error ↔
    ∃ text, error = ⟨.other, some text⟩ ∧ .failed text ∈ b.draws
  /-- at the end of the body there is nothing to wait for, and it has not failed -/
  atEnd : b'.ended = true → e.isPending = false ∧ e.failure? = none

theorem leaves_poll {b : Frames} (hsettled : b.ended = true → b.held = []) :
    b.Leaves (.poll b.poll.1) b.poll.2 := by
  by_cases hholding : b.Holding
  · have hdraws := draws_of_holding hholding
    rw [hholding.poll_eq]
    exact {
      answers := by rw [hdraws]; rfl
      signals := by rw [hdraws]; exact List.append_nil _
      ended := by simp [hdraws]
      settled := hsettled
      pending := by simp [hdraws, SourceEvent.isPending]
      failed := by simp [hdraws, SourceEvent.failure?]
      atEnd := fun _ => ⟨rfl, rfl⟩ }
  · obtain ⟨hheld, hended⟩ := not_holding_iff.mp hholding
    obtain ⟨skipped, last, hdraws, hskipped, hlast, -, hpoll⟩ := draws_spec hholding
    have hnone : skipped.flatMap BodyFrame.signals = [] :=
      List.flatMap_eq_nil_iff.mpr fun frame hframe =>
        BodyFrame.signals_of_isPassedOver (hskipped frame hframe)
    -- of the frames that are not passed over only the last one is drawn
    have hmem : ∀ {frame : BodyFrame}, frame.isPassedOver = false →
        (frame ∈ b.draws ↔ frame = last) := by
      intro frame hframe
      rw [hdraws, List.mem_append, List.mem_singleton]
      refine or_iff_right fun hin => ?_
      rw [hskipped frame hin] at hframe
      cases hframe
    have hsignals : b.draws.flatMap BodyFrame.signals = last.signals := by
      rw [hdraws, List.flatMap_append, hnone, List.flatMap_singleton, List.nil_append]
    have hpending : .pending ∈ b.draws ↔ .pending = last := hmem rfl
    have hfinished : .finished ∈ b.draws ↔ .finished = last := hmem rfl
    have hfailed : ∀ text, .failed text ∈ b.draws ↔ .failed text = last :=
      fun text => hmem rfl
    rw [hpoll]
    cases last with
    | trailers fields => cases hlast
    | data piece | failed text | pending | finished =>
      exact {
        answers := rfl
        signals := by
          simp [hheld, hsignals, BodyFrame.stops, BodyFrame.signals,
            SourceEvent.signals, Readiness.signals]
        ended := by simp [hended, hfinished, BodyFrame.stops]
        settled := by simp [BodyFrame.stops]
        pending := by simp [hpending, BodyFrame.stops, SourceEvent.isPending]
        failed := by simp [hfailed, BodyFrame.stops, SourceEvent.failure?, eq_comm]
        atEnd := by
          simp [BodyFrame.stops, SourceEvent.isPending, SourceEvent.failure?] }

/-- A read leaves what a question for readiness leaves, but for what it hands
out. It reports the end exactly if the end was seen, and a part of nothing only
for a slice of nothing. -/
theorem leaves_read {b : Frames} (hsettled : b.ended = true → b.held = [])
    (slice : Bytes) :
    b.Leaves (.read slice.length (b.read slice).1 (b.read slice).2.1)
      (b.read slice).2.2
      ∧ ((b.read slice).1 = .ended ↔ (b.read slice).2.2.ended = true)
      ∧ ∀ n, (b.read slice).1 = .data n → n ≤ slice.length ∧ (n = 0 ↔ slice = []) := by
  have hleaves := leaves_poll hsettled
  have hholding := b.holding_poll
  unfold read
  rcases hpoll : b.poll with ⟨_ | _ | error, b'⟩ <;> rw [hpoll] at hleaves hholding
  · have hopen : b'.held ≠ [] → b'.ended = false := fun hheld => by
      simpa using mt hleaves.settled hheld
    simp only
    split
    · next hheld =>
      have hended :=
        (hholding rfl).resolve_left (fun hne => hne (List.isEmpty_iff.mp hheld))
      exact ⟨{ hleaves with }, iff_of_true rfl hended, by simp⟩
    · next hheld =>
      have hne : b'.held ≠ [] := by simpa using hheld
      refine ⟨{ hleaves with
        signals := ?_
        settled := fun hended => by
          rw [hopen hne] at hended; cases hended }, by simp [hopen hne], ?_⟩
      · rw [hleaves.signals, ← ReadReport.signals_copyFront b'.held slice]
        rfl
      · intro n hn
        cases hn
        rw [List.length_eq_zero_iff, List.take_eq_nil_iff, List.length_eq_zero_iff]
        exact ⟨List.length_take_le _ _, fun hor => hor.resolve_right hne, .inl⟩
  · have hopen : b'.ended ≠ true := fun hended => by cases (hleaves.atEnd hended).1
    exact ⟨{ hleaves with }, by simp [hopen], by simp⟩
  · have hopen : b'.ended ≠ true := fun hended => by cases (hleaves.atEnd hended).2
    exact ⟨{ hleaves with }, by simp [hopen], by simp⟩

theorem leaves_use {b : Frames} (hsettled : b.ended = true → b.held = [])
    (use : FrameUse) :
    b.Leaves (b.use use).1 (b.use use).2 := by
  cases use with
  | read slice => exact (leaves_read hsettled slice).1
  | poll => exact leaves_poll hsettled

end Frames

/-! ## Any uses of a body -/

/-- A body in use, with the answers that it was polled for and with
what came of its uses. -/
structure Pulling where
  body : Frames
  polled : List BodyFrame := []
  events : List SourceEvent := []

namespace Pulling

/-- A body that has not been used, with the answers that it will give. -/
def start (answers : List BodyFrame) : Pulling where
  body := { answers := answers }

/-- One use, with the answers that it drew and what it told. -/
def step (w : Pulling) (use : FrameUse) : Pulling where
  body := (w.body.use use).2
  polled := w.polled ++ w.body.draws
  events := w.events ++ [(w.body.use use).1]

/-- The body after a list of uses. -/
def after (w : Pulling) (uses : List FrameUse) : Pulling :=
  uses.foldl step w

/-- The record accounts for the body. -/
structure Accounts (answers : List BodyFrame) (w : Pulling) : Prop where
  given : w.polled <+: answers ++ [.finished]
  left : w.body.answers = answers.drop w.polled.length
  ended : w.body.ended = true ↔ .finished ∈ w.polled
  settled : w.body.ended = true → w.body.held = []
  signals : w.polled.flatMap BodyFrame.signals
    = w.events.flatMap SourceEvent.signals ++ w.body.held.map .byte

theorem accounts_start (answers : List BodyFrame) :
    (start answers).Accounts answers where
  given := List.nil_prefix
  left := rfl
  ended := by simp [start]
  settled _ := rfl
  signals := rfl

theorem Accounts.step {answers : List BodyFrame} {w : Pulling}
    (h : w.Accounts answers) (use : FrameUse) :
    (w.step use).Accounts answers := by
  have hleaves := w.body.leaves_use h.settled use
  refine
    { given := ?_, left := ?_, ended := ?_, settled := hleaves.settled, signals := ?_ }
  · show w.polled ++ w.body.draws <+: _
    by_cases hholding : w.body.Holding
    · rw [Frames.draws_of_holding hholding, List.append_nil]
      exact h.given
    · obtain ⟨-, -, -, -, -, hdraws, -⟩ := Frames.draws_spec hholding
      -- the end was not polled, so what is left of the answers is behind what was
      have hnot : .finished ∉ w.polled := by
        simp [← h.ended, (Frames.not_holding_iff.mp hholding).2]
      obtain ⟨more, hmore⟩ : w.polled <+: answers :=
        (List.prefix_concat_iff.mp h.given).resolve_left
          (fun heq => hnot (by simp [heq]))
      rw [h.left, ← hmore, List.drop_left] at hdraws
      rw [← hmore, List.append_assoc]
      exact (List.prefix_append_right_inj _).mpr hdraws
  · show (w.body.use use).2.answers = _
    rw [hleaves.answers, h.left, List.drop_drop, Pulling.step, List.length_append]
  · show (w.body.use use).2.ended = true ↔ .finished ∈ w.polled ++ w.body.draws
    rw [hleaves.ended, h.ended, List.mem_append]
  · show (w.polled ++ w.body.draws).flatMap _
      = (w.events ++ [(w.body.use use).1]).flatMap _ ++ _
    rw [List.flatMap_append, h.signals, List.append_assoc, hleaves.signals,
      List.flatMap_append, List.flatMap_singleton, List.append_assoc]
    rfl

theorem Accounts.after {answers : List BodyFrame} {w : Pulling}
    (h : w.Accounts answers) (uses : List FrameUse) :
    (w.after uses).Accounts answers := by
  induction uses generalizing w with
  | nil => exact h
  | cons use uses ih => exact ih (h.step use)

theorem Accounts.draws_eq_nil {answers : List BodyFrame} {w : Pulling}
    (h : w.Accounts answers) (hrests : w.body.held ≠ [] ∨ .finished ∈ w.polled) :
    w.body.draws = [] :=
  Frames.draws_of_holding (hrests.imp_right h.ended.mpr)

/-- The body is not polled any more after its end. -/
theorem Accounts.polled_after {answers : List BodyFrame} {w : Pulling}
    (h : w.Accounts answers) (hend : .finished ∈ w.polled) (uses : List FrameUse) :
    (w.after uses).polled = w.polled := by
  induction uses generalizing w with
  | nil => rfl
  | cons use uses ih =>
    have hstep : (w.step use).polled = w.polled := by
      rw [Pulling.step, h.draws_eq_nil (.inr hend), List.append_nil]
    exact (ih (h.step use) (hstep ▸ hend)).trans hstep

/-- What the next use polls the body for, and what it answers. -/
structure Next (w : Pulling) (use : FrameUse) : Prop where
  rests : w.body.held ≠ [] ∨ .finished ∈ w.polled → w.body.draws = []
  stops : w.body.draws ≠ [] → ∃ skipped last, w.body.draws = skipped ++ [last]
    ∧ (∀ frame ∈ skipped, frame.isPassedOver = true) ∧ last.isPassedOver = false
  pending : (w.body.use use).1.isPending = true ↔ .pending ∈ w.body.draws
  failed : ∀ error, (w.body.use use).1.failure? = some error ↔
    ∃ text, error = ⟨.other, some text⟩ ∧ .failed text ∈ w.body.draws
  ended : ∀ slice, use = .read slice →
    ((w.body.use use).1.isEnd = true ↔ .finished ∈ w.polled ++ w.body.draws)
  data : ∀ slice n out, use = .read slice →
    (w.body.use use).1 = .read slice.length (.data n) out →
    n ≤ slice.length ∧ (n = 0 ↔ slice = [])

theorem Accounts.next {answers : List BodyFrame} {w : Pulling}
    (h : w.Accounts answers) (use : FrameUse) :
    w.Next use := by
  have hleaves := w.body.leaves_use h.settled use
  refine ⟨h.draws_eq_nil, ?_, hleaves.pending, hleaves.failed, ?_, ?_⟩
  · intro hsome
    have hholding : ¬ w.body.Holding :=
      fun hholding => hsome (Frames.draws_of_holding hholding)
    obtain ⟨skipped, last, hdraws, hskipped, hlast, -⟩ := Frames.draws_spec hholding
    exact ⟨skipped, last, hdraws, hskipped, hlast⟩
  · rintro slice rfl
    obtain ⟨hread, hend, -⟩ := Frames.leaves_read h.settled slice
    have hisEnd : (w.body.use (.read slice)).1.isEnd = true ↔
        (w.body.read slice).1 = .ended := by
      simp only [Frames.use]
      cases (w.body.read slice).1 <;> simp [SourceEvent.isEnd]
    rw [hisEnd, hend, hread.ended, h.ended, List.mem_append]
  · rintro slice n out rfl hdata
    simp only [Frames.use, SourceEvent.read.injEq] at hdata
    exact (Frames.leaves_read h.settled slice).2.2 n hdata.2.1

/-- However a body made of frames is used, what was told of it and behind it the
rest of the frame at hand are the signals of the frames that it was polled for.
After its end it is polled no more, and nothing of it is left. -/
theorem faithful (answers : List BodyFrame) (uses : List FrameUse) :
    let w := (start answers).after uses
    (w.polled <+: answers ++ [.finished]
      ∧ w.body.answers = answers.drop w.polled.length)
      ∧ w.polled.flatMap BodyFrame.signals
        = w.events.flatMap SourceEvent.signals ++ w.body.held.map .byte
      ∧ w.polled.flatMap BodyFrame.bytes
        = Signal.bytes (w.events.flatMap SourceEvent.signals) ++ w.body.held
      ∧ (.finished ∈ w.polled →
        w.body.held = [] ∧ ∀ more, (w.after more).polled = w.polled)
      ∧ ∀ use, w.Next use := by
  intro w
  have h : w.Accounts answers := (accounts_start answers).after uses
  refine ⟨⟨h.given, h.left⟩, h.signals, ?_, fun hend =>
    ⟨h.settled (h.ended.mpr hend), h.polled_after hend⟩, h.next⟩
  have hbytes := congrArg Signal.bytes h.signals
  rw [Signal.bytes_append, Signal.bytes_map_byte] at hbytes
  rw [← hbytes]
  simp only [Signal.bytes, List.filterMap_flatMap]
  exact congrArg (w.polled.flatMap ·) (funext fun frame => (frame.bytes_signals).symm)

/-- A body that has to be waited for, passes frames over, fails in
the middle and goes on. -/
def mixedAnswers : List BodyFrame :=
  [.pending, .data [], .data (Bytes.ofString "abc"), .trailers [], .failed "cut",
    .data (Bytes.ofString "d"), .data [], .finished, .data (Bytes.ofString "never")]

/-- It is read into slices of two bytes, with an empty one and a question for
readiness between them. -/
def mixedUses : List FrameUse :=
  [.read [0, 0], .poll, .read [0, 0], .read [], .read [0, 0], .read [0, 0],
    .read [0, 0], .read [0, 0]]

/-- The end is reported, and what stands behind it in the body is never asked
for. -/
theorem faithful_mixed :
    ((start mixedAnswers).after mixedUses).events.map
      (fun e => (e.isPending, e.isEnd, e.signals))
        = [(true, false, []), (false, false, []), (false, false, [.byte 97, .byte 98]),
          (false, false, []),
          (false, false, [.byte 99]), (false, false, [.failure ⟨.other, some "cut"⟩]),
          (false, false, [.byte 100]), (false, true, [])]
      ∧ ((start mixedAnswers).after mixedUses).body.answers
        = [.data (Bytes.ofString "never")]
      ∧ ∀ more, (((start mixedAnswers).after mixedUses).after more).polled
        = ((start mixedAnswers).after mixedUses).polled :=
  ⟨by decide +kernel, by decide +kernel,
    ((faithful mixedAnswers mixedUses).2.2.2.1 (by decide +kernel)).2⟩

end Pulling

end HttpWire
