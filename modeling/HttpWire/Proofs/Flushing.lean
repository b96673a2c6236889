import Mathlib.Data.List.Chain
import HttpWire.Proofs.Steps

/-!
# Nothing waits unflushed

A peer may answer only what it has seen, so a transmission that waits for its body
with bytes still in the transport's buffers could wait for ever.
`Sending.flushed_before_waiting` says that this does not happen: when a
transmission asks the body or waits for it, and when it ends with success, the
last thing that was asked of the transport is a flush, and it succeeded.

The theorem is one of the order in which the transport is used, and so are the
other parts of `Sending.Ordered`: the transport is never offered nothing, an error
is the last thing that it answers, and the exception to that is a write that was
interrupted. It is followed by a write of the same bytes, which takes two facts to
say: whatever comes behind an interrupted write is that write, and where nothing
has come behind it yet the transmission neither waits nor has ended, but is about
to make it. That there is an exception is shown by `Sending.writes_after_error`.

Each part is kept by a step for one of two reasons. A step that asks nothing of
the transport leaves its record as it is, and moves only between stages that say
the same about it (`Sending.Ordered.quiet`). A step that asks something adds to
the record what the stage it came from allows (`Sending.Ordered.use`).
-/

namespace HttpWire

/-- What a transmission does next that is not finished. -/
@[simp] def Standing.stage? : Standing → Option Stage
  | .running t | .suspended t => some t.stage
  | .finished _ => none

/-- The stages in which nothing may be unflushed, and success. -/
def Standing.NeedsFlush (standing : Standing) : Prop :=
  (∃ waited, standing.stage? = some (.await waited)) ∨ standing = .finished (.ok ())

namespace TransportUse

/-- The use offers bytes. -/
@[simp] def isWrite : TransportUse → Bool
  | .write _ _ => true
  | .flush _ => false

/-- The use did not succeed and is not to be waited for. To accept
nothing is an error. -/
@[simp] def isError : TransportUse → Bool
  | .write _ (.accepted n) => n == 0
  | .write _ (.failed _) | .flush (.failed _) => true
  | .write _ .pending | .flush .flushed | .flush .pending => false

/-- A write that was interrupted. -/
@[simp] def isInterrupted : TransportUse → Bool
  | .write _ (.failed error) => error.kind == .interrupted
  | .write _ (.accepted _) | .write _ .pending | .flush _ => false

/-- The second use offers again what the first one offered, if that
was interrupted. -/
def Repeats (a b : TransportUse) : Prop :=
  a.isInterrupted = true →
    ∃ offered report report', a = .write offered report ∧ b = .write offered report'

end TransportUse

namespace Sending

variable {σ τ : Type}

/-- The uses of the transport came in an order that fits the standing. -/
structure Ordered (standing : Standing) (uses : List TransportUse) : Prop where
  flushed : standing.NeedsFlush → uses.getLast? = some (.flush .flushed)
  unsent : ∀ rest progress, standing.stage? = some (.write rest progress) → rest ≠ []
  offered : ∀ offered report, .write offered report ∈ uses → offered ≠ []
  errors : uses.Pairwise (fun use _ => use.isError = true → use.isInterrupted = true)
  repeated : uses.IsChain TransportUse.Repeats
  /-- a transmission that goes on has met no error that ends it -/
  alive : standing.stage?.isSome → ∀ use ∈ uses, use.isError = true →
    use.isInterrupted = true
  /-- an interrupted write is tried again before anything else is done -/
  interrupted : ∀ use ∈ uses.getLast?, use.isInterrupted = true →
    ∃ t offered report progress, standing = .running t
      ∧ t.stage = .write offered progress ∧ use = .write offered report

namespace Ordered

variable {standing next : Standing} {uses : List TransportUse} {stage : Stage}

theorem anew (capacity : Nat) : Ordered (.running { capacity := capacity }) [] where
  flushed := by
    rintro (⟨waited, hstage⟩ | hfinished)
    · cases hstage
    · cases hfinished
  unsent rest progress hstage := by cases hstage
  offered offered report hmem := by cases hmem
  errors := .nil
  repeated := .nil
  alive _ use hmem := by cases hmem
  interrupted use hmem := by cases hmem

/-- A step that asks nothing of the transport starts in a stage
that does not write. -/
theorem quiet (h : Ordered standing uses) (hstage : standing.stage? = some stage)
    (hnot : ∀ rest progress, stage ≠ .write rest progress)
    (hflushed : next.NeedsFlush → standing.NeedsFlush)
    (hunsent : ∀ rest progress,
      next.stage? = some (.write rest progress) → rest ≠ []) :
    Ordered next uses where
  flushed hneeds := h.flushed (hflushed hneeds)
  unsent := hunsent
  offered := h.offered
  errors := h.errors
  repeated := h.repeated
  alive _ := h.alive (by rw [hstage]; rfl)
  interrupted use hmem hinterrupted := by
    obtain ⟨t, offered, report, progress, rfl, hwrite, -⟩ :=
      h.interrupted use hmem hinterrupted
    have hsame : t.stage = stage := Option.some.inj hstage
    exact absurd (hsame.symm.trans hwrite) (hnot offered progress)

/-- A step that asks something of the transport offers what its stage says, and
goes on after no error but an interruption. -/
theorem use {use : TransportUse} (h : Ordered standing uses)
    (hstage : standing.stage? = some stage)
    (hoffered : ∀ offered report, use = .write offered report →
      ∃ progress, stage = .write offered progress)
    (hoffers : ∀ offered progress, stage = .write offered progress →
      ∃ report, use = .write offered report)
    (hflushed : next.NeedsFlush → use = .flush .flushed)
    (hunsent : ∀ rest progress,
      next.stage? = some (.write rest progress) → rest ≠ [])
    (halive : next.stage?.isSome → use.isError = true → use.isInterrupted = true)
    (hinterrupted : use.isInterrupted = true →
      ∃ t offered report progress, next = .running t
        ∧ t.stage = .write offered progress ∧ use = .write offered report) :
    Ordered next (uses ++ [use]) where
  flushed hneeds := by rw [List.getLast?_concat, hflushed hneeds]
  unsent := hunsent
  offered offered report hmem := by
    rcases List.mem_append.mp hmem with hmem | hmem
    · exact h.offered offered report hmem
    · obtain ⟨progress, hwrite⟩ :=
        hoffered offered report (List.mem_singleton.mp hmem).symm
      exact h.unsent offered progress (hstage.trans (congrArg some hwrite))
  errors := by
    refine List.pairwise_append.mpr ⟨h.errors, List.pairwise_singleton _ _, ?_⟩
    intro before hbefore _ _
    exact h.alive (by rw [hstage]; rfl) before hbefore
  repeated := by
    refine List.isChain_append.mpr ⟨h.repeated, .singleton _, ?_⟩
    intro last hlast same hsame hagain
    rw [List.head?_cons, Option.mem_some_iff] at hsame
    obtain ⟨t, offered, report, progress, rfl, hwrite, hlast⟩ :=
      h.interrupted last hlast hagain
    obtain ⟨report', huse⟩ :=
      hoffers offered progress ((Option.some.inj hstage).symm.trans hwrite)
    exact ⟨offered, report, report', hlast, hsame.symm.trans huse⟩
  alive hlive use' hmem := by
    rcases List.mem_append.mp hmem with hmem | hmem
    · exact h.alive (by rw [hstage]; rfl) use' hmem
    · rw [List.mem_singleton.mp hmem]
      exact halive hlive
  interrupted use' hlast hagain := by
    rw [List.getLast?_concat, Option.mem_some_iff] at hlast
    subst hlast
    exact hinterrupted hagain

theorem writing {rest : Bytes} {progress : Progress} {report : WriteReport}
    (h : Ordered standing uses)
    (hstage : standing.stage? = some (.write rest progress))
    (hnext : ¬ next.NeedsFlush)
    (hunsent : ∀ rest progress,
      next.stage? = some (.write rest progress) → rest ≠ [])
    (halive : next.stage?.isSome → (TransportUse.write rest report).isError = true →
      (TransportUse.write rest report).isInterrupted = true)
    (hinterrupted : (TransportUse.write rest report).isInterrupted = true →
      ∃ t, next = .running t ∧ t.stage = .write rest progress) :
    Ordered next (uses ++ [.write rest report]) := by
  refine h.use hstage ?_ ?_ (fun hneeds => absurd hneeds hnext) hunsent halive ?_
  · intro offered report' heq
    cases heq
    exact ⟨progress, rfl⟩
  · intro offered progress' heq
    cases heq
    exact ⟨report, rfl⟩
  · intro hagain
    obtain ⟨t, hrunning, hwrite⟩ := hinterrupted hagain
    exact ⟨t, rest, report, progress, hrunning, hwrite, rfl⟩

theorem flushing {report : FlushReport} (h : Ordered standing uses)
    (hstage : standing.stage? = some stage)
    (hnot : ∀ rest progress, stage ≠ .write rest progress)
    (hflushed : next.NeedsFlush → report = .flushed)
    (hunsent : ∀ rest progress,
      next.stage? = some (.write rest progress) → rest ≠ [])
    (halive : next.stage?.isSome → (TransportUse.flush report).isError = false) :
    Ordered next (uses ++ [.flush report]) := by
  refine h.use hstage (fun _ _ heq => by cases heq) (fun _ _ heq =>
    absurd heq (hnot _ _)) ?_ hunsent ?_ (fun hagain => by cases hagain)
  · exact fun hneeds => congrArg TransportUse.flush (hflushed hneeds)
  · exact fun hlive herror => absurd (herror.symm.trans (halive hlive)) (by decide)

theorem step {t : Transmission} {more : List TransportUse} {rounds : List Round}
    (h : Ordered standing uses)
    (hstanding : standing = .running t ∨ standing = .suspended t)
    (hstep : t.Step next more rounds) :
    Ordered next (uses ++ more) := by
  have hstage : standing.stage? = some t.stage := by
    rcases hstanding with rfl | rfl <;> rfl
  have hwriting : ∀ {rest progress}, t.stage = .write rest progress →
      standing.stage? = some (.write rest progress) :=
        fun hwrite => hstage.trans (congrArg some hwrite)
  -- a transmission that goes on writing the same has something left to write
  have hunsent :
      ∀ rest progress, some t.stage = some (.write rest progress) → rest ≠ [] :=
    fun rest progress hrest => h.unsent rest progress (hstage.trans hrest)
  cases hstep with
  | roundFailed hencode | bodyFailed hencode =>
    rw [List.append_nil]
    exact h.quiet hstage (by simp [hencode]) (by simp [Standing.NeedsFlush]) (by simp)
  | @roundEmpty progress hencode =>
    rw [List.append_nil]
    cases progress <;>
    exact h.quiet hstage
      (by simp [hencode]) (by simp [Standing.NeedsFlush, Transmission.afterEmptyRound])
      (by simp [Transmission.afterEmptyRound])
  | roundFull hencode hfull =>
    rw [List.append_nil]
    refine h.quiet hstage (by simp [hencode]) (by simp [Standing.NeedsFlush]) ?_
    intro rest progress hrest
    cases hrest
    exact hfull
  | bodyReady hawait =>
    rw [List.append_nil]
    exact h.quiet hstage (by simp [hawait]) (by simp [Standing.NeedsFlush]) (by simp)
  | bodyPending hawait =>
    rw [List.append_nil]
    exact h.quiet hstage (by simp [hawait])
      (fun _ => .inl ⟨_, hstage.trans (congrArg some hawait)⟩) (by simp)
  | @acceptedAll rest progress n hwrite hpos hall =>
    have hsome : n ≠ 0 := Nat.ne_of_gt hpos
    cases progress <;>
    exact h.writing
      (hwriting hwrite) (by simp [Standing.NeedsFlush, Transmission.afterRound])
      (by simp [Transmission.afterRound]) (by simp [hsome]) (by simp)
  | @acceptedPart rest progress n hwrite hpos hpart =>
    have hsome : n ≠ 0 := Nat.ne_of_gt hpos
    refine h.writing (hwriting hwrite) (by simp [Standing.NeedsFlush]) ?_
      (by simp [hsome]) (by simp)
    intro left progress' hleft
    cases hleft
    exact hpart
  | acceptedNone hwrite =>
    exact h.writing (hwriting hwrite) (by simp [Standing.NeedsFlush]) (by simp)
      (by simp) (by simp)
  | writePending hwrite =>
    exact h.writing (hwriting hwrite) (by simp [Standing.NeedsFlush, hwrite]) hunsent
      (by simp) (by simp)
  | writeInterrupted hwrite hagain =>
    exact h.writing (hwriting hwrite) (by simp [Standing.NeedsFlush, hwrite]) hunsent
      (by simp [hagain]) (fun _ => ⟨t, rfl, hwrite⟩)
  | writeFailed hwrite hbroken =>
    exact h.writing (hwriting hwrite) (by simp [Standing.NeedsFlush]) (by simp)
      (by simp) (by simp [hbroken])
  | flushed hflush =>
    exact h.flushing hstage (by simp [hflush]) (fun _ => rfl) (by simp) (by simp)
  | finished hfinish =>
    exact h.flushing hstage (by simp [hfinish]) (fun _ => rfl) (by simp) (by simp)
  | flushPending hflush =>
    rcases hflush with hflush | hflush <;>
    exact h.flushing hstage (by simp [hflush]) (by simp [Standing.NeedsFlush, hflush])
      hunsent (by simp)
  | flushFailed hflush =>
    rcases hflush with hflush | hflush <;>
    exact h.flushing hstage (by simp [hflush]) (by simp [Standing.NeedsFlush])
      (by simp) (by simp)

end Ordered

variable [Source σ] [Transport τ]

theorem ordered_after_anew (capacity : Nat) (l : Link σ (Observed τ))
    (moves : List (SendMove σ)) :
    Ordered ((anew capacity l).after moves).standing
      ((anew capacity l).after moves).link.transport.uses := by
  refine after_anew_induction (P := fun s => Ordered s.standing s.link.transport.uses)
    capacity l (.anew capacity) ?_ (fun s supply h => h) moves
  intro s t next uses rounds h _ hstanding hstep huses _
  rw [huses]
  exact h.step hstanding hstep

/-- Whenever a transmission asks the body or waits for it, all that was encoded
is accepted and flushed, and so it is when it ends with success; then its
encoder has said that the message is written. The transport is never offered
nothing, is asked nothing any more after an error that is not an interruption,
and is offered the same again after a write that was interrupted: no
transmission ends there or waits. -/
theorem flushed_before_waiting (capacity : Nat) (l : Link σ (Observed τ))
    (moves : List (SendMove σ)) :
    let s := (anew capacity l).after moves
    let uses := s.link.transport.uses
    (∀ waited, s.standing.stage? = some (.await waited) →
        uses.getLast? = some (.flush .flushed)
          ∧ uses.flatMap TransportUse.accepted = s.emitted)
      ∧ (s.standing = .finished (.ok ()) →
        uses.getLast? = some (.flush .flushed)
          ∧ uses.flatMap TransportUse.accepted = s.emitted
          ∧ s.link.encoder.isDone = true ∧ .ok .done ∈ s.rounds.map Round.result)
      ∧ (∀ offered report, .write offered report ∈ uses → offered ≠ [])
      ∧ uses.Pairwise (fun use _ => use.isError = true → use.isInterrupted = true)
      ∧ uses.IsChain TransportUse.Repeats
      ∧ (∀ use ∈ uses.getLast?, use.isInterrupted = true →
        ∃ t offered report progress, s.standing = .running t
          ∧ t.stage = .write offered progress ∧ use = .write offered report) := by
  intro s uses
  have hordered : Ordered s.standing uses := ordered_after_anew capacity l moves
  have haccounts : s.Accounts uses := accounts_after_anew capacity l moves
  refine ⟨?_, ?_, hordered.offered, hordered.errors, hordered.repeated,
    hordered.interrupted⟩
  · intro waited hstage
    refine ⟨hordered.flushed (.inl ⟨waited, hstage⟩), ?_⟩
    have htells := haccounts.standing
    have hkept := haccounts.kept
    have hlive : ∀ t : Transmission, t.stage = .await waited → t.unsent = [] := by
      intro t hawait
      rw [Transmission.unsent, hawait]
    cases hstanding : s.standing with
    | running t | suspended t =>
      rw [hstanding] at hstage htells hkept
      rw [Standing.Tells, hlive t (Option.some.inj hstage), List.append_nil] at htells
      rw [htells, hkept (by simp)]
    | finished result =>
      rw [hstanding] at hstage
      cases hstage
  · intro hfinished
    refine ⟨hordered.flushed (.inr hfinished), ?_,
      haccounts.last (by rw [hfinished]; trivial)⟩
    have htells := haccounts.standing
    rw [hfinished] at htells
    rw [← haccounts.kept (by rw [hfinished]; simp)]
    exact htells

/-- An upload over a transport whose first write is interrupted. -/
def interruptedUpload (limits : Limits) : Sending Bytes (Observed ScriptedTransport) :=
  (anew 64 ⟨Encoder.start Run.uploadPlan limits, { body := Run.upload.body },
    ⟨{ writes := [.failed ⟨.interrupted, none⟩] }, []⟩⟩).after (List.replicate 4 .step)

/-- The write that follows an interrupted one is made, and it brings the
message. -/
theorem writes_after_error :
    ¬ (interruptedUpload {}).link.transport.uses.Pairwise
        (fun use later => use.isError = true → later.isWrite = false)
      ∧ (interruptedUpload {}).standing = .finished (.ok ())
      ∧ (interruptedUpload {}).link.transport.accepted
        = (interruptedUpload {}).emitted := by
  decide +kernel

end Sending

end HttpWire
