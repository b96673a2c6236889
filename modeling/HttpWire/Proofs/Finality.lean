import Mathlib.Control.Monad.Basic
import HttpWire.Proofs.Delivery
import HttpWire.Source.Feed
import HttpWire.Transmission
import HttpWire.Transport.Scripted

/-!
# When a failure is the end

An encoder that has failed stays failed: it writes nothing, reports that it was
aborted, is never done, and leaves its supply alone, whether it is called directly
or by a transmission. `Link.IsOver` says all of that, and it holds from then on
because no use of a failed encoder changes it (`Link.after_of_failed`).

Which failures bring an encoder there is another matter. Every error of a writing
call does. An error of the body that comes out of asking for readiness does not:
it is handed on, and the encoder stands in the body as before.
`Link.isOver_after_failure_iff` says that this is the only exception, and
`Link.done_after_failure` shows what comes of it: a source that reports its error
only once is at its end for the next writing call, and the message that was given
up is brought to a regular end.
-/

namespace HttpWire

/-- A call of an encoder: to write into a buffer, or to say whether
writing would get anywhere. -/
inductive Call
  | write (dst : Buffer)
  | poll

/-- What a call returns; a writing call also leaves its buffer. -/
inductive Answer
  | wrote (result : Except Failure Progress) (dst : Buffer)
  | polled (poll : Poll)
  deriving DecidableEq

/-- The failure that a call returned, if it did. -/
def Answer.failure? : Answer → Option Failure
  | .wrote (.error failure) _ => some failure
  | .polled (.failed failure) => some failure
  | _ => none

/-- The call by which the next step of a transmission uses the
encoder, if it does. -/
def Transmission.call? (t : Transmission) : Option Call :=
  match t.stage with
  | .encode => some (.write (Buffer.empty t.capacity))
  | .await _ => some .poll
  | .write _ _ | .flush | .finish => none

/-- One thing that is done with an encoder and what it works on. -/
inductive Use (σ : Type)
  | call (call : Call)
  /-- a step of a transmission -/
  | transmit (t : Transmission)
  /-- the supply is changed by producers -/
  | produce (f : Supply σ → Supply σ)

namespace Link

variable {σ τ : Type} [Source σ] [Transport τ]

/-- Calls the encoder of a link. -/
def call (l : Link σ τ) : Call → Answer × Link σ τ
  | .write dst =>
    let w := l.encoder.write l.supply dst
    (.wrote w.result w.dst, { l with encoder := w.state, supply := w.supply })
  | .poll =>
    let (poll, supply) := l.encoder.poll l.supply
    (.polled poll, { l with supply := supply })

/-- One use, and what the encoder answered if it was called. -/
def use (l : Link σ τ) : Use σ → Option Answer × Link σ τ
  | .call c => (some (l.call c).1, (l.call c).2)
  | .transmit t => (t.call?.map (fun c => (l.call c).1), (t.step l).2)
  | .produce f => (none, { l with supply := f l.supply })

/-- The link after a list of uses. -/
def after (l : Link σ τ) (uses : List (Use σ)) : Link σ τ :=
  uses.foldl (fun l use => (l.use use).2) l

/-- Nothing comes of the message any more, and its supply is left alone. -/
structure IsOver (l : Link σ τ) : Prop where
  write : ∀ dst, l.call (.write dst) = (.wrote (.error .aborted) dst, l)
  poll : l.call .poll = (.polled (.failed .aborted), l)
  encode : ∀ t : Transmission, t.stage = .encode →
    t.step l = (.finished (.error .aborted), l)
  await : ∀ (t : Transmission) waited, t.stage = .await waited →
    t.step l = (.finished (.error .aborted), l)
  transmit : ∀ t : Transmission,
    (t.step l).2.encoder = l.encoder ∧ (t.step l).2.supply = l.supply
  not_done : l.encoder.isDone = false

end Link

/-! ## Transmissions call the encoder like everyone else -/

namespace Transmission

variable {σ τ : Type} [Source σ] [Transport τ]

/-- A step of a transmission leaves of the encoder and its supply
what its call leaves. -/
theorem step_link (t : Transmission) (l : Link σ τ) :
    let called := (t.call?.map (fun c => (l.call c).2)).getD l
    (t.step l).2.encoder = called.encoder ∧ (t.step l).2.supply = called.supply := by
  have hflush : ∀ next : Standing,
      (t.flushThen next l).2.encoder = l.encoder
          ∧ (t.flushThen next l).2.supply = l.supply := by
    intro next
    unfold flushThen
    rcases Transport.flush l.transport with ⟨_ | _ | error, transport⟩ <;>
      exact ⟨rfl, rfl⟩
  unfold step call?
  cases t.stage with
  | encode =>
    simp only [Option.map_some, Option.getD_some, encodeRound, Link.call]
    cases (l.encoder.write l.supply (Buffer.empty t.capacity)).result with
    | error failure => exact ⟨rfl, rfl⟩
    | ok progress =>
      simp only
      split <;> exact ⟨rfl, rfl⟩
  | write rest progress =>
    simp only [Option.map_none, Option.getD_none, offer]
    rcases Transport.write l.transport rest with ⟨count | _ | error, transport⟩
    · cases count with
      | zero => exact ⟨rfl, rfl⟩
      | succ n =>
        simp only
        split <;> exact ⟨rfl, rfl⟩
    · exact ⟨rfl, rfl⟩
    · simp only
      split <;> exact ⟨rfl, rfl⟩
  | flush => exact hflush _
  | await waited =>
    simp only [Option.map_some, Option.getD_some, awaitBody, Link.call]
    rcases l.encoder.poll l.supply with ⟨_ | _ | failure, supply⟩
    · simp only
      split
      · exact ⟨rfl, rfl⟩
      · split <;> exact ⟨rfl, rfl⟩
    · exact ⟨rfl, rfl⟩
    · exact ⟨rfl, rfl⟩
  | finish => exact hflush _

/-- A failure that the encoder reports ends the transmission with it. -/
theorem step_of_failure {t : Transmission} {l : Link σ τ} {c : Call}
    {failure : Failure} (hcall : t.call? = some c)
    (h : (l.call c).1.failure? = some failure) :
    t.step l = (.finished (.error failure), (l.call c).2) := by
  unfold call? at hcall
  unfold step
  cases hstage : t.stage <;> rw [hstage] at hcall <;> cases hcall
  case encode =>
    simp only [encodeRound, Link.call] at h ⊢
    cases hresult : (l.encoder.write l.supply (Buffer.empty t.capacity)).result with
    | error failure' =>
      rw [hresult] at h
      cases h
      rfl
    | ok progress =>
      rw [hresult] at h
      cases h
  case await waited =>
    simp only [awaitBody, Link.call] at h ⊢
    rcases hpoll : l.encoder.poll l.supply with ⟨_ | _ | failure', supply⟩ <;>
      rw [hpoll] at h <;> cases h
    rfl

end Transmission

/-! ## A failed encoder stays failed -/

namespace Link

variable {σ τ : Type} [Source σ] [Transport τ] {l : Link σ τ}

theorem isOver_of_failed (h : l.encoder.phase = .failed) : l.IsOver := by
  have hwrite : ∀ dst, l.call (.write dst) = (.wrote (.error .aborted) dst, l) := by
    intro dst
    simp only [call, Encoder.write, h]
  have hpoll : l.call .poll = (.polled (.failed .aborted), l) := by
    simp only [call, Encoder.poll, h]
  have hcall : ∀ c, (l.call c).1.failure? = some .aborted ∧ (l.call c).2 = l := by
    intro c
    cases c with
    | write dst =>
      rw [hwrite]
      exact ⟨rfl, rfl⟩
    | poll =>
      rw [hpoll]
      exact ⟨rfl, rfl⟩
  have hstep : ∀ {t : Transmission} {c : Call}, t.call? = some c →
      t.step l = (.finished (.error .aborted), l) := by
    intro t c ht
    rw [Transmission.step_of_failure ht (hcall c).1, (hcall c).2]
  refine ⟨hwrite, hpoll, ?_, ?_, ?_, by rw [Encoder.isDone, h]; rfl⟩
  · intro t ht
    exact hstep (by rw [Transmission.call?, ht])
  · intro t waited ht
    exact hstep (by rw [Transmission.call?, ht])
  · intro t
    obtain ⟨hencoder, hsupply⟩ := t.step_link l
    cases ht : t.call? with
    | none =>
      rw [ht] at hencoder hsupply
      exact ⟨hencoder, hsupply⟩
    | some c =>
      rw [hstep ht]
      exact ⟨rfl, rfl⟩

theorem use_of_failed (h : l.encoder.phase = .failed) (use : Use σ) :
    (l.use use).2.encoder.phase = .failed := by
  have hover := isOver_of_failed h
  cases use with
  | call c =>
    cases c with
    | write dst =>
      simp only [Link.use, hover.write]
      exact h
    | poll =>
      simp only [Link.use, hover.poll]
      exact h
  | transmit t =>
    show (t.step l).2.encoder.phase = .failed
    rw [(hover.transmit t).1]
    exact h
  | produce f => exact h

theorem after_of_failed (h : l.encoder.phase = .failed) (uses : List (Use σ)) :
    (l.after uses).encoder.phase = .failed := by
  induction uses generalizing l with
  | nil => exact h
  | cons use uses ih => exact ih (use_of_failed h use)

/-! ## Which failures are final -/

/-- A body has no failure of its own by the name of an earlier one. -/
theorem body_of_poll {e : Encoder} {b : Payload} {s : Supply σ}
    (h : e.phase = .body b) :
    (e.poll s).1 ≠ .failed .aborted := by
  rw [Encoder.poll, h]
  simp only
  rcases b.poll s with ⟨_ | _ | error, s'⟩ <;> simp

omit [Transport τ] in
/-- A failing call leaves a failed encoder, unless it handed on an error of the
body from its readiness. -/
theorem call_of_failure {c : Call} {failure : Failure}
    (h : (l.call c).1.failure? = some failure) :
    (l.call c).2.encoder.phase = .failed
      ∨ (∃ error, (l.call c).1 = .polled (.failed (.io error)))
        ∧ ∃ b, (l.call c).2.encoder.phase = .body b := by
  cases c with
  | write dst =>
    refine .inl ?_
    have hbody : ∀ (b : Payload) (dst : Buffer),
        (l.encoder.writeBody b l.supply dst).result = .error failure →
        (l.encoder.writeBody b l.supply dst).state.phase = .failed := by
      intro b dst hresult
      simp only [Encoder.writeBody] at hresult ⊢
      rw [hresult]
    have hresult : (l.encoder.write l.supply dst).result = .error failure := by
      simp only [call] at h
      cases hresult : (l.encoder.write l.supply dst).result with
      | error failure' =>
        rw [hresult] at h
        cases h
        rfl
      | ok progress =>
        rw [hresult] at h
        cases h
    show (l.encoder.write l.supply dst).state.phase = .failed
    rw [Encoder.write] at hresult ⊢
    cases hphase : l.encoder.phase with
    | head head =>
      rw [hphase] at hresult
      simp only at hresult ⊢
      split at hresult
      · next hdone =>
        rw [if_pos hdone]
        exact hbody _ _ hresult
      · cases hresult
    | body b =>
      rw [hphase] at hresult
      exact hbody b dst hresult
    | done =>
      rw [hphase] at hresult
      cases hresult
    | failed => exact hphase
  | poll =>
    cases hphase : l.encoder.phase with
    | body b =>
      refine .inr ⟨?_, b, hphase⟩
      simp only [call, Encoder.poll, hphase] at h ⊢
      rcases hpoll : b.poll l.supply with ⟨_ | _ | error, s'⟩ <;>
        rw [hpoll] at h <;> cases h
      exact ⟨error, rfl⟩
    | failed => exact .inl hphase
    | head head =>
      simp only [call, Encoder.poll, hphase] at h
      cases h
    | done =>
      simp only [call, Encoder.poll, hphase] at h
      cases h

/-- A use that calls the encoder leaves of it what the call leaves. -/
theorem use_eq_call {use : Use σ} {answer : Answer} (h : (l.use use).1 = some answer) :
    ∃ c, answer = (l.call c).1 ∧ (l.use use).2.encoder = (l.call c).2.encoder := by
  cases use with
  | call c =>
    cases h
    exact ⟨c, rfl, rfl⟩
  | transmit t =>
    simp only [Link.use] at h
    obtain ⟨hencoder, -⟩ := t.step_link l
    cases ht : t.call? with
    | none =>
      rw [ht] at h
      cases h
    | some c =>
      rw [ht] at h hencoder
      cases h
      exact ⟨c, rfl, hencoder⟩
  | produce f => cases h

/-- When the encoder has answered with a failure, then whatever is done
afterwards, nothing comes of the message any more; except exactly if the failure
was an error of the body that its readiness brought. -/
theorem isOver_after_failure_iff {use : Use σ} {answer : Answer} {failure : Failure}
    (hanswer : (l.use use).1 = some answer)
    (hfailure : answer.failure? = some failure) :
    (∀ uses, ((l.use use).2.after uses).IsOver)
      ↔ ∀ error, answer ≠ .polled (.failed (.io error)) := by
  obtain ⟨c, rfl, hencoder⟩ := use_eq_call hanswer
  constructor
  · intro hover error hpolled
    rcases call_of_failure hfailure with hfailed | ⟨-, b, hbody⟩
    · -- asking for readiness changes no encoder, and a failed one
      -- would have said so
      cases c with
      | write dst => cases hpolled
      | poll =>
        have hpoll := (isOver_of_failed hfailed).poll
        have hphase : l.encoder.phase = .failed := hfailed
        simp only [call, Encoder.poll, hphase] at hpolled
        cases hpolled
    · have hpoll := (hover []).poll
      rw [← hencoder] at hbody
      refine body_of_poll (s := (l.use use).2.supply) hbody ?_
      simp only [after, List.foldl_nil, call, Prod.mk.injEq, Answer.polled.injEq]
        at hpoll
      exact hpoll.1
  · intro hnot uses
    rcases call_of_failure hfailure with hfailed | ⟨⟨error, hpolled⟩, -⟩
    · rw [← hencoder] at hfailed
      exact isOver_of_failed (after_of_failed hfailed uses)
    · exact absurd hpolled (hnot error)

/-- The producer of a body gives it up: it sends the error and drops
its end of the channel. -/
def giveUp (error : IoError) (s : Supply Feed) : Supply Feed :=
  { s with body := s.body.map (fun feed =>
      { feed with
        channel :=
          ((feed.channel.send? (.error error)).getD feed.channel).dropSender }) }

/-- An upload whose body was given up after the head was written. -/
def givenUp : Link Feed ScriptedTransport :=
  after
    { encoder := Encoder.start Run.uploadPlan {}
      supply := { body := some {} }, transport := {} }
    [.call (.write (Buffer.empty 1024)), .produce (giveUp ⟨.connectionReset, none⟩)]

/-- The encoder reports that the body was given up, and then ends the message
as if it were complete. -/
theorem done_after_failure :
    (givenUp.use (.call .poll)).1
      = some (.polled (.failed (.io ⟨.connectionReset, none⟩)))
      ∧ ((givenUp.use (.call .poll)).2.use (.call (.write (Buffer.empty 1024)))).1
        = some (.wrote (.ok .done)
          ((Buffer.empty 1024).append (Bytes.ofString "0\r\n\r\n")))
      ∧ ¬ ∀ uses, ((givenUp.use (.call .poll)).2.after uses).IsOver := by
  refine ⟨by decide +kernel, by decide +kernel, fun hover => ?_⟩
  have hdone := (hover [.call (.write (Buffer.empty 1024))]).not_done
  exact absurd hdone (by decide +kernel)

/-- An upload that announces a body and has none. -/
def bodyless : Link Feed ScriptedTransport where
  encoder := Encoder.start { Run.uploadPlan with framing := .length 2 } {}
  supply := {}
  transport := {}

theorem isOver_bodyless :
    (bodyless.use (.call (.write (Buffer.empty 1024)))).1.bind Answer.failure?
      = some (.shortBody 2 0)
      ∧ ∀ uses,
        ((bodyless.use (.call (.write (Buffer.empty 1024)))).2.after uses).IsOver := by
  have hfailure : (bodyless.call (.write (Buffer.empty 1024))).1.failure?
      = some (.shortBody 2 0) := by
    decide +kernel
  refine ⟨hfailure, (isOver_after_failure_iff rfl hfailure).mpr ?_⟩
  intro error h
  cases h

end Link

end HttpWire
