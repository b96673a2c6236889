import HttpWire.Proofs.Acceptance

/-!
# What a step of a transmission can do

`Transmission.Step` lists it: for every stage, the standing that a step can leave,
with what it asked of the transport and the round that it encoded. A step asks the
transport for one thing at most, and never in the step that encodes. Every law of
a transmission that is about the order of its uses of the transport is an
induction over its steps with a case for each line of that list, and none of them
opens `Transmission.step` again.

A transmission need not be the first of its encoder. `Sending.anew` begins one on
whatever an earlier one has left, and with a new record of the transport, so that
what the record says is said of this transmission.
-/

namespace HttpWire

namespace Transmission

/-- How a step can go: the standing that it leaves, what it asked of the
transport, and its round. -/
inductive Step (t : Transmission) : Standing → List TransportUse → List Round → Prop
  | roundFailed {output : Bytes} {failure : Failure} : t.stage = .encode →
    Step t (.finished (.error failure)) [] [⟨output, .error failure⟩]
  | roundEmpty {progress : Progress} : t.stage = .encode →
    Step t (.running { t with stage := afterEmptyRound progress }) []
      [⟨[], .ok progress⟩]
  | roundFull {output : Bytes} {progress : Progress} : t.stage = .encode →
      output ≠ [] →
    Step t (.running { t with stage := .write output progress, idleRounds := 0 }) []
      [⟨output, .ok progress⟩]
  | acceptedAll {rest : Bytes} {progress : Progress} {n : Nat} :
    t.stage = .write rest progress → 0 < n → rest.drop n = [] → Step t
    (.running { t with stage := afterRound progress }) [.write rest (.accepted n)] []
  | acceptedPart {rest : Bytes} {progress : Progress} {n : Nat} :
    t.stage = .write rest progress → 0 < n → rest.drop n ≠ [] →
    Step t (.running { t with stage := .write (rest.drop n) progress })
    [.write rest (.accepted n)] []
  | acceptedNone {rest : Bytes} {progress : Progress} :
    t.stage = .write rest progress →
    Step t (.finished (.error (.io ⟨.writeZero, none⟩))) [.write rest (.accepted 0)] []
  | writePending {rest : Bytes} {progress : Progress} :
    t.stage = .write rest progress → Step t (.suspended t) [.write rest .pending] []
  | writeInterrupted {rest : Bytes} {progress : Progress} {error : IoError} :
    t.stage = .write rest progress → error.kind = .interrupted →
    Step t (.running t) [.write rest (.failed error)] []
  | writeFailed {rest : Bytes} {progress : Progress} {error : IoError} :
    t.stage = .write rest progress → error.kind ≠ .interrupted →
    Step t (.finished (.error (.io error))) [.write rest (.failed error)] []
  | flushed : t.stage = .flush →
    Step t (.running { t with stage := .await false }) [.flush .flushed] []
  | finished : t.stage = .finish → Step t (.finished (.ok ())) [.flush .flushed] []
  | flushPending : t.stage = .flush ∨ t.stage = .finish →
      Step t (.suspended t) [.flush .pending] []
  | flushFailed {error : IoError} : t.stage = .flush ∨ t.stage = .finish →
    Step t (.finished (.error (.io error))) [.flush (.failed error)] []
  | bodyReady {waited : Bool} {idle : Nat} : t.stage = .await waited →
    Step t (.running { t with stage := .encode, idleRounds := idle }) [] []
  | bodyPending {waited : Bool} : t.stage = .await waited →
    Step t (.suspended { t with stage := .await true }) [] []
  | bodyFailed {waited : Bool} {failure : Failure} : t.stage = .await waited →
    Step t (.finished (.error failure)) [] []

variable {σ τ : Type} [Source σ] [Transport τ]

/-- There is no other way for a step to go. -/
theorem step_spec (t : Transmission) (l : Link σ (Observed τ)) :
    ∃ uses, (t.step l).2.transport.uses = l.transport.uses ++ uses
      ∧ t.Step (t.step l).1 uses (t.round? l).toList := by
  obtain ⟨e, supply, o⟩ := l
  have hflush : ∀ next : Standing, t.stage = .flush ∨ t.stage = .finish →
      t.Step next [.flush .flushed] [] →
      ∃ uses,
        (t.flushThen next (⟨e, supply, o⟩ : Link σ (Observed τ))).2.transport.uses
        = o.uses ++ uses
        ∧ t.Step (t.flushThen next (⟨e, supply, o⟩ : Link σ (Observed τ))).1
            uses [] := by
    intro next hstage hnext
    simp only [flushThen, Observed.flush_eq]
    rcases (Transport.flush o.transport).1 with _ | _ | error
    · exact ⟨_, rfl, hnext⟩
    · exact ⟨_, rfl, .flushPending hstage⟩
    · exact ⟨_, rfl, .flushFailed hstage⟩
  unfold step round?
  cases hstage : t.stage with
  | encode =>
    simp only [encodeRound, Option.toList_some]
    rcases e.write supply (Buffer.empty t.capacity) with
      ⟨failure | progress, e', supply', dst⟩
    · exact ⟨[], (List.append_nil _).symm, .roundFailed hstage⟩
    · simp only
      split
      · next hempty =>
        rw [List.isEmpty_iff.mp hempty]
        exact ⟨[], (List.append_nil _).symm, .roundEmpty hstage⟩
      · next hfull =>
        exact ⟨[], (List.append_nil _).symm, .roundFull hstage (by simpa using hfull)⟩
  | write rest progress =>
    simp only [offer, Observed.write_eq, Option.toList_none]
    rcases (Transport.write o.transport rest).1 with n | _ | error
    · cases n with
      | zero => exact ⟨_, rfl, .acceptedNone hstage⟩
      | succ n =>
        simp only
        split
        · next hall =>
            exact ⟨_, rfl, .acceptedAll hstage n.succ_pos (List.isEmpty_iff.mp hall)⟩
        · next hpart =>
            exact ⟨_, rfl, .acceptedPart hstage n.succ_pos (by simpa using hpart)⟩
    · exact ⟨_, rfl, .writePending hstage⟩
    · simp only
      split
      · next hagain => exact ⟨_, rfl, .writeInterrupted hstage hagain⟩
      · next hbroken => exact ⟨_, rfl, .writeFailed hstage hbroken⟩
  | flush => exact hflush _ (.inl hstage) (.flushed hstage)
  | await waited =>
    simp only [awaitBody, Option.toList_none]
    rcases e.poll supply with ⟨_ | _ | failure, supply'⟩
    · simp only
      split
      · exact ⟨[], (List.append_nil _).symm, .bodyReady hstage⟩
      · split
        · exact ⟨[], (List.append_nil _).symm, .bodyReady hstage⟩
        · exact ⟨[], (List.append_nil _).symm, .bodyFailed hstage⟩
    · exact ⟨[], (List.append_nil _).symm, .bodyPending hstage⟩
    · exact ⟨[], (List.append_nil _).symm, .bodyFailed hstage⟩
  | finish => exact hflush _ (.inr hstage) (.finished hstage)

end Transmission

namespace Sending

variable {σ τ : Type}

/-- A new transmission on what an earlier one has left, with a new
record of the transport. -/
def anew (capacity : Nat) (l : Link σ (Observed τ)) : Sending σ (Observed τ) where
  standing := .running { capacity := capacity }
  link := { l with transport := ⟨l.transport.transport, []⟩ }

theorem accounts_anew (capacity : Nat) (l : Link σ (Observed τ)) :
    (anew capacity l).Accounts [] where
  standing := rfl
  within before offered report after heq := by simp at heq
  kept _ := rfl
  front := List.prefix_rfl
  last := by rintro (hfinish | ⟨rest, hwrite⟩) <;> contradiction

variable [Source σ] [Transport τ]

/-- The record of a new transmission accounts for it. -/
theorem accounts_after_anew (capacity : Nat) (l : Link σ (Observed τ))
    (moves : List (SendMove σ)) :
    ((anew capacity l).after moves).Accounts
      ((anew capacity l).after moves).link.transport.uses := by
  obtain ⟨uses, huses, haccounts⟩ := (accounts_anew capacity l).after moves
  rw [List.nil_append] at haccounts
  rw [show _ = uses from huses]
  exact haccounts

/-- What holds of a new transmission and is kept by every step and by
producers holds at all times. -/
theorem after_anew_induction {P : Sending σ (Observed τ) → Prop} (capacity : Nat)
    (l : Link σ (Observed τ)) (hanew : P (anew capacity l))
    (hstep : ∀ (s : Sending σ (Observed τ)) (t : Transmission)
      (next : Sending σ (Observed τ)) (uses : List TransportUse) (rounds : List Round),
      P s → s.Accounts s.link.transport.uses →
      s.standing = .running t ∨ s.standing = .suspended t →
      t.Step next.standing uses rounds →
      next.link.transport.uses = s.link.transport.uses ++ uses →
      next.rounds = s.rounds ++ rounds → P next)
    (houtside : ∀ (s : Sending σ (Observed τ)) (supply : Supply σ), P s →
      P { s with link := { s.link with supply := supply } })
    (moves : List (SendMove σ)) : P ((anew capacity l).after moves) := by
  have hkeep : ∀ (moves : List (SendMove σ)) (s : Sending σ (Observed τ)), P s →
      s.Accounts s.link.transport.uses → P (s.after moves) := by
    intro moves
    induction moves with
    | nil => exact fun s h _ => h
    | cons move moves ih =>
      intro s h haccounts
      have hnext : (s.step move).Accounts (s.step move).link.transport.uses := by
        obtain ⟨more, huses, hmore⟩ := haccounts.after [move]
        rw [show (s.step move).link.transport.uses = _ from huses]
        exact hmore
      refine ih (s.step move) ?_ hnext
      cases move with
      | step =>
        show P s.advance
        rcases s.advance_cases with ⟨t, hstanding, hadvance⟩ | ⟨-, hsame⟩
        · obtain ⟨uses, huses, hway⟩ := t.step_spec s.link
          refine hstep s t s.advance uses (t.round? s.link).toList h haccounts
            hstanding ?_ ?_ ?_
          all_goals rw [hadvance]
          · exact hway
          · exact huses
        · rw [hsame]
          exact h
      | feed f => exact houtside s _ h
      | produce act => exact houtside s _ h
  exact hkeep moves _ hanew (accounts_anew capacity l)

end Sending

end HttpWire
