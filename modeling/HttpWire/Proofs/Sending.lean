import HttpWire.Proofs.Finality
import HttpWire.Proofs.Runs

/-!
# Sending, step by step

A message is sent by polling one transmission until it is finished, and between
the polls producers feed the body and the queue. `Sending` follows that in single
steps. Producers may come between any two of them, which is more than they can do
when a poll takes many steps at once (`Sending.after_poll`), so what is true of
every list of moves is true of every sequence of polls.

A sending remembers the rounds of its transmission, that is, what each writing
call of the encoder wrote and returned. The rounds are a run of the encoder like
any other: `Sending.mirrors_after` finds the moves of that run, and with them
everything known of runs is known of sendings.

What a transport was asked, it remembers itself: `Observed` is the transport
inside with a record, and forgetting the record is forgetting nothing else
(`Sending.forget_after`).
-/

namespace HttpWire

deriving instance DecidableEq for Standing

/-- What can happen to a sending. -/
inductive SendMove (σ : Type)
  /-- the transmission takes a step -/
  | step
  /-- the body source is changed from outside -/
  | feed (f : σ → σ)
  /-- a producer of chunks does something to the queue -/
  | produce (act : ChunkAct)

/-- What a writing call of the encoder wrote into an empty buffer,
and what it returned. -/
structure Round where
  output : Bytes
  result : Except Failure Progress

/-- What of a round is to be sent. -/
def Round.kept (r : Round) : Bytes :=
  match r.result with
  | .ok _ => r.output
  | .error _ => []

/-- What the transmission has not offered with success of its last round. -/
def Transmission.unsent (t : Transmission) : Bytes :=
  match t.stage with
  | .write rest _ => rest
  | .encode | .flush | .await _ | .finish => []

/-- The round that the next step of a transmission encodes, if it does. -/
def Transmission.round? {σ τ : Type} [Source σ] (t : Transmission)
    (l : Link σ τ) : Option Round :=
  match t.stage with
  | .encode =>
    let w := l.encoder.write l.supply (Buffer.empty t.capacity)
    some ⟨w.dst.bytes, w.result⟩
  | .write _ _ | .flush | .await _ | .finish => none

/-- A transmission on its link, with a record of the rounds that it has written. -/
structure Sending (σ τ : Type) where
  standing : Standing
  link : Link σ τ
  /-- the rounds so far, in order -/
  rounds : List Round := []

namespace Sending

variable {σ τ : Type}

/-- A new encoder and a new transmission for it. -/
def start (capacity : Nat) (plan : Plan) (limits : Limits) (supply : Supply σ)
    (transport : τ) : Sending σ τ where
  standing := .running { capacity := capacity }
  link :=
    { encoder := Encoder.start plan limits, supply := supply, transport := transport }

/-- Everything that the encoder has written. -/
def emitted (s : Sending σ τ) : Bytes :=
  s.rounds.flatMap Round.output

/-- What the encoder has written in rounds that did not fail. -/
def encoded (s : Sending σ τ) : Bytes :=
  s.rounds.flatMap Round.kept

variable [Source σ] [Transport τ]

/-- One step of the transmission, as long as it is not finished. -/
def advance (s : Sending σ τ) : Sending σ τ :=
  match s.standing with
  | .running t | .suspended t =>
    { standing := (t.step s.link).1, link := (t.step s.link).2,
      rounds := s.rounds ++ (t.round? s.link).toList }
  | .finished _ => s

/-- One move of a sending. -/
def step (s : Sending σ τ) : SendMove σ → Sending σ τ
  | .step => s.advance
  | .feed f =>
    { s with link := { s.link with
        supply := { s.link.supply with body := s.link.supply.body.map f } } }
  | .produce act =>
    { s with link := { s.link with
        supply := { s.link.supply with
          queue := s.link.supply.queue.map (fun q => (q.produce act).1) } } }

/-- The sending after a list of moves. -/
def after (s : Sending σ τ) (moves : List (SendMove σ)) : Sending σ τ :=
  moves.foldl step s

theorem advance_eq {s : Sending σ τ} {t : Transmission}
    (h : s.standing = .running t ∨ s.standing = .suspended t) :
    s.advance = ⟨(t.step s.link).1, (t.step s.link).2,
      s.rounds ++ (t.round? s.link).toList⟩ := by
  unfold advance
  rcases h with h | h <;> rw [h]

/-- A transmission that is not finished takes a step, and one that is
finished does nothing. -/
theorem advance_cases (s : Sending σ τ) :
    (∃ t, (s.standing = .running t ∨ s.standing = .suspended t)
        ∧ s.advance = ⟨(t.step s.link).1, (t.step s.link).2,
          s.rounds ++ (t.round? s.link).toList⟩)
      ∨ (∃ result, s.standing = .finished result) ∧ s.advance = s := by
  cases hstanding : s.standing with
  | running t => exact .inl ⟨t, .inl rfl, advance_eq (.inl hstanding)⟩
  | suspended t => exact .inl ⟨t, .inr rfl, advance_eq (.inr hstanding)⟩
  | finished result => exact .inr ⟨⟨result, rfl⟩, by rw [advance, hstanding]⟩

/-- A poll of a transmission that is not finished is so many steps in a row. -/
theorem after_poll {s : Sending σ τ} {t : Transmission} (budget : Nat)
    (h : s.standing = .running t ∨ s.standing = .suspended t) :
    ∃ steps, ((s.after (List.replicate steps .step)).standing,
      (s.after (List.replicate steps .step)).link) = t.run (budget + 1) s.link := by
  induction budget generalizing s t with
  | zero =>
    refine ⟨1, ?_⟩
    show (s.advance.standing, s.advance.link) = _
    rw [advance_eq h, Transmission.run]
    split
    · next heq => rw [heq, Transmission.run]
    · rfl
  | succ budget ih =>
    rw [Transmission.run]
    split
    · next t' l' heq =>
      have hnext : s.advance.standing = .running t' ∧ s.advance.link = l' := by
        rw [advance_eq h, heq]
        exact ⟨rfl, rfl⟩
      obtain ⟨steps, hsteps⟩ := ih (.inl hnext.1)
      refine ⟨steps + 1, ?_⟩
      rw [hnext.2] at hsteps
      exact hsteps
    · refine ⟨1, ?_⟩
      show (s.advance.standing, s.advance.link) = _
      rw [advance_eq h]

/-! ## Rounds are writing calls -/

/-- The run has done with the encoder what the sending has done with it. -/
structure Mirrors (s : Sending σ τ) (r : Run σ) : Prop where
  encoder : r.encoder = s.link.encoder
  supply : r.supply = s.link.supply
  emitted : r.emitted = s.emitted
  results : r.results = s.rounds.map Round.result

theorem Mirrors.advance {s : Sending σ τ} {r : Run σ} (h : s.Mirrors r) :
    ∃ ms, s.advance.Mirrors (r.after ms) := by
  obtain ⟨hencoder, hsupply, hemitted, hresults⟩ := h
  rcases s.advance_cases with ⟨t, -, hadvance⟩ | ⟨-, hsame⟩
  · obtain ⟨hleft, hgiven⟩ := t.step_link s.link
    rw [hadvance]
    cases hstage : t.stage with
    | encode =>
      simp only [Transmission.call?, Transmission.round?, hstage] at hleft hgiven ⊢
      refine ⟨[.write (Buffer.empty t.capacity)], ⟨?_, ?_, ?_, ?_⟩⟩
      · show (r.encoder.write r.supply _).state = _
        rw [hencoder, hsupply, hleft]
        rfl
      · show (r.encoder.write r.supply _).supply = _
        rw [hencoder, hsupply, hgiven]
        rfl
      · show r.emitted ++ (r.encoder.write r.supply _).dst.bytes = _
        rw [hencoder, hsupply, hemitted]
        simp [Sending.emitted]
      · show r.results ++ [(r.encoder.write r.supply _).result] = _
        rw [hencoder, hsupply, hresults]
        simp
    | await waited =>
      simp only [Transmission.call?, Transmission.round?, hstage] at hleft hgiven ⊢
      refine ⟨[.poll], ⟨?_, ?_, ?_, ?_⟩⟩
      · exact hencoder.trans hleft.symm
      · show (r.encoder.poll r.supply).2 = _
        rw [hencoder, hsupply, hgiven]
        rfl
      · exact hemitted.trans (by simp [Sending.emitted])
      · exact hresults.trans (by simp)
    | write rest progress | flush | finish =>
      simp only [Transmission.call?, Transmission.round?, hstage] at hleft hgiven ⊢
      refine ⟨[], ⟨hencoder.trans hleft.symm, hsupply.trans hgiven.symm, ?_, ?_⟩⟩
      · exact hemitted.trans (by simp [Sending.emitted])
      · exact hresults.trans (by simp)
  · rw [hsame]
    exact ⟨[], hencoder, hsupply, hemitted, hresults⟩

theorem Mirrors.step {s : Sending σ τ} {r : Run σ} (h : s.Mirrors r)
    (move : SendMove σ) :
    ∃ ms, (s.step move).Mirrors (r.after ms) := by
  cases move with
  | step => exact h.advance
  | feed f =>
    refine ⟨[.feed f], ⟨h.encoder, ?_, h.emitted, h.results⟩⟩
    show { r.supply with body := r.supply.body.map f } = _
    rw [h.supply]
    rfl
  | produce act =>
    obtain ⟨encoder, ⟨body, queue⟩, emitted, sent, results⟩ := r
    obtain ⟨hencoder, hsupply, hemitted, hresults⟩ := h
    simp only at hencoder hsupply hemitted hresults
    refine ⟨[.produce act], ?_⟩
    cases queue with
    | none =>
      exact ⟨hencoder, by simp [Sending.step, ← hsupply]; rfl, hemitted, hresults⟩
    | some q =>
      exact ⟨hencoder, by simp [Sending.step, ← hsupply]; rfl, hemitted, hresults⟩

/-- The rounds of a sending are the writing calls of a run. -/
theorem mirrors_after (capacity : Nat) (plan : Plan) (limits : Limits)
    (supply : Supply σ) (transport : τ) (moves : List (SendMove σ)) :
    ∃ ms, ((start capacity plan limits supply transport).after moves).Mirrors
      ((Run.start plan limits supply).after ms) := by
  have hafter :
      ∀ (moves : List (SendMove σ)) {s : Sending σ τ} {r : Run σ}, s.Mirrors r →
      ∃ ms, (s.after moves).Mirrors (r.after ms) := by
    intro moves
    induction moves with
    | nil => exact fun h => ⟨[], h⟩
    | cons move moves ih =>
      intro s r h
      obtain ⟨first, hfirst⟩ := h.step move
      obtain ⟨more, hmore⟩ := ih hfirst
      refine ⟨first ++ more, ?_⟩
      rw [Run.after, List.foldl_append]
      exact hmore
  exact hafter moves ⟨rfl, rfl, rfl, rfl⟩

end Sending

/-! ## What a transport was asked -/

/-- Something that was asked of a transport, with the bytes that were
offered, and how it answered. -/
inductive TransportUse
  | write (offered : Bytes) (report : WriteReport)
  | flush (report : FlushReport)
  deriving DecidableEq, Repr

/-- The bytes that a use got accepted. -/
def TransportUse.accepted : TransportUse → Bytes
  | .write offered (.accepted n) => offered.take n
  | .write _ _ | .flush _ => []

/-- A transport with a record of its uses, the first one first. -/
structure Observed (τ : Type) where
  transport : τ
  uses : List TransportUse := []

/-- The bytes accepted so far. -/
def Observed.accepted {τ : Type} (o : Observed τ) : Bytes :=
  o.uses.flatMap TransportUse.accepted

instance {τ : Type} [Transport τ] : Transport (Observed τ) where
  write o offered :=
    let (report, transport) := Transport.write o.transport offered
    (report, ⟨transport, o.uses ++ [.write offered report]⟩)
  flush o :=
    let (report, transport) := Transport.flush o.transport
    (report, ⟨transport, o.uses ++ [.flush report]⟩)
  accepted_le o offered n h := Transport.accepted_le o.transport offered n h

theorem Observed.write_eq {τ : Type} [Transport τ] (o : Observed τ) (offered : Bytes) :
    Transport.write o offered = ((Transport.write o.transport offered).1,
      ⟨(Transport.write o.transport offered).2,
        o.uses ++ [.write offered (Transport.write o.transport offered).1]⟩) :=
  rfl

theorem Observed.flush_eq {τ : Type} [Transport τ] (o : Observed τ) :
    Transport.flush o = ((Transport.flush o.transport).1,
      ⟨(Transport.flush o.transport).2,
        o.uses ++ [.flush (Transport.flush o.transport).1]⟩) :=
  rfl

/-- The link without the record of its transport. -/
def Link.forget {σ τ : Type} (l : Link σ (Observed τ)) : Link σ τ :=
  ⟨l.encoder, l.supply, l.transport.transport⟩

/-- The sending without the record of its transport. -/
def Sending.forget {σ τ : Type} (s : Sending σ (Observed τ)) : Sending σ τ :=
  ⟨s.standing, s.link.forget, s.rounds⟩

section Forget

variable {σ τ : Type} [Source σ] [Transport τ]

theorem Transmission.step_forget (t : Transmission) (l : Link σ (Observed τ)) :
    t.step l.forget = ((t.step l).1, (t.step l).2.forget) := by
  obtain ⟨encoder, supply, o⟩ := l
  show t.step ⟨encoder, supply, o.transport⟩
    = ((t.step ⟨encoder, supply, o⟩).1, (t.step ⟨encoder, supply, o⟩).2.forget)
  have hflush :
      ∀ next : Standing, t.flushThen next (⟨encoder, supply, o.transport⟩ : Link σ τ)
      = ((t.flushThen next (⟨encoder, supply, o⟩ : Link σ (Observed τ))).1,
        (t.flushThen next (⟨encoder, supply, o⟩ : Link σ (Observed τ))).2.forget) := by
    intro next
    simp only [flushThen, Observed.flush_eq]
    cases (Transport.flush o.transport).1 <;> rfl
  unfold step
  cases t.stage with
  | encode =>
    simp only [encodeRound]
    rcases encoder.write supply (Buffer.empty t.capacity) with
      ⟨failure | progress, state, supply', dst⟩
    · rfl
    · simp only
      split <;> rfl
  | write rest progress =>
    simp only [offer, Observed.write_eq]
    rcases (Transport.write o.transport rest).1 with n | _ | error
    · cases n with
      | zero => rfl
      | succ n =>
        simp only
        split <;> rfl
    · rfl
    · simp only
      split <;> rfl
  | flush => exact hflush _
  | await waited =>
    simp only [awaitBody]
    rcases encoder.poll supply with ⟨_ | _ | failure, supply'⟩
    · simp only
      split
      · rfl
      · split <;> rfl
    · rfl
    · rfl
  | finish => exact hflush _

theorem Sending.forget_step (s : Sending σ (Observed τ)) (move : SendMove σ) :
    (s.step move).forget = s.forget.step move := by
  obtain ⟨standing, link, rounds⟩ := s
  cases move with
  | step =>
    cases standing with
    | running t | suspended t =>
      show Sending.mk (t.step link).1 (t.step link).2.forget
        (rounds ++ (t.round? link).toList)
        = ⟨(t.step link.forget).1, (t.step link.forget).2,
          rounds ++ (t.round? link).toList⟩
      rw [t.step_forget]
    | finished result => rfl
  | feed f => rfl
  | produce act => rfl

/-- A sending over a transport with a record is the sending over
the transport inside. -/
theorem Sending.forget_after (s : Sending σ (Observed τ)) (moves : List (SendMove σ)) :
    (s.after moves).forget = s.forget.after moves := by
  induction moves generalizing s with
  | nil => rfl
  | cons move moves ih =>
    have hmore := ih (s.step move)
    rw [forget_step] at hmore
    exact hmore

end Forget

end HttpWire
