import HttpWire.Proofs.Delivery
import HttpWire.Proofs.Sending

/-!
# What a transport receives

A transport may accept any part of what it is offered, keep the transmission
waiting at any byte, or fail. None of that changes the order or the completeness
of what it receives. At every step of a sending, the bytes accepted so far and
those still to be accepted of the last round are together what the encoder has
written (`Standing.Tells`). When the message is sent, the transport has exactly
its bytes; and when sending it has failed, the transport has a front of them, and
was never offered a byte that a failing call wrote (`TransportUse.Within`).

Only two stages of a transmission change this balance, and they are the two
sides of it: encoding a round adds to what is written and to what is unsent,
offering it moves bytes from the unsent to the accepted. The rest of
`Sending.Accounts` is what the last step needs, that the encoder is done when
there is no round to encode any more.

Messages follow one another on one transport. `Sent` lists the wires of those that
were sent one after another, and the transport has received their concatenation.
-/

namespace HttpWire

/-- What the standing says of the bytes that were accepted and of those that
the encoder has written. -/
def Standing.Tells (accepted encoded : Bytes) : Standing → Prop
  | .running t | .suspended t => accepted ++ t.unsent = encoded
  | .finished (.ok ()) => accepted = encoded
  | .finished (.error _) => accepted <+: encoded

/-- There is no round to encode any more, and none has failed. -/
def Standing.IsLast : Standing → Prop
  | .running t | .suspended t =>
    t.stage = .finish ∨ ∃ rest, t.stage = .write rest .done
  | .finished (.ok ()) => True
  | .finished (.error _) => False

@[simp] theorem Standing.not_isLast_error (failure : Failure) :
    ¬ IsLast (.finished (.error failure)) :=
  id

namespace TransportUse

/-- Every byte that was offered is the one that stands at its place in
`encoded`. -/
def Within (uses : List TransportUse) (encoded : Bytes) : Prop :=
  ∀ before offered report after, uses = before ++ .write offered report :: after →
    before.flatMap accepted ++ offered <+: encoded

variable {uses : List TransportUse} {encoded : Bytes}

theorem Within.append (h : Within uses encoded) (more : Bytes) :
    Within uses (encoded ++ more) :=
  fun before offered report after heq =>
    (h before offered report after heq).trans (List.prefix_append _ _)

theorem Within.concat {use : TransportUse} (h : Within uses encoded)
    (hlast : ∀ offered report, use = .write offered report →
      uses.flatMap accepted ++ offered <+: encoded) :
    Within (uses ++ [use]) encoded := by
  intro before offered report after heq
  rcases List.eq_nil_or_concat after with rfl | ⟨after, last, rfl⟩
  · obtain ⟨rfl, huse⟩ := List.append_inj' heq rfl
    exact hlast offered report (List.singleton_inj.mp huse)
  · rw [List.concat_eq_append, ← List.cons_append, ← List.append_assoc] at heq
    exact h before offered report after (List.append_inj' heq rfl).1

end TransportUse

theorem Encoder.isDone_of_write {σ : Type} [Source σ] {e : Encoder} {s : Supply σ}
    {dst : Buffer} (h : (e.write s dst).result = .ok .done) :
    (e.write s dst).state.isDone = true := by
  have hbody :
      ∀ (b : Payload) (dst : Buffer), (e.writeBody b s dst).result = .ok .done →
      (e.writeBody b s dst).state.isDone = true := by
    intro b dst hresult
    simp only [writeBody] at hresult
    simp only [writeBody, isDone, hresult]
    rfl
  unfold write at h ⊢
  cases hphase : e.phase with
  | head head =>
    simp only [hphase] at h ⊢
    split at h
    · next hdone =>
      rw [if_pos hdone]
      exact hbody _ _ h
    · cases h
  | body b =>
    simp only [hphase] at h ⊢
    exact hbody b dst h
  | done => simp [isDone, hphase]
  | failed =>
    simp only [hphase] at h
    cases h

namespace Sending

variable {σ τ : Type}

/-- What is accepted, offered and written adds up; `uses` are those
of this sending. -/
structure Accounts (s : Sending σ (Observed τ)) (uses : List TransportUse) : Prop where
  standing : s.standing.Tells (uses.flatMap TransportUse.accepted) s.encoded
  within : TransportUse.Within uses s.encoded
  kept : (∀ failure, s.standing ≠ .finished (.error failure)) → s.encoded = s.emitted
  front : s.encoded <+: s.emitted
  last : s.standing.IsLast →
    s.link.encoder.isDone = true ∧ .ok .done ∈ s.rounds.map Round.result

section Stages

variable {t : Transmission} {e e' : Encoder} {supply supply' : Supply σ}
  {o o' : Observed τ} {rounds : List Round} {uses : List TransportUse}

/-- A round adds the same bytes to what is written and to what is unsent, and a
failing one to neither. -/
theorem Accounts.encode {standing : Standing} {round : Round}
    (h : Accounts ⟨.running t, ⟨e, supply, o⟩, rounds⟩ uses) (hunsent : t.unsent = [])
    (hround : match round.result with
      | .error failure => standing = .finished (.error failure)
      | .ok _ =>
        ∃ t' : Transmission, standing = .running t' ∧ t'.unsent = round.output)
    (hlast : standing.IsLast → e'.isDone = true ∧ round.result = .ok .done) :
    Accounts ⟨standing, ⟨e', supply', o⟩, rounds ++ [round]⟩ uses := by
  obtain ⟨htells, hwithin, hkept, hfront, -⟩ := h
  obtain ⟨output, result⟩ := round
  have hall : rounds.flatMap Round.kept = rounds.flatMap Round.output :=
    hkept (by simp)
  have hencoded : (rounds ++ [(⟨output, result⟩ : Round)]).flatMap Round.kept
      = rounds.flatMap Round.kept ++ Round.kept ⟨output, result⟩ := by simp
  have hemitted : (rounds ++ [(⟨output, result⟩ : Round)]).flatMap Round.output
      = rounds.flatMap Round.output ++ output := by simp
  simp only [Standing.Tells, hunsent, List.append_nil, encoded] at htells hwithin
  refine ⟨?_, ?_, ?_, ?_, ?_⟩ <;> simp only [encoded, emitted, hencoded, hemitted]
  · cases result with
    | error failure =>
      rw [show standing = _ from hround, htells]
      exact List.prefix_append _ _
    | ok progress =>
      obtain ⟨t', hstanding, hoffer⟩ := hround
      rw [hstanding, htells, Standing.Tells, hoffer]
      rfl
  · exact hwithin.append _
  · cases result with
    | error failure => exact fun hno => absurd hround (hno failure)
    | ok progress => exact fun _ => by rw [hall]; rfl
  · rw [hall]
    refine (List.prefix_append_right_inj _).mpr ?_
    cases result with
    | error failure => exact List.nil_prefix
    | ok progress => exact List.prefix_rfl
  · intro hclosing
    obtain ⟨hdone, hresult⟩ := hlast hclosing
    refine ⟨hdone, ?_⟩
    rw [List.map_append, List.mem_append]
    exact .inr (List.mem_singleton.mpr hresult.symm)

/-- A use of the transport moves bytes from what is unsent to what is
accepted, unless sending fails. -/
theorem Accounts.use {standing : Standing} {use : TransportUse}
    (h : Accounts ⟨.running t, ⟨e, supply, o⟩, rounds⟩ uses)
    (hoffered : ∀ offered report, use = .write offered report → t.unsent = offered)
    (hstanding : match standing with
      | .running t' | .suspended t' => use.accepted ++ t'.unsent = t.unsent
      | .finished (.ok ()) => use.accepted = t.unsent
      | .finished (.error _) => use.accepted <+: t.unsent)
    (hlast : standing.IsLast → (Standing.running t).IsLast) :
    Accounts ⟨standing, ⟨e, supply', o'⟩, rounds⟩ (uses ++ [use]) := by
  obtain ⟨htells, hwithin, hkept, hfront, hclosing⟩ := h
  have hsum : uses.flatMap TransportUse.accepted ++ t.unsent
      = rounds.flatMap Round.kept := htells
  refine ⟨?_, ?_, fun _ => hkept (by simp), hfront, fun hend => hclosing (hlast hend)⟩
  · have haccepted : (uses ++ [use]).flatMap TransportUse.accepted
        = uses.flatMap TransportUse.accepted ++ use.accepted := by simp
    simp only [haccepted, encoded, ← hsum]
    match standing with
    | .running t' | .suspended t' =>
      rw [Standing.Tells, List.append_assoc, hstanding]
    | .finished (.ok ()) => rw [Standing.Tells, hstanding]
    | .finished (.error _) =>
      simp only at hstanding
      exact (List.prefix_append_right_inj _).mpr hstanding
  · refine hwithin.concat (fun offered report huse => ?_)
    rw [← hoffered offered report huse]
    rw [hsum]
    exact List.prefix_rfl

end Stages

variable [Source σ]

theorem Accounts.encodeRound {t : Transmission} {l : Link σ (Observed τ)}
    {rounds : List Round} {uses : List TransportUse}
    (h : Accounts ⟨.running t, l, rounds⟩ uses) (hstage : t.stage = .encode) :
    (t.encodeRound l).2.transport = l.transport
      ∧ Accounts ⟨(t.encodeRound l).1, (t.encodeRound l).2,
        rounds ++ (t.round? l).toList⟩ uses := by
  obtain ⟨e, supply, o⟩ := l
  have hunsent : t.unsent = [] := by rw [Transmission.unsent, hstage]
  have hdone := @Encoder.isDone_of_write _ _ e supply (Buffer.empty t.capacity)
  simp only [Transmission.encodeRound, Transmission.round?, hstage]
  rcases hwrite : e.write supply (Buffer.empty t.capacity) with
    ⟨failure | progress, e', supply', dst⟩
  · exact ⟨rfl, h.encode hunsent rfl (by simp)⟩
  · rw [hwrite] at hdone
    simp only
    split
    · next hempty =>
      refine ⟨rfl, h.encode hunsent ⟨_, rfl, ?_⟩ ?_⟩
      · rw [List.isEmpty_iff.mp hempty]
        cases progress <;> rfl
      · cases progress with
        | done => exact fun _ => ⟨hdone rfl, rfl⟩
        | inProgress => rintro (hfinish | ⟨rest, hwrite⟩) <;> contradiction
    · refine ⟨rfl, h.encode hunsent ⟨_, rfl, rfl⟩ ?_⟩
      rintro (hfinish | ⟨rest, hwrite⟩)
      · cases hfinish
      · cases hwrite
        exact ⟨hdone rfl, rfl⟩

theorem Accounts.awaitBody {t : Transmission} {l : Link σ (Observed τ)}
    {rounds : List Round} {uses : List TransportUse} {waited : Bool}
    (h : Accounts ⟨.running t, l, rounds⟩ uses) (hstage : t.stage = .await waited) :
    (t.awaitBody waited l).2.transport = l.transport
      ∧ Accounts
        ⟨(t.awaitBody waited l).1, (t.awaitBody waited l).2, rounds⟩ uses := by
  obtain ⟨e, supply, o⟩ := l
  obtain ⟨htells, hwithin, hkept, hfront, -⟩ := h
  have hall : uses.flatMap TransportUse.accepted = rounds.flatMap Round.kept := by
    have hunsent : t.unsent = [] := by rw [Transmission.unsent, hstage]
    rw [Standing.Tells, hunsent, List.append_nil] at htells
    exact htells
  have hnext : ∀ {standing : Standing} {supply' : Supply σ},
      standing.Tells (uses.flatMap TransportUse.accepted) (rounds.flatMap Round.kept) →
      ¬ standing.IsLast → Accounts ⟨standing, ⟨e, supply', o⟩, rounds⟩ uses :=
    fun htells hnot => ⟨htells, hwithin, fun _ => hkept (by simp), hfront, fun hlast =>
      absurd hlast hnot⟩
  have hempty :
      uses.flatMap TransportUse.accepted ++ [] = rounds.flatMap Round.kept := by
    rw [List.append_nil, hall]
  have hprefix :
      uses.flatMap TransportUse.accepted <+: rounds.flatMap Round.kept := ⟨[], hempty⟩
  simp only [Transmission.awaitBody]
  rcases e.poll supply with ⟨_ | _ | failure, supply'⟩
  · simp only
    split
    · exact ⟨rfl,
        hnext hempty (by rintro (hfinish | ⟨rest, hwrite⟩) <;> contradiction)⟩
    · split
      · exact ⟨rfl,
          hnext hempty (by rintro (hfinish | ⟨rest, hwrite⟩) <;> contradiction)⟩
      · exact ⟨rfl, hnext hprefix (by simp)⟩
  · exact ⟨rfl, hnext hempty (by rintro (hfinish | ⟨rest, hwrite⟩) <;> contradiction)⟩
  · exact ⟨rfl, hnext hprefix (by simp)⟩

variable [Transport τ]

omit [Source σ] in
theorem Accounts.offer {t : Transmission} {l : Link σ (Observed τ)}
    {rounds : List Round} {uses : List TransportUse} {rest : Bytes}
    {progress : Progress} (h : Accounts ⟨.running t, l, rounds⟩ uses)
    (hstage : t.stage = .write rest progress) :
    ∃ use, (t.offer rest progress l).2.transport.uses = l.transport.uses ++ [use]
      ∧ Accounts ⟨(t.offer rest progress l).1, (t.offer rest progress l).2, rounds⟩
        (uses ++ [use]) := by
  obtain ⟨e, supply, o⟩ := l
  have hunsent : t.unsent = rest := by rw [Transmission.unsent, hstage]
  have hoffered : ∀ {report : WriteReport} (offered : Bytes) (report' : WriteReport),
      TransportUse.write rest report = .write offered report' →
          t.unsent = offered := by
    intro report offered report' heq
    cases heq
    exact hunsent
  simp only [Transmission.offer, Observed.write_eq]
  rcases (Transport.write o.transport rest).1 with n | _ | error
  · cases n with
    | zero => exact ⟨_, rfl, h.use hoffered List.nil_prefix (by simp)⟩
    | succ n =>
      have hsplit : rest.take (n + 1) ++ rest.drop (n + 1) = t.unsent := by
        rw [hunsent, List.take_append_drop]
      simp only
      split
      · next hempty =>
        refine ⟨_, rfl, h.use hoffered ?_ ?_⟩
        · rw [List.isEmpty_iff.mp hempty] at hsplit
          cases progress <;> exact hsplit
        · cases progress with
          | done => exact fun _ => .inr ⟨rest, hstage⟩
          | inProgress => rintro (hfinish | ⟨rest, hwrite⟩) <;> contradiction
      · refine ⟨_, rfl, h.use hoffered hsplit ?_⟩
        rintro (hfinish | ⟨left, hwrite⟩)
        · cases hfinish
        · cases hwrite
          exact .inr ⟨rest, hstage⟩
  · exact ⟨_, rfl, h.use hoffered rfl (fun hlast => hlast)⟩
  · simp only
    split
    · exact ⟨_, rfl, h.use hoffered rfl (fun hlast => hlast)⟩
    · exact ⟨_, rfl, h.use hoffered List.nil_prefix (by simp)⟩

omit [Source σ] in
theorem Accounts.flushThen {t : Transmission} {l : Link σ (Observed τ)}
    {rounds : List Round} {uses : List TransportUse} {next : Standing}
    (h : Accounts ⟨.running t, l, rounds⟩ uses)
    (hnext : t.stage = .flush ∧ next = .running { t with stage := .await false }
      ∨ t.stage = .finish ∧ next = .finished (.ok ())) :
    ∃ use, (t.flushThen next l).2.transport.uses = l.transport.uses ++ [use]
      ∧ Accounts ⟨(t.flushThen next l).1, (t.flushThen next l).2, rounds⟩
        (uses ++ [use]) := by
  obtain ⟨e, supply, o⟩ := l
  have hoffered : ∀ {report : FlushReport} (offered : Bytes) (report' : WriteReport),
      TransportUse.flush report = .write offered report' → t.unsent = offered := by
        simp
  simp only [Transmission.flushThen, Observed.flush_eq]
  rcases (Transport.flush o.transport).1 with _ | _ | error
  · rcases hnext with ⟨hstage, rfl⟩ | ⟨hstage, rfl⟩
    · have hunsent : t.unsent = [] := by rw [Transmission.unsent, hstage]
      refine ⟨_, rfl, h.use hoffered hunsent.symm ?_⟩
      rintro (hfinish | ⟨rest, hwrite⟩) <;> contradiction
    · have hunsent : t.unsent = [] := by rw [Transmission.unsent, hstage]
      exact ⟨_, rfl, h.use hoffered hunsent.symm (fun _ => .inl hstage)⟩
  · exact ⟨_, rfl, h.use hoffered rfl (fun hlast => hlast)⟩
  · exact ⟨_, rfl, h.use hoffered List.nil_prefix (by simp)⟩

theorem Accounts.advance {s : Sending σ (Observed τ)} {uses : List TransportUse}
    (h : s.Accounts uses) :
    ∃ more, s.advance.link.transport.uses = s.link.transport.uses ++ more
      ∧ s.advance.Accounts (uses ++ more) := by
  obtain ⟨standing, l, rounds⟩ := s
  have hlive : ∀ t : Transmission, Accounts ⟨.running t, l, rounds⟩ uses →
      ∃ more, (t.step l).2.transport.uses = l.transport.uses ++ more
        ∧ Accounts ⟨(t.step l).1, (t.step l).2, rounds ++ (t.round? l).toList⟩
            (uses ++ more) := by
    intro t h
    have hquiet : t.stage ≠ .encode → rounds ++ (t.round? l).toList = rounds := by
      intro hno
      unfold Transmission.round?
      split
      · exact absurd ‹_› hno
      all_goals exact List.append_nil _
    unfold Transmission.step
    cases hstage : t.stage with
    | encode =>
      obtain ⟨htransport, hnext⟩ := h.encodeRound hstage
      refine ⟨[], ?_, ?_⟩
      · simp only [htransport, List.append_nil]
      · rw [List.append_nil]
        exact hnext
    | write rest progress =>
      obtain ⟨use, huse, hnext⟩ := h.offer hstage
      rw [hquiet (by simp [hstage])]
      exact ⟨[use], huse, hnext⟩
    | flush =>
      obtain ⟨use, huse, hnext⟩ := h.flushThen (.inl ⟨hstage, rfl⟩)
      rw [hquiet (by simp [hstage])]
      exact ⟨[use], huse, hnext⟩
    | await waited =>
      obtain ⟨htransport, hnext⟩ := h.awaitBody hstage
      rw [hquiet (by simp [hstage])]
      refine ⟨[], ?_, ?_⟩
      · simp only [htransport, List.append_nil]
      · rw [List.append_nil]
        exact hnext
    | finish =>
      obtain ⟨use, huse, hnext⟩ := h.flushThen (.inr ⟨hstage, rfl⟩)
      rw [hquiet (by simp [hstage])]
      exact ⟨[use], huse, hnext⟩
  cases standing with
  | running t => exact hlive t h
  | suspended t =>
    exact hlive t ⟨h.standing, h.within, fun _ => h.kept (by simp), h.front, h.last⟩
  | finished result => exact ⟨[], (List.append_nil _).symm, by rwa [List.append_nil]⟩

theorem Accounts.after {s : Sending σ (Observed τ)} {uses : List TransportUse}
    (h : s.Accounts uses) (moves : List (SendMove σ)) :
    ∃ more, (s.after moves).link.transport.uses = s.link.transport.uses ++ more
      ∧ (s.after moves).Accounts (uses ++ more) := by
  induction moves generalizing s uses with
  | nil => exact ⟨[], (List.append_nil _).symm, by rwa [List.append_nil]⟩
  | cons move moves ih =>
    have hstep :
        ∃ more, (s.step move).link.transport.uses = s.link.transport.uses ++ more
        ∧ (s.step move).Accounts (uses ++ more) := by
      cases move with
      | step => exact h.advance
      | feed f =>
        refine ⟨[], (List.append_nil _).symm, ?_⟩
        rw [List.append_nil]
        exact ⟨h.standing, h.within, h.kept, h.front, h.last⟩
      | produce act =>
        refine ⟨[], (List.append_nil _).symm, ?_⟩
        rw [List.append_nil]
        exact ⟨h.standing, h.within, h.kept, h.front, h.last⟩
    obtain ⟨first, huses, hfirst⟩ := hstep
    obtain ⟨more, huses', hmore⟩ := ih hfirst
    refine ⟨first ++ more, ?_, ?_⟩
    · rw [← List.append_assoc, ← huses]
      exact huses'
    · rw [← List.append_assoc]
      exact hmore

omit [Source σ] [Transport τ] in
theorem accounts_start (capacity : Nat) (plan : Plan) (limits : Limits)
    (supply : Supply σ) (o : Observed τ) :
    (start capacity plan limits supply o).Accounts [] where
  standing := rfl
  within before offered report after heq := by simp at heq
  kept _ := rfl
  front := List.prefix_rfl
  last := by rintro (hfinish | ⟨rest, hwrite⟩) <;> contradiction

end Sending

/-! ## One message after another -/

/-- From `o` to `o'`, messages with these wires were sent one after
another, each to its end. -/
inductive Sent {τ : Type} [Transport τ] (capacity : Nat)
    (o : Observed τ) : List Bytes → Observed τ → Prop
  | nothing : Sent capacity o [] o
  | message {wires : List Bytes} {o' : Observed τ} {σ : Type} [Source σ] (plan : Plan)
      (limits : Limits)
    (supply : Supply σ) (moves : List (SendMove σ)) :
    Sent capacity o wires o' →
    ((Sending.start capacity plan limits supply o').after moves).standing
      = .finished (.ok ()) →
    Sent capacity o
      (wires ++ [((Sending.start capacity plan limits supply o').after moves).emitted])
      ((Sending.start capacity plan limits supply o').after moves).link.transport

namespace Sent

variable {τ : Type} [Transport τ] {capacity : Nat} {o o' : Observed τ}
  {wires : List Bytes}

theorem accepted_eq (h : Sent capacity o wires o') :
    o'.accepted = o.accepted ++ wires.flatten := by
  induction h with
  | nothing => rw [List.flatten_nil, List.append_nil]
  | @message wires before σ _ plan limits supply moves _ hfinished ih =>
    obtain ⟨uses, huses, haccounts⟩ :=
      (Sending.accounts_start capacity plan limits supply before).after moves
    have htells := haccounts.standing
    rw [hfinished] at htells
    have hall : uses.flatMap TransportUse.accepted
        = ((Sending.start capacity plan limits supply before).after moves).emitted :=
      htells.trans (haccounts.kept (by rw [hfinished]; simp))
    calc ((Sending.start capacity plan limits supply before).after
      moves).link.transport.accepted
      _ = before.accepted ++ uses.flatMap TransportUse.accepted := by
        rw [Observed.accepted, huses, List.flatMap_append]
        rfl
      _ = _ := by
        rw [ih, hall, List.flatten_append, List.flatten_singleton, List.append_assoc]

/-- A transport receives of every message what its encoder has written, in order
and without gaps, whatever it accepted of it at a time and wherever it kept the
transmission waiting. What a failing call wrote it is never offered. -/
theorem accepted_in_order (h : Sent capacity o wires o') {σ : Type} [Source σ]
    (plan : Plan) (limits : Limits) (supply : Supply σ) (moves : List (SendMove σ)) :
    let s := (Sending.start capacity plan limits supply o').after moves
    ∃ (calls : List (Move σ)) (uses : List TransportUse),
      s.Mirrors ((Run.start plan limits supply).after calls)
      ∧ s.link.transport.uses = o'.uses ++ uses
      ∧ s.link.transport.accepted
        = o.accepted ++ wires.flatten ++ uses.flatMap TransportUse.accepted
      ∧ (∀ t, s.standing = .running t ∨ s.standing = .suspended t →
        uses.flatMap TransportUse.accepted ++ t.unsent = s.emitted)
      ∧ (s.standing = .finished (.ok ()) →
        s.link.encoder.isDone = true
          ∧ ((Run.start plan limits supply).after calls).IsDone
          ∧ uses.flatMap TransportUse.accepted = s.emitted)
      ∧ (∀ failure, s.standing = .finished (.error failure) →
        uses.flatMap TransportUse.accepted <+: s.encoded ∧ s.encoded <+: s.emitted)
      ∧ TransportUse.Within uses s.encoded := by
  intro s
  obtain ⟨calls, hmirrors⟩ :=
    Sending.mirrors_after capacity plan limits supply o' moves
  obtain ⟨uses, huses, haccounts⟩ :=
    (Sending.accounts_start capacity plan limits supply o').after moves
  obtain ⟨htells, hwithin, hkept, hfront, hlast⟩ := haccounts
  refine ⟨calls, uses, hmirrors, huses, ?_, ?_, ?_, ?_, hwithin⟩
  · rw [← h.accepted_eq, Observed.accepted, Observed.accepted, huses]
    exact List.flatMap_append
  · intro t hstanding
    have hall := hkept
      (by rcases hstanding with hstanding | hstanding <;> rw [hstanding] <;> simp)
    rw [← hall]
    rcases hstanding with hstanding | hstanding <;>
      rw [hstanding] at htells <;> exact htells
  · intro hstanding
    have hall := hkept (by rw [hstanding]; simp)
    rw [hstanding] at htells hlast
    obtain ⟨hdone, hmem⟩ := hlast trivial
    refine ⟨hdone, ?_, hall ▸ htells⟩
    rw [Run.IsDone, hmirrors.results]
    exact hmem
  · intro failure hstanding
    rw [hstanding] at htells
    exact ⟨htells, hfront⟩

/-- A transport that takes an upload in three parts, and then the
front of another. -/
def halting : Observed ScriptedTransport where
  transport :=
    { writes := [.atMost 10, .pending, .atMost 30, .atMost 24, .atMost 7, .pending]
      flushes := [.pending] }

/-- The first upload, of which the transport takes all. -/
def firstUpload (limits : Limits) : Sending Bytes (Observed ScriptedTransport) :=
  (Sending.start 64 Run.uploadPlan limits { body := Run.upload.body } halting).after
    (List.replicate 8 .step)

/-- A second upload over the transport that the first one left; the transport lets
it wait in the middle of a round. -/
def secondUpload (limits : Limits) : Sending Bytes (Observed ScriptedTransport) :=
  (Sending.start 64 Run.uploadPlan limits { body := Run.upload.body }
    (firstUpload limits).link.transport).after (List.replicate 3 .step)

theorem accepted_in_order_uploads :
    (firstUpload {}).standing = .finished (.ok ())
      ∧ ∃ (t : Transmission) (uses : List TransportUse),
        (secondUpload {}).standing = .suspended t
        ∧ (secondUpload {}).link.transport.accepted
          = [] ++ [(firstUpload {}).emitted].flatten
            ++ uses.flatMap TransportUse.accepted
        ∧ uses.flatMap TransportUse.accepted ++ t.unsent
          = (secondUpload {}).emitted := by
  have hfirst : (firstUpload {}).standing = .finished (.ok ()) := by decide +kernel
  have hsecond : (secondUpload {}).standing = .suspended
      { capacity := 64
        stage := .write ((secondUpload {}).emitted.drop 7) .done } := by
    decide +kernel
  have hsent :
      Sent 64 halting [(firstUpload {}).emitted] (firstUpload {}).link.transport :=
    .message Run.uploadPlan {} { body := Run.upload.body } (List.replicate 8 .step)
      .nothing hfirst
  obtain ⟨calls, uses, -, -, haccepted, hlive, -⟩ :=
    hsent.accepted_in_order Run.uploadPlan {} { body := Run.upload.body }
      (List.replicate 3 .step)
  exact ⟨hfirst, _, uses, hsecond, haccepted, hlive _ (.inr hsecond)⟩

end Sent

end HttpWire
