import HttpWire.Proofs.Flushing

/-!
# Giving up an attempt and trying again

A transmission may be dropped between any two of its steps, and another one
started for the same encoder on the same transport. What is lost with it is the
rest of the round that was not accepted yet, and nothing else: the encoder goes on
behind that round. So over all attempts, the transport receives of every round a
front, and of every round but the last one of an attempt all of it
(`Sending.accepted_over_attempts`).

Two arguments make this up. Within one attempt, what is accepted and what is owed
of the last round are together what was encoded (`Sending.Owes`), and an attempt
owes nothing unless it is cut: a write is outstanding, or has failed. Across
attempts, the rounds of all of them are the writing calls of one run of the
encoder, and a round that failed is the last one that wrote anything, since the
encoder fails with it (`Sending.Trails`). Both facts about the encoder ignore
where one attempt ends and the next begins; `attempts_induction` is what says so.
-/

namespace HttpWire

/-- What is still to be accepted, if the transmission is not finished. -/
@[simp] def Standing.unsent? : Standing → Option Bytes
  | .running t | .suspended t => some t.unsent
  | .finished _ => none

namespace Sending

variable {σ τ : Type}

/-- A write is outstanding, or the last one has failed. -/
def IsCut (s : Sending σ (Observed τ)) : Prop :=
  (∃ rest progress, s.standing.stage? = some (.write rest progress))
    ∨ ∃ use ∈ s.link.transport.uses.getLast?, use.isWrite = true ∧ use.isError = true

/-! ## One attempt -/

/-- What is accepted and what is owed are together what was encoded; it is
owed of the last round. -/
structure Owes (s : Sending σ (Observed τ)) (owed : Bytes) : Prop where
  sum : s.link.transport.accepted ++ owed = s.encoded
  last : owed <:+ ((s.rounds.map Round.kept).getLast?).getD []
  standing : ∀ unsent, s.standing.unsent? = some unsent → owed = unsent
  whole : ¬ s.IsCut → owed = []

/-- What an attempt delivers: of each of its rounds a front, all of it unless it
is the last one, and of that one too unless the attempt is cut. -/
structure Delivers (s : Sending σ (Observed τ)) (fronts : List Bytes) : Prop where
  accepted : s.link.transport.accepted = fronts.flatten
  each : List.Forall₂ (fun front round => front <+: round.kept) fronts s.rounds
  earlier : fronts.dropLast = (s.rounds.map Round.kept).dropLast
  whole : ¬ s.IsCut → fronts = s.rounds.map Round.kept

namespace Owes

variable {s next : Sending σ (Observed τ)} {owed owed' : Bytes}

theorem anew (capacity : Nat) (l : Link σ (Observed τ)) :
    (anew capacity l).Owes [] where
  sum := rfl
  last := List.nil_suffix
  standing unsent h := by
    cases h
    rfl
  whole _ := rfl

/-- After a round, all of it is owed. -/
theorem round {round : Round} (h : s.Owes [])
    (huses : next.link.transport.uses = s.link.transport.uses)
    (hrounds : next.rounds = s.rounds ++ [round])
    (hstanding : ∀ unsent, next.standing.unsent? = some unsent → round.kept = unsent)
    (hwhole : ¬ next.IsCut → round.kept = []) : next.Owes round.kept where
  sum := by
    have hsum := h.sum
    rw [List.append_nil, encoded] at hsum
    rw [Observed.accepted, huses, encoded, hrounds, List.flatMap_append,
      List.flatMap_singleton, ← hsum]
    rfl
  last := by
    rw [hrounds, List.map_append, List.map_singleton, List.getLast?_concat]
    exact List.suffix_rfl
  standing := hstanding
  whole := hwhole

/-- What a use of the transport accepts is not owed any more. -/
theorem use {use : TransportUse} (h : s.Owes owed)
    (huses : next.link.transport.uses = s.link.transport.uses ++ [use])
    (hrounds : next.rounds = s.rounds) (howed : use.accepted ++ owed' = owed)
    (hstanding : ∀ unsent, next.standing.unsent? = some unsent → owed' = unsent)
    (hwhole : ¬ next.IsCut → owed' = []) : next.Owes owed' where
  sum := by
    have hsum := h.sum
    rw [← howed, ← List.append_assoc] at hsum
    rw [Observed.accepted, huses, List.flatMap_append, List.flatMap_singleton,
      encoded, hrounds]
    exact hsum
  last := by
    rw [hrounds]
    exact (howed ▸ List.suffix_append use.accepted owed').trans h.last
  standing := hstanding
  whole := hwhole

/-- A step that neither encodes nor writes owes nothing before and after. -/
theorem quiet (h : s.Owes [])
    (huses : next.link.transport.uses = s.link.transport.uses)
    (hrounds : next.rounds = s.rounds)
    (hstanding : ∀ unsent, next.standing.unsent? = some unsent → [] = unsent) :
    next.Owes [] where
  sum := by
    rw [Observed.accepted, huses, encoded, hrounds]
    exact h.sum
  last := List.nil_suffix
  standing := hstanding
  whole _ := rfl

theorem step {t : Transmission} {uses : List TransportUse} {rounds : List Round}
    (h : s.Owes owed) (hlive : s.standing = .running t ∨ s.standing = .suspended t)
    (hstep : t.Step next.standing uses rounds)
    (huses : next.link.transport.uses = s.link.transport.uses ++ uses)
    (hrounds : next.rounds = s.rounds ++ rounds) : ∃ owed', next.Owes owed' := by
  have howed : owed = t.unsent :=
    h.standing t.unsent (by rcases hlive with hlive | hlive <;> rw [hlive] <;> rfl)
  have hunsent : ∀ {rest progress}, t.stage = .write rest progress → owed = rest := by
    intro rest progress hwrite
    rw [howed, Transmission.unsent, hwrite]
  have hnothing : (∀ rest progress, t.stage ≠ .write rest progress) → s.Owes [] := by
    intro hnot
    have hnone : t.unsent = [] := by
      unfold Transmission.unsent
      split
      · next hwrite => exact absurd hwrite (hnot _ _)
      all_goals rfl
    rwa [howed, hnone] at h
  -- an attempt that still has a write to make, or has failed in one, is cut
  have hwriting : ∀ {rest progress},
      next.standing.stage? = some (.write rest progress) → next.IsCut :=
    fun hwrite => .inl ⟨_, _, hwrite⟩
  have hbroken : ∀ {use : TransportUse}, uses = [use] → use.isWrite = true →
      use.isError = true → next.IsCut := by
    intro use huse hwrite herror
    refine .inr ⟨use, ?_, hwrite, herror⟩
    rw [huses, huse, List.getLast?_concat]
    rfl
  generalize hnext : next.standing = standing at hstep hwriting
  cases hstep with
  | roundFailed hencode =>
    rw [List.append_nil] at huses
    exact ⟨_, (hnothing (by simp [hencode])).round huses hrounds (by simp [hnext])
      (fun _ => rfl)⟩
  | @roundEmpty progress hencode =>
    rw [List.append_nil] at huses
    have hstage : ∀ unsent, next.standing.unsent? = some unsent → [] = unsent := by
      cases progress <;>
        simp [hnext, Transmission.unsent, Transmission.afterEmptyRound]
    exact ⟨_, (hnothing (by simp [hencode])).round huses hrounds hstage (fun _ => rfl)⟩
  | roundFull hencode hfull =>
    rw [List.append_nil] at huses
    exact ⟨_, (hnothing (by simp [hencode])).round huses hrounds
      (by simp [hnext, Transmission.unsent, Round.kept])
      (fun hnot => absurd (hwriting rfl) hnot)⟩
  | @acceptedAll rest progress n hwrite hpos hall =>
    rw [List.append_nil] at hrounds
    refine ⟨[], h.use huses hrounds ?_ ?_ (fun _ => rfl)⟩
    · rw [hunsent hwrite, ← hall]
      exact List.take_append_drop n rest
    · cases progress <;> simp [hnext, Transmission.unsent, Transmission.afterRound]
  | @acceptedPart rest progress n hwrite hpos hpart =>
    rw [List.append_nil] at hrounds
    refine ⟨rest.drop n,
      h.use huses hrounds ?_ ?_ (fun hnot => absurd (hwriting rfl) hnot)⟩
    · rw [hunsent hwrite]
      exact List.take_append_drop n rest
    · simp [hnext, Transmission.unsent]
  | acceptedNone hwrite =>
    rw [List.append_nil] at hrounds
    exact ⟨owed, h.use huses hrounds rfl (by simp [hnext])
      (fun hnot => absurd (hbroken rfl rfl rfl) hnot)⟩
  | writePending hwrite | writeInterrupted hwrite hagain =>
    rw [List.append_nil] at hrounds
    exact ⟨owed, h.use huses hrounds rfl (by simp [hnext, howed])
      (fun hnot => absurd (hwriting (congrArg some hwrite)) hnot)⟩
  | writeFailed hwrite hfailed =>
    rw [List.append_nil] at hrounds
    exact ⟨owed, h.use huses hrounds rfl (by simp [hnext])
      (fun hnot => absurd (hbroken rfl rfl rfl) hnot)⟩
  | flushed hflush =>
    rw [List.append_nil] at hrounds
    exact ⟨[], (hnothing (by simp [hflush])).use huses hrounds rfl
      (by simp [hnext, Transmission.unsent]) (fun _ => rfl)⟩
  | finished hfinish =>
    rw [List.append_nil] at hrounds
    exact ⟨[], (hnothing (by simp [hfinish])).use huses hrounds rfl (by simp [hnext])
      (fun _ => rfl)⟩
  | flushPending hflush | flushFailed hflush =>
    rw [List.append_nil] at hrounds
    rcases hflush with hflush | hflush <;>
    exact ⟨[], (hnothing (by simp [hflush])).use huses hrounds rfl
      (by simp [hnext, Transmission.unsent, hflush]) (fun _ => rfl)⟩
  | bodyReady hawait | bodyPending hawait | bodyFailed hawait =>
    rw [List.append_nil] at huses hrounds
    exact ⟨[], (hnothing (by simp [hawait])).quiet huses hrounds
      (by simp [hnext, Transmission.unsent])⟩

/-- What is not owed of the last round is delivered. -/
theorem delivers (h : s.Owes owed) : ∃ fronts, s.Delivers fronts := by
  obtain ⟨hsum, hlast, -, hwhole⟩ := h
  rw [encoded, List.flatMap_def] at hsum
  rcases List.eq_nil_or_concat s.rounds with hrounds | ⟨before, round, hrounds⟩
  · rw [hrounds] at hsum hlast
    refine ⟨[], (List.append_eq_nil_iff.mp hsum).1, by rw [hrounds]; exact .nil, by
      rw [hrounds]; rfl, ?_⟩
    intro _
    rw [hrounds]
    rfl
  · have hrounds' : s.rounds = before ++ [round] := hrounds.trans List.concat_eq_append
    rw [hrounds', List.map_append, List.map_singleton] at hsum hlast
    rw [List.getLast?_concat] at hlast
    obtain ⟨front, hfront⟩ : ∃ front, front ++ owed = round.kept := hlast
    rw [List.flatten_append, List.flatten_singleton, ← hfront, ← List.append_assoc]
      at hsum
    have haccepted := List.append_cancel_right hsum
    refine ⟨before.map Round.kept ++ [front], ?_, ?_, ?_, ?_⟩
    · rw [List.flatten_append, List.flatten_singleton]
      exact haccepted
    · rw [hrounds']
      refine List.rel_append ?_ (.cons ⟨owed, hfront⟩ .nil)
      rw [List.forall₂_map_left_iff, List.forall₂_same]
      exact fun round _ => List.prefix_rfl
    · rw [hrounds', List.map_append, List.map_singleton, List.dropLast_concat,
        List.dropLast_concat]
    · intro hnot
      rw [hwhole hnot, List.append_nil] at hfront
      rw [hrounds', List.map_append, List.map_singleton, hfront]

end Owes

section

variable [Source σ] [Transport τ]

theorem owes_after_anew (capacity : Nat) (l : Link σ (Observed τ))
    (moves : List (SendMove σ)) :
    ∃ owed, ((anew capacity l).after moves).Owes owed := by
  refine after_anew_induction (P := fun s => ∃ owed, s.Owes owed) capacity l
    ⟨[], .anew capacity l⟩ ?_ ?_ moves
  · intro s t next uses rounds h _ hlive hstep huses hrounds
    obtain ⟨owed, howes⟩ := h
    exact howes.step hlive hstep huses hrounds
  · intro s supply h
    obtain ⟨owed, howes⟩ := h
    exact ⟨owed, howes.sum, howes.last, howes.standing, howes.whole⟩

/-! ## One attempt after another -/

/-- What is left after attempts, each of which was driven for so many moves and
then dropped if it was not finished. -/
def leave (capacity : Nat) (l : Link σ (Observed τ))
    (plans : List (List (SendMove σ))) : Link σ (Observed τ) :=
  plans.foldl (fun l moves => ((anew capacity l).after moves).link) l

/-- The attempts, as each of them was left. -/
def attempts (capacity : Nat) (l : Link σ (Observed τ)) : List (List (SendMove σ)) →
    List (Sending σ (Observed τ))
  | [] => []
  | moves :: plans =>
    (anew capacity l).after moves
      :: attempts capacity ((anew capacity l).after moves).link plans

theorem leave_concat (capacity : Nat) (l : Link σ (Observed τ))
    (plans : List (List (SendMove σ))) (moves : List (SendMove σ)) :
    leave capacity l (plans ++ [moves])
      = ((anew capacity (leave capacity l plans)).after moves).link :=
  List.foldl_concat _ l moves plans

theorem attempts_concat (capacity : Nat) (l : Link σ (Observed τ))
    (plans : List (List (SendMove σ))) (moves : List (SendMove σ)) :
    attempts capacity l (plans ++ [moves])
      = attempts capacity l plans
        ++ [(anew capacity (leave capacity l plans)).after moves] := by
  induction plans generalizing l with
  | nil => rfl
  | cons first plans ih =>
    rw [List.cons_append, attempts, ih, attempts]
    rfl

/-- The same sending by an encoder that has written rounds before. -/
def behind (before : List Round)
    (s : Sending σ (Observed τ)) : Sending σ (Observed τ) :=
  { s with rounds := before ++ s.rounds }

theorem behind_step (before : List Round) (s : Sending σ (Observed τ))
    (move : SendMove σ) :
    (s.behind before).step move = (s.step move).behind before := by
  cases move with
  | step =>
    obtain ⟨standing, link, rounds⟩ := s
    cases standing with
    | running t | suspended t =>
      show Sending.mk (t.step link).1 (t.step link).2
        ((before ++ rounds) ++ (t.round? link).toList) = _
      rw [List.append_assoc]
      rfl
    | finished result => rfl
  | feed f => rfl
  | produce act => rfl

/-- What every step keeps true of the encoder, its supply and the rounds is kept
over all attempts, if the record of the transport does not matter to it. -/
theorem attempts_induction {P : Link σ (Observed τ) → List Round → Prop}
    (capacity : Nat)
    (hanew : ∀ l rounds, P l rounds → P (anew capacity l).link rounds)
    (hstep : ∀ (s : Sending σ (Observed τ)) move, P s.link s.rounds →
      P (s.step move).link (s.step move).rounds)
    {l : Link σ (Observed τ)} (h : P l []) (plans : List (List (SendMove σ))) :
    P (leave capacity l plans)
      ((attempts capacity l plans).flatMap Sending.rounds) := by
  have hafter : ∀ (moves : List (SendMove σ)) (s : Sending σ (Observed τ))
      (before : List Round), P s.link (before ++ s.rounds) →
      P (s.after moves).link (before ++ (s.after moves).rounds) := by
    intro moves
    induction moves with
    | nil => exact fun s before h => h
    | cons move moves ih =>
      intro s before h
      refine ih (s.step move) before ?_
      have hnext := hstep (s.behind before) move h
      rw [behind_step] at hnext
      exact hnext
  have hall : ∀ (plans : List (List (SendMove σ))) (l : Link σ (Observed τ))
      (before : List Round), P l before → P (leave capacity l plans)
      (before ++ (attempts capacity l plans).flatMap Sending.rounds) := by
    intro plans
    induction plans with
    | nil =>
      intro l before h
      rw [attempts, List.flatMap_nil, List.append_nil]
      exact h
    | cons moves plans ih =>
      intro l before h
      have hone := hafter moves (anew capacity l) before (by
        rw [show (anew capacity l).rounds = [] from rfl, List.append_nil]
        exact hanew l before h)
      have hmore := ih _ _ hone
      rw [List.append_assoc] at hmore
      exact hmore
  exact hall plans l [] h

theorem mirrors_attempts (capacity : Nat) (plan : Plan) (limits : Limits)
    (supply : Supply σ) (o : Observed τ) (plans : List (List (SendMove σ))) :
    ∃ calls, ((Run.start plan limits supply).after calls).emitted
        = ((attempts capacity ⟨Encoder.start plan limits, supply, o⟩ plans).flatMap
          Sending.rounds).flatMap
          Round.output
      ∧ ((Run.start plan limits supply).after calls).results
        = ((attempts capacity ⟨Encoder.start plan limits, supply, o⟩ plans).flatMap
          Sending.rounds).map
          Round.result := by
  -- a mirror does not see the standing, so any will do between two attempts
  have hmirrors := attempts_induction (τ := τ) capacity
    (P := fun l rounds => ∃ calls, ∀ standing,
      (Sending.mk standing l rounds).Mirrors
      ((Run.start plan limits supply).after calls))
    (fun l rounds ⟨calls, h⟩ => ⟨calls, fun standing =>
      ⟨(h standing).encoder, (h standing).supply, (h standing).emitted,
        (h standing).results⟩⟩)
    (by
      intro s move h
      obtain ⟨calls, h⟩ := h
      obtain ⟨more, hmore⟩ := (h s.standing).step move
      refine ⟨calls ++ more, fun standing => ?_⟩
      rw [Run.after, List.foldl_append]
      exact ⟨hmore.encoder, hmore.supply, hmore.emitted, hmore.results⟩)
    (l := ⟨Encoder.start plan limits, supply, o⟩)
      ⟨[], fun standing => ⟨rfl, rfl, rfl, rfl⟩⟩ plans
  obtain ⟨calls, h⟩ := hmirrors
  exact ⟨calls, (h (.finished (.ok ()))).emitted, (h (.finished (.ok ()))).results⟩

/-- What a failing call wrote is the last that an encoder has written. -/
def Trails (e : Encoder) (rounds : List Round) : Prop :=
  ∃ tail, rounds.flatMap Round.output = rounds.flatMap Round.kept ++ tail
    ∧ (tail = [] ∨ e.phase = .failed)

omit [Source σ] [Transport τ] in
theorem Trails.round {e e' : Encoder} {rounds : List Round} {round : Round}
    (h : Trails e rounds)
    (hfailed : e.phase = .failed → round.output = [] ∧ e'.phase = .failed)
    (hfails : ∀ failure, round.result = .error failure → e'.phase = .failed) :
    Trails e' (rounds ++ [round]) := by
  obtain ⟨tail, htail, hphase⟩ := h
  have houtput : (rounds ++ [round]).flatMap Round.output
      = rounds.flatMap Round.output ++ round.output := by
    simp
  have hkept : (rounds ++ [round]).flatMap Round.kept
      = rounds.flatMap Round.kept ++ round.kept := by
    simp
  rw [Trails, houtput, hkept, htail]
  by_cases hbefore : e.phase = .failed
  · obtain ⟨hnothing, hafter⟩ := hfailed hbefore
    refine ⟨tail, ?_, .inr hafter⟩
    have hnone : round.kept = [] := by
      unfold Round.kept
      split
      · exact hnothing
      · rfl
    rw [hnothing, hnone, List.append_nil, List.append_nil]
  · rw [hphase.resolve_right hbefore, List.append_nil]
    cases hresult : round.result with
    | ok progress =>
      refine ⟨[], ?_, .inl rfl⟩
      rw [Round.kept, hresult, List.append_nil]
    | error failure =>
      refine ⟨round.output, ?_, .inr (hfails failure hresult)⟩
      rw [Round.kept, hresult, List.append_nil]

theorem Trails.step {s : Sending σ τ} (h : Trails s.link.encoder s.rounds)
    (move : SendMove σ) :
    Trails (s.step move).link.encoder (s.step move).rounds := by
  cases move with
  | feed f => exact h
  | produce act => exact h
  | step =>
    show Trails s.advance.link.encoder s.advance.rounds
    rcases s.advance_cases with ⟨t, -, hadvance⟩ | ⟨-, hsame⟩
    · obtain ⟨hleft, -⟩ := t.step_link s.link
      rw [hadvance]
      cases hstage : t.stage with
      | encode =>
        simp only [Transmission.call?, Transmission.round?, hstage, Option.map_some,
          Option.getD_some, Option.toList_some] at hleft ⊢
        rw [hleft]
        refine h.round (fun hfailed => ?_) (fun failure hresult => ?_)
        · rw [(Link.isOver_of_failed hfailed).write]
          simp only [Encoder.write, hfailed]
          exact ⟨rfl, trivial⟩
        · have hcall : (s.link.call (.write (Buffer.empty t.capacity))).1.failure?
              = some failure := by
            simp only at hresult
            rw [Link.call, hresult]
            rfl
          rcases Link.call_of_failure hcall with hfailed | ⟨⟨error, hpolled⟩, -⟩
          · exact hfailed
          · cases hpolled
      | write rest progress | flush | await waited | finish =>
        simp only [Transmission.call?, Transmission.round?, hstage, Option.map_some,
          Option.map_none, Option.getD_some, Option.getD_none, Option.toList_none,
          List.append_nil] at hleft ⊢
        rw [hleft]
        exact h
    · rw [hsame]
      exact h

theorem trails_attempts (capacity : Nat) (l : Link σ (Observed τ))
    (plans : List (List (SendMove σ))) :
    Trails (leave capacity l plans).encoder
      ((attempts capacity l plans).flatMap Sending.rounds) :=
  attempts_induction (P := fun l rounds => Trails l.encoder rounds) capacity
    (fun _ _ h => h) (fun _ move h => h.step move) ⟨[], rfl, .inl rfl⟩ plans

/-- An attempt is a new transmission on something that was left,
driven for some moves. -/
theorem exists_of_mem_attempts {capacity : Nat} {l : Link σ (Observed τ)}
    {plans : List (List (SendMove σ))} {s : Sending σ (Observed τ)}
    (h : s ∈ attempts capacity l plans) :
    ∃ l' moves, s = (anew capacity l').after moves := by
  induction plans generalizing l with
  | nil => cases h
  | cons moves plans ih =>
    rcases List.mem_cons.mp h with rfl | hmore
    · exact ⟨l, moves, rfl⟩
    · exact ih hmore

theorem leave_of_getLast {capacity : Nat} {l : Link σ (Observed τ)}
    {plans : List (List (SendMove σ))} {s : Sending σ (Observed τ)}
    (h : s ∈ (attempts capacity l plans).getLast?) :
    leave capacity l plans = s.link := by
  rcases List.eq_nil_or_concat plans with rfl | ⟨before, moves, hplans⟩
  · cases h
  · rw [List.concat_eq_append] at hplans
    subst hplans
    rw [attempts_concat, List.getLast?_concat, Option.mem_some_iff] at h
    rw [leave_concat, h]

end

section Delivered

variable {s : Sending σ (Observed τ)} {tries : List (Sending σ (Observed τ))}
  {fronts : List Bytes}

theorem Delivers.sublist (h : s.Delivers fronts) :
    s.link.transport.accepted.Sublist s.encoded := by
  have heach : ∀ {fronts : List Bytes} {rounds : List Round},
      List.Forall₂ (fun front round => front <+: round.kept) fronts rounds →
      fronts.flatten.Sublist (rounds.flatMap Round.kept) := by
    intro fronts rounds h
    induction h with
    | nil => exact .slnil
    | cons hfront _ ih => exact hfront.sublist.append ih
  rw [h.accepted]
  exact heach h.each

/-- What attempts delivered one after another is what was accepted, and in the
order in which it was encoded. -/
theorem delivers_all (h : ∀ s ∈ tries, ∃ owed, s.Owes owed) :
    ∃ fronts, List.Forall₂ Delivers tries fronts
      ∧ tries.flatMap (fun s => s.link.transport.accepted) = fronts.flatten.flatten
      ∧ (tries.flatMap (fun s => s.link.transport.accepted)).Sublist
        (tries.flatMap Sending.encoded) := by
  induction tries with
  | nil => exact ⟨[], .nil, rfl, .slnil⟩
  | cons s tries ih =>
    obtain ⟨owed, howes⟩ := h s (List.mem_cons_self ..)
    obtain ⟨first, hfirst⟩ := howes.delivers
    obtain ⟨more, hmore, haccepted, hsublist⟩ :=
      ih (fun s hs => h s (List.mem_cons_of_mem _ hs))
    refine ⟨first :: more, .cons hfirst hmore, ?_, hfirst.sublist.append hsublist⟩
    rw [List.flatMap_cons, haccepted, hfirst.accepted, List.flatten_cons,
      List.flatten_append]

/-- Of attempts that are not cut all is accepted that they encoded. -/
theorem accepted_eq_encoded (h : ∀ s ∈ tries, ∃ owed, s.Owes owed)
    (hnot : ∀ s ∈ tries, ¬ s.IsCut) :
    tries.flatMap (fun s => s.link.transport.accepted)
      = tries.flatMap Sending.encoded := by
  refine List.flatMap_congr (fun s hs => ?_)
  obtain ⟨owed, hsum, -, -, hwhole⟩ := h s hs
  rwa [hwhole (hnot s hs), List.append_nil] at hsum

theorem accepted_prefix_encoded (h : ∀ s ∈ tries, ∃ owed, s.Owes owed)
    (hnot : ∀ s ∈ tries.dropLast, ¬ s.IsCut) :
    tries.flatMap (fun s => s.link.transport.accepted)
      <+: tries.flatMap Sending.encoded := by
  rcases List.eq_nil_or_concat tries with rfl | ⟨earlier, last, htries⟩
  · exact List.prefix_rfl
  · rw [List.concat_eq_append] at htries
    subst htries
    rw [List.dropLast_concat] at hnot
    have hearlier :=
      accepted_eq_encoded (fun s hs => h s (List.mem_append_left _ hs)) hnot
    obtain ⟨owed, hsum, -⟩ :=
      h last (List.mem_append_right _ (List.mem_singleton_self last))
    rw [List.flatMap_append, List.flatMap_append, hearlier, List.flatMap_singleton,
      List.flatMap_singleton]
    exact (List.prefix_append_right_inj _).mpr ⟨owed, hsum⟩

/-- The last that a successful attempt asked for is a flush. -/
theorem Ordered.not_cut (h : Ordered s.standing s.link.transport.uses)
    (hfinished : s.standing = .finished (.ok ())) : ¬ s.IsCut := by
  rintro (⟨rest, progress, hwriting⟩ | ⟨use, huse, hwrite, -⟩)
  · rw [hfinished] at hwriting
    cases hwriting
  · rw [h.flushed (.inr hfinished), Option.mem_some_iff] at huse
    rw [← huse] at hwrite
    cases hwrite

end Delivered

variable [Source σ] [Transport τ]

/-- Over attempts to send one message, the transport accepts of every round of
the encoder a front: all of it, unless it is the last round of an attempt in
which a write was outstanding when the attempt was dropped, or has failed; and
nothing of a round that failed. So no byte is accepted twice or out of order. If
no attempt before the last is cut, what is accepted is always a front of what the
encoder has written, and when the last attempt ends with success, it is the whole
message, and it is flushed. -/
theorem accepted_over_attempts (capacity : Nat) (plan : Plan) (limits : Limits)
    (supply : Supply σ) (o : Observed τ) (plans : List (List (SendMove σ))) :
    let tries := attempts capacity ⟨Encoder.start plan limits, supply, o⟩ plans
    let rounds := tries.flatMap Sending.rounds
    let accepted := tries.flatMap (fun s => s.link.transport.accepted)
    ∃ (calls : List (Move σ)) (fronts : List (List Bytes)),
      ((Run.start plan limits supply).after calls).emitted
        = rounds.flatMap Round.output
      ∧ ((Run.start plan limits supply).after calls).results = rounds.map Round.result
      ∧ List.Forall₂ Delivers tries fronts
      ∧ accepted = fronts.flatten.flatten
      ∧ accepted.Sublist (rounds.flatMap Round.output)
      ∧ ((∀ s ∈ tries.dropLast, ¬ s.IsCut) →
        accepted <+: rounds.flatMap Round.output
          ∧ ∀ s ∈ tries.getLast?, s.standing = .finished (.ok ()) →
            ((Run.start plan limits supply).after calls).IsDone
              ∧ accepted = rounds.flatMap Round.output
              ∧ s.link.transport.uses.getLast? = some (.flush .flushed)) := by
  intro tries rounds accepted
  obtain ⟨calls, hemitted, hresults⟩ :=
    mirrors_attempts capacity plan limits supply o plans
  obtain ⟨tail, htail, hphase⟩ :=
    trails_attempts capacity ⟨Encoder.start plan limits, supply, o⟩ plans
  have howes : ∀ s ∈ tries, ∃ owed, s.Owes owed := by
    intro s hs
    obtain ⟨l, moves, rfl⟩ := exists_of_mem_attempts hs
    exact owes_after_anew capacity l moves
  obtain ⟨fronts, hfronts, haccepted, hsublist⟩ := delivers_all howes
  have hkept : rounds.flatMap Round.kept <+: rounds.flatMap Round.output :=
    ⟨tail, htail.symm⟩
  have hencoded : tries.flatMap Sending.encoded = rounds.flatMap Round.kept :=
    List.flatMap_assoc.symm
  refine ⟨calls, fronts, hemitted, hresults, hfronts, haccepted,
    (hencoded ▸ hsublist).trans hkept.sublist, ?_⟩
  intro hwhole
  refine ⟨(hencoded ▸ accepted_prefix_encoded howes hwhole).trans hkept, ?_⟩
  intro s hs hfinished
  have hs' : s ∈ tries := List.mem_of_getLast? hs
  obtain ⟨hdone, hmem, hordered⟩ :
      s.link.encoder.isDone = true ∧ .ok .done ∈ s.rounds.map Round.result
      ∧ Ordered s.standing s.link.transport.uses := by
    obtain ⟨l, moves, rfl⟩ := exists_of_mem_attempts hs'
    obtain ⟨hdone, hmem⟩ :=
      (accounts_after_anew capacity l moves).last (by rw [hfinished]; trivial)
    exact ⟨hdone, hmem, ordered_after_anew capacity l moves⟩
  refine ⟨?_, ?_, hordered.flushed (.inr hfinished)⟩
  · rw [Run.IsDone, hresults]
    obtain ⟨round, hround, hresult⟩ := List.mem_map.mp hmem
    exact List.mem_map.mpr ⟨round, List.mem_flatMap.mpr ⟨s, hs', hround⟩, hresult⟩
  · -- an encoder that is done has not failed, so no failing call wrote anything
    have hnone : tail = [] := by
      refine hphase.resolve_right (fun hfailed => ?_)
      rw [leave_of_getLast hs] at hfailed
      rw [Encoder.isDone, hfailed] at hdone
      cases hdone
    rw [htail, hnone, List.append_nil, ← hencoded]
    refine accepted_eq_encoded howes (fun s' hmem' => ?_)
    rw [← List.dropLast_append_getLast? s hs] at hmem'
    rcases List.mem_append.mp hmem' with hearlier | hlast
    · exact hwhole s' hearlier
    · rw [List.mem_singleton.mp hlast]
      exact hordered.not_cut hfinished

end Sending

end HttpWire
