import Mathlib.Data.List.ModifyLast
import HttpWire.Proofs.Flushing
import HttpWire.Proofs.GivingUp

/-!
# A transmission does not spin

Nothing is assumed here of the body, of the encoder or of the transport. A body
may say again and again that it is ready and never bring anything, and still the
number of rounds is bounded by what they brought and by how often the body had to
be waited for (`Watched.paced`).

For that a round is taken together with what the body answered when it was asked
after it; the two are a lap. A lap moves if its round brought bytes or the body
kept it waiting, and it is idle if neither is so because the body was ready at
once. The invariant is `Steady`: of the laps that are over no two idle ones follow
each other, and the transmission counts the idle ones at the end. So at most every
other lap is idle. The last lap may be the second idle one in a row, and then the
transmission gives up.

The count changes when a round brings bytes, when the body was waited for, and
when it was ready at once, and these are steps of different stages. So the
invariant says for each stage what is known of the lap that is not over
(`Transmission.Paces`), and each stage keeps it.
-/

namespace HttpWire

/-- A round, and what the body answered each time it was asked
before the next round. -/
structure Lap where
  round : Round
  answers : List Poll := []

namespace Lap

/-- The round appended something. -/
def brings (u : Lap) : Bool :=
  !u.round.output.isEmpty

/-- The body had to be waited for. -/
def waits (u : Lap) : Bool :=
  decide (.pending ∈ u.answers)

/-- The lap brings something or waits. -/
def moves (u : Lap) : Bool :=
  u.brings || u.waits

/-- The round appended nothing, and the body was ready when it was first asked. -/
structure IsIdle (u : Lap) : Prop where
  output : u.round.output = []
  ready : u.answers.head? = some .ready

instance (u : Lap) : Decidable u.IsIdle :=
  decidable_of_iff (u.round.output = [] ∧ u.answers.head? = some .ready)
    ⟨fun h => ⟨h.1, h.2⟩, fun h => ⟨h.output, h.ready⟩⟩

/-- One more answer of the body. -/
def hear (answer : Poll) (u : Lap) : Lap :=
  { u with answers := u.answers ++ [answer] }

theorem moves_of_output {u : Lap} (h : u.round.output ≠ []) : u.moves = true := by
  simp [moves, brings, h]

theorem moves_of_pending {u : Lap} (h : u.answers.head? = some .pending) :
    u.moves = true := by
  have hmem : .pending ∈ u.answers := List.mem_of_head? h
  simp [moves, waits, hmem]

theorem not_isIdle_of_output {u : Lap} (h : u.round.output ≠ []) : ¬ u.IsIdle :=
  fun hidle => h hidle.output

theorem not_isIdle_of_head? {u : Lap} (h : u.answers.head? ≠ some .ready) :
    ¬ u.IsIdle :=
  fun hidle => h hidle.ready

theorem head?_hear {u : Lap} {first : Poll} (h : u.answers.head? = some first)
    (answer : Poll) :
    (u.hear answer).answers.head? = some first := by
  simp [hear, h]

end Lap

/-- Two neighbours in a list are its last two elements, or they are
neighbours before the last one. -/
theorem concat_eq_cons_cons {α : Type} {before earlier later : List α} {last a b : α}
    (h : before ++ [last] = earlier ++ a :: b :: later) :
    (later = [] ∧ before = earlier ++ [a] ∧ last = b)
      ∨ ∃ between,
        later = between ++ [last] ∧ before = earlier ++ a :: b :: between := by
  rcases later.eq_nil_or_concat with rfl | ⟨between, x, rfl⟩
  · have heq : before ++ [last] = (earlier ++ [a]) ++ [b] := by simpa using h
    obtain ⟨hbefore, hlast⟩ := List.append_inj' heq rfl
    exact .inl ⟨rfl, hbefore, List.singleton_inj.mp hlast⟩
  · have heq : before ++ [last] = (earlier ++ a :: b :: between) ++ [x] := by
      simpa using h
    obtain ⟨hbefore, hlast⟩ := List.append_inj' heq rfl
    exact .inr ⟨between, by rw [hlast, List.concat_eq_append], hbefore⟩

/-! ## Laps that are over -/

/-- Laps that are over, and how many of those at the end are idle. -/
inductive Steady : List Lap → Nat → Prop
  | start : Steady [] 0
  | moving {laps : List Lap} {idle : Nat} {last : Lap} : Steady laps idle →
      last.moves = true →
    ¬ last.IsIdle → Steady (laps ++ [last]) 0
  | idling {laps : List Lap} {last : Lap} : Steady laps 0 → last.IsIdle →
      Steady (laps ++ [last]) 1

namespace Steady

variable {laps : List Lap} {idle : Nat}

theorem idle_le (h : Steady laps idle) : idle ≤ 1 := by
  cases h <;> omega

/-- At most every other lap does not move. -/
theorem length_le (h : Steady laps idle) :
    laps.length ≤ 2 * laps.countP Lap.moves + idle := by
  induction h with
  | start => simp
  | @moving laps idle last h hmoves _ ih =>
    have hle := h.idle_le
    simp only [List.length_append, List.length_singleton, List.countP_append,
      List.countP_singleton, if_pos hmoves]
    omega
  | idling _ _ ih =>
    simp only [List.length_append, List.length_singleton, List.countP_append]
    omega

theorem idle_of_last {before : List Lap} {last : Lap} (h : Steady laps idle)
    (hlaps : laps = before ++ [last]) (hlast : last.IsIdle) : idle = 1 := by
  cases h with
  | start => simp at hlaps
  | moving _ _ hnot =>
    obtain ⟨-, hsame⟩ := List.append_inj' hlaps rfl
    rw [List.singleton_inj.mp hsame] at hnot
    exact absurd hlast hnot
  | idling => rfl

theorem last_of_idle (h : Steady laps 1) :
    ∃ before last, laps = before ++ [last] ∧ last.IsIdle := by
  generalize hone : 1 = idle at h
  cases h with
  | start | moving => omega
  | @idling laps last _ hidle => exact ⟨laps, last, rfl, hidle⟩

/-- The lap after an idle one moves. -/
theorem moves_after (h : Steady laps idle) {earlier later : List Lap} {a b : Lap}
    (hlaps : laps = earlier ++ a :: b :: later) (ha : a.IsIdle) :
    b.moves = true ∧ ¬ b.IsIdle := by
  induction h generalizing later with
  | start => simp at hlaps
  | moving _ hmoves hnot ih =>
    rcases concat_eq_cons_cons hlaps with ⟨-, -, rfl⟩ | ⟨between, -, hbefore⟩
    · exact ⟨hmoves, hnot⟩
    · exact ih hbefore
  | idling h _ ih =>
    rcases concat_eq_cons_cons hlaps with ⟨-, hbefore, -⟩ | ⟨between, -, hbefore⟩
    · exact absurd (h.idle_of_last hbefore ha) (by decide)
    · exact ih hbefore

end Steady

/-- A lap moves by at least one byte or by waiting. -/
theorem countP_moves_le (laps : List Lap) :
    laps.countP Lap.moves
      ≤ (laps.flatMap (fun u => u.round.output)).length + laps.countP Lap.waits := by
  induction laps with
  | nil => simp
  | cons u laps ih =>
    rw [List.countP_cons, List.countP_cons, List.flatMap_cons, List.length_append]
    by_cases houtput : u.round.output = []
    · have hsame : u.moves = u.waits := by simp [Lap.moves, Lap.brings, houtput]
      rw [hsame]
      omega
    · have hpos := List.length_pos_of_ne_nil houtput
      split <;> omega

/-! ## The lap that is not over -/

/-- All laps but the last are over; `P` holds of the last one and of how many
idle ones are before it. -/
def Within (P : Nat → Lap → Prop) (laps : List Lap) : Prop :=
  ∃ before idle last, laps = before ++ [last] ∧ Steady before idle ∧ P idle last

/-- What a transmission that goes on knows of its laps. -/
def Transmission.Paces (t : Transmission) (laps : List Lap) : Prop :=
  match t.stage with
  | .encode => Steady laps t.idleRounds
  | .write _ _ =>
    Within (fun _ last =>
      last.round.output ≠ [] ∧ last.answers = [] ∧ t.idleRounds = 0) laps
  | .flush | .await false =>
    Within (fun idle last =>
      last.round.output = [] ∧ last.answers = [] ∧ t.idleRounds = idle) laps
  | .await true => Within (fun _ last => last.answers.head? = some .pending) laps
  | .finish => Within (fun _ last => last.answers = []) laps

/-- A transmission that is finished has given up exactly if its last lap is idle,
and then the lap before is idle too. -/
def Standing.Paces (capacity : Nat) (laps : List Lap) : Standing → Prop
  | .running t | .suspended t => t.capacity = capacity ∧ t.Paces laps
  | .finished result =>
    Within (fun idle last => (last.IsIdle → idle = 1)
      ∧ ∀ n, result = .error (.noProgress n) ↔ n = capacity ∧ last.IsIdle) laps

theorem Within.mono {P Q : Nat → Lap → Prop} {laps : List Lap} (h : Within P laps)
    (hPQ : ∀ idle last, P idle last → Q idle last) : Within Q laps := by
  obtain ⟨before, idle, last, hlaps, hsteady, hlast⟩ := h
  exact ⟨before, idle, last, hlaps, hsteady, hPQ idle last hlast⟩

/-- A transmission may end for any other reason in a lap that is not idle. -/
theorem Standing.paces_finished {capacity : Nat} {laps : List Lap}
    {result : Except Failure Unit} (h : Within (fun _ last => ¬ last.IsIdle) laps)
    (hresult : ∀ n, result ≠ .error (.noProgress n)) :
    (Standing.finished result).Paces capacity laps :=
  h.mono fun _ _ hnot =>
    ⟨fun hidle => absurd hidle hnot, fun n =>
      ⟨fun heq => absurd heq (hresult n), fun heq => absurd heq.2 hnot⟩⟩

namespace Transmission

variable {σ τ : Type} {t : Transmission} {l : Link σ τ} {laps : List Lap}

/-- Before a lap is over it is not idle, and it has moved unless the
body is still to be asked. -/
theorem Paces.within (h : t.Paces laps) (hstage : t.stage ≠ .encode) :
    Within (fun _ last => ¬ last.IsIdle ∧ (last.moves = true ∨ last.answers = []))
      laps := by
  have hunasked : ∀ {last : Lap}, last.answers = [] →
      ¬ last.IsIdle ∧ (last.moves = true ∨ last.answers = []) := fun hanswers =>
    ⟨Lap.not_isIdle_of_head? (by simp [hanswers]), .inr hanswers⟩
  unfold Paces at h
  cases hcase : t.stage with
  | encode => exact absurd hcase hstage
  | write rest progress =>
    rw [hcase] at h
    exact h.mono fun _ _ hlast => hunasked hlast.2.1
  | flush =>
    rw [hcase] at h
    exact h.mono fun _ _ hlast => hunasked hlast.2.1
  | await waited =>
    rw [hcase] at h
    cases waited with
    | true =>
      refine h.mono fun _ _ hpending => ?_
      exact ⟨Lap.not_isIdle_of_head? (by simp [hpending]),
        .inl (Lap.moves_of_pending hpending)⟩
    | false => exact h.mono fun _ _ hlast => hunasked hlast.2.1
  | finish =>
    rw [hcase] at h
    exact h.mono fun _ _ hanswers => hunasked hanswers

section Transport

variable [Transport τ]

theorem offer_paces {rest : Bytes} {progress : Progress}
    (hstage : t.stage = .write rest progress) (h : t.Paces laps) :
    (t.offer rest progress l).1.Paces t.capacity laps := by
  have hlast := h
  simp only [Paces, hstage] at hlast
  have hended : ∀ error : IoError,
      (Standing.finished (.error (.io error))).Paces t.capacity laps := fun error =>
    Standing.paces_finished
      (hlast.mono fun _ _ hlast => Lap.not_isIdle_of_output hlast.1) (by simp)
  unfold offer
  rcases Transport.write l.transport rest with ⟨n | _ | error, transport⟩
  · cases n with
    | zero => exact hended _
    | succ n =>
      simp only
      split
      · cases progress with
        | done => exact ⟨rfl, hlast.mono fun _ _ hlast => hlast.2.1⟩
        | inProgress =>
          obtain ⟨before, idle, last, rfl, hsteady, houtput, -, hidle⟩ := hlast
          refine ⟨rfl, ?_⟩
          simp only [Paces, afterRound, hidle]
          exact hsteady.moving (Lap.moves_of_output houtput)
            (Lap.not_isIdle_of_output houtput)
      · exact ⟨rfl, hlast⟩
  · exact ⟨rfl, h⟩
  · simp only
    split
    · exact ⟨rfl, h⟩
    · exact hended _

theorem flushThen_paces {next : Standing} (h : t.Paces laps)
    (hlast : Within (fun _ last => last.answers = []) laps)
    (hnext : next.Paces t.capacity laps) :
    (t.flushThen next l).1.Paces t.capacity laps := by
  unfold flushThen
  rcases Transport.flush l.transport with ⟨_ | _ | error, transport⟩
  · exact hnext
  · exact ⟨rfl, h⟩
  · exact Standing.paces_finished
      (hlast.mono fun _ _ hanswers => Lap.not_isIdle_of_head? (by simp [hanswers]))
      (by simp)

end Transport

variable [Source σ]

/-- The laps after a step: a round begins one, and an answer of the body
belongs to the last one. -/
def note (t : Transmission) (l : Link σ τ) (laps : List Lap) : List Lap :=
  match t.stage with
  | .encode => laps ++ (t.round? l).toList.map (fun round => { round := round })
  | .await _ => laps.modifyLast (Lap.hear (l.encoder.poll l.supply).1)
  | .write _ _ | .flush | .finish => laps

theorem map_round_note :
    (t.note l laps).map Lap.round = laps.map Lap.round ++ (t.round? l).toList := by
  unfold note round?
  cases t.stage with
  | encode => simp
  | await waited =>
    rcases laps.eq_nil_or_concat with rfl | ⟨before, last, rfl⟩
    · rfl
    · simp [List.modifyLast_concat, Lap.hear]
  | write rest progress | flush | finish => simp

theorem encodeRound_paces (hstage : t.stage = .encode) (h : Steady laps t.idleRounds) :
    (t.encodeRound l).1.Paces t.capacity (t.note l laps) := by
  have hfailure := (l.encoder.write_orderly l.supply (Buffer.empty t.capacity)).failure
  simp only [encodeRound, note, round?, hstage, Option.toList_some, List.map_singleton]
  generalize l.encoder.write l.supply (Buffer.empty t.capacity) = w at hfailure ⊢
  obtain ⟨result, encoder, supply, dst⟩ := w
  cases result with
  | error failure =>
    refine Standing.paces_finished
      ⟨laps, _, _, rfl, h, Lap.not_isIdle_of_head? (by simp)⟩ ?_
    exact fun n heq => hfailure n (congrArg Except.error (Except.error.inj heq))
  | ok progress =>
    simp only
    split
    · next hempty =>
      cases progress with
      | done => exact ⟨rfl, laps, _, _, rfl, h, rfl⟩
      | inProgress =>
        exact ⟨rfl, laps, _, _, rfl, h, List.isEmpty_iff.mp hempty, rfl, rfl⟩
    · next hfull => exact ⟨rfl, laps, _, _, rfl, h, by simpa using hfull, rfl, rfl⟩

theorem awaitBody_paces {waited : Bool} (hstage : t.stage = .await waited)
    (h : t.Paces laps) :
    (t.awaitBody waited l).1.Paces t.capacity (t.note l laps) := by
  have hfailure := @Encoder.failure_of_poll _ _ l.encoder l.supply
  simp only [Paces, hstage] at h
  simp only [awaitBody, note, hstage]
  generalize l.encoder.poll l.supply = answer at hfailure ⊢
  obtain ⟨poll, supply⟩ := answer
  cases waited with
  | true =>
    obtain ⟨before, idle, last, rfl, hsteady, hpending⟩ := h
    have hheard := Lap.head?_hear hpending poll
    have hnot := Lap.not_isIdle_of_head? (u := last.hear poll) (by simp [hheard])
    rw [List.modifyLast_concat]
    cases poll with
    | pending => exact ⟨rfl, before, _, _, rfl, hsteady, hheard⟩
    | failed failure =>
      refine Standing.paces_finished ⟨before, _, _, rfl, hsteady, hnot⟩ ?_
      exact fun n heq => hfailure rfl n (Except.error.inj heq)
    | ready => exact ⟨rfl, hsteady.moving (Lap.moves_of_pending hheard) hnot⟩
  | false =>
    obtain ⟨before, idle, last, rfl, hsteady, houtput, hanswers, rfl⟩ := h
    have hheard : (last.hear poll).answers.head? = some poll := by
      simp [Lap.hear, hanswers]
    rw [List.modifyLast_concat]
    cases poll with
    | pending => exact ⟨rfl, before, _, _, rfl, hsteady, hheard⟩
    | failed failure =>
      refine Standing.paces_finished
        ⟨before, _, _, rfl, hsteady, Lap.not_isIdle_of_head? (by simp [hheard])⟩ ?_
      exact fun n heq => hfailure rfl n (Except.error.inj heq)
    | ready =>
      have hidle : (last.hear .ready).IsIdle := ⟨houtput, hheard⟩
      have hle := hsteady.idle_le
      have hmost : mostIdleRounds = 2 := rfl
      simp only [Bool.false_eq_true, if_false]
      split
      · next hfew =>
        have hzero : t.idleRounds = 0 := by omega
        rw [hzero] at hsteady
        refine ⟨rfl, ?_⟩
        simp only [Paces, hzero]
        exact hsteady.idling hidle
      · next hmany =>
        refine ⟨before, _, _, rfl, hsteady, fun _ => by omega, fun n => ?_⟩
        simp [hidle, eq_comm]

variable [Transport τ]

theorem step_paces (h : t.Paces laps) :
    (t.step l).1.Paces t.capacity (t.note l laps) := by
  have hlast := h
  unfold step
  cases hstage : t.stage with
  | encode =>
    simp only [Paces, hstage] at hlast
    exact encodeRound_paces hstage hlast
  | write rest progress =>
    simp only [note, hstage]
    exact offer_paces hstage h
  | flush =>
    simp only [Paces, hstage] at hlast
    simp only [note, hstage]
    exact flushThen_paces h (hlast.mono fun _ _ hlast => hlast.2.1) ⟨rfl, hlast⟩
  | await waited => exact awaitBody_paces hstage h
  | finish =>
    simp only [Paces, hstage] at hlast
    simp only [note, hstage]
    refine flushThen_paces h hlast (Standing.paces_finished ?_ (by simp))
    exact hlast.mono fun _ _ hanswers => Lap.not_isIdle_of_head? (by simp [hanswers])

end Transmission

/-! ## A sending and its laps -/

/-- A sending with its laps so far, in order. -/
structure Watched (σ τ : Type) where
  sending : Sending σ τ
  laps : List Lap := []

namespace Watched

variable {σ τ : Type}

/-- A new transmission of a message that may be partly sent. -/
def start (capacity : Nat) (l : Link σ τ) : Watched σ τ where
  sending := { standing := .running { capacity := capacity }, link := l }

/-- The laps are those of the rounds, and they fit the standing. -/
structure Fits (capacity : Nat) (w : Watched σ τ) : Prop where
  rounds : w.laps.map Lap.round = w.sending.rounds
  standing : w.sending.standing.Paces capacity w.laps

theorem fits_start (capacity : Nat) (l : Link σ τ) :
    (start capacity l).Fits capacity where
  rounds := rfl
  standing := ⟨rfl, .start⟩

/-- Of the laps of a transmission that is not about to begin a round, all
but the last are over. -/
theorem Fits.within {capacity : Nat} {w : Watched σ τ} (h : w.Fits capacity)
    (hstage : w.sending.standing.stage? ≠ some .encode) :
    Within (fun idle last => (last.IsIdle → idle = 1)
      ∧ (∀ n, w.sending.standing = .finished (.error (.noProgress n)) ↔
        n = capacity ∧ last.IsIdle)
      ∧ (last.moves = true ∨ last.answers = [] ∨ w.sending.standing.stage? = none))
        w.laps := by
  have hstanding := h.standing
  cases hcase : w.sending.standing with
  | running t | suspended t =>
    rw [hcase] at hstanding hstage
    refine (hstanding.2.within (fun heq => hstage (congrArg some heq))).mono ?_
    rintro idle last ⟨hnot, hmoves⟩
    exact ⟨fun hidle => absurd hidle hnot, fun n => by simp [hnot],
      hmoves.imp_right .inl⟩
  | finished result =>
    rw [hcase] at hstanding
    refine hstanding.mono ?_
    rintro idle last ⟨hidle, hresult⟩
    exact ⟨hidle, fun n => by rw [← hresult n, Standing.finished.injEq],
      .inr (.inr rfl)⟩

/-- Of the laps of a transmission that is about to begin a round, all are over. -/
theorem Fits.steady {capacity : Nat} {w : Watched σ τ} (h : w.Fits capacity)
    (hstage : w.sending.standing.stage? = some .encode) :
    ∃ idle, Steady w.laps idle := by
  have hstanding := h.standing
  cases hcase : w.sending.standing with
  | running t | suspended t =>
    rw [hcase] at hstanding hstage
    obtain ⟨-, hpaces⟩ := hstanding
    rw [Transmission.Paces, Option.some.inj hstage] at hpaces
    exact ⟨_, hpaces⟩
  | finished result =>
    rw [hcase] at hstage
    cases hstage

theorem Fits.moves_or_ends {capacity : Nat} {w : Watched σ τ} (h : w.Fits capacity)
    {earlier later : List Lap} {a b : Lap}
    (hlaps : w.laps = earlier ++ a :: b :: later) (ha : a.IsIdle) :
    b.moves = true ∨ later = [] ∧ w.sending.standing.stage? ≠ some .encode
      ∧ (b.answers = [] ∨ w.sending.standing.stage? = none) := by
  by_cases hstage : w.sending.standing.stage? = some .encode
  · obtain ⟨idle, hsteady⟩ := h.steady hstage
    exact .inl (hsteady.moves_after hlaps ha).1
  · obtain ⟨before, idle, last, hbefore, hsteady, -, -, hlast⟩ := h.within hstage
    rcases concat_eq_cons_cons (hbefore.symm.trans hlaps) with ⟨rfl, -, rfl⟩
      | ⟨between, -, rfl⟩
    · exact hlast.imp_right (fun hends => ⟨rfl, hstage, hends⟩)
    · exact .inl (hsteady.moves_after rfl ha).1

/-- A transmission gives up after two idle laps in a row, and for no other
reason. -/
theorem Fits.gaveUp_iff {capacity : Nat} {w : Watched σ τ} (h : w.Fits capacity)
    (n : Nat) :
    w.sending.standing = .finished (.error (.noProgress n)) ↔
      n = capacity ∧ ∃ earlier a b,
        w.laps = earlier ++ [a, b] ∧ a.IsIdle ∧ b.IsIdle := by
  constructor
  · intro hstanding
    obtain ⟨before, idle, last, hbefore, hsteady, hidle, hgave, -⟩ :=
      h.within (by simp [hstanding])
    obtain ⟨hn, hlast⟩ := (hgave n).mp hstanding
    rw [hidle hlast] at hsteady
    obtain ⟨earlier, a, rfl, ha⟩ := hsteady.last_of_idle
    exact ⟨hn, earlier, a, last, by simpa using hbefore, ha, hlast⟩
  · rintro ⟨hn, earlier, a, b, hlaps, ha, hb⟩
    by_cases hstage : w.sending.standing.stage? = some .encode
    · obtain ⟨idle, hsteady⟩ := h.steady hstage
      exact absurd hb (hsteady.moves_after hlaps ha).2
    · obtain ⟨before, idle, last, hbefore, -, -, hgave, -⟩ := h.within hstage
      rcases concat_eq_cons_cons (hbefore.symm.trans hlaps) with ⟨-, -, rfl⟩
        | ⟨between, hnil, -⟩
      · exact (hgave n).mpr ⟨hn, hb⟩
      · simp at hnil

theorem Fits.length_laps_le {capacity : Nat} {w : Watched σ τ} (h : w.Fits capacity) :
    w.laps.length ≤ 2 * w.laps.countP Lap.moves + 2 := by
  by_cases hstage : w.sending.standing.stage? = some .encode
  · obtain ⟨idle, hsteady⟩ := h.steady hstage
    have hle := hsteady.idle_le
    have hlength := hsteady.length_le
    omega
  · obtain ⟨before, idle, last, hbefore, hsteady, -⟩ := h.within hstage
    have hle := hsteady.idle_le
    have hlength := hsteady.length_le
    rw [hbefore, List.length_append, List.length_singleton, List.countP_append]
    omega

variable [Source σ] [Transport τ]

/-- One move, noted in the laps. -/
def step (w : Watched σ τ) (move : SendMove σ) : Watched σ τ where
  sending := w.sending.step move
  laps :=
    match move, w.sending.standing with
    | .step, .running t | .step, .suspended t => t.note w.sending.link w.laps
    | .step, .finished _ | .feed _, _ | .produce _, _ => w.laps

/-- The sending and its laps after a list of moves. -/
def after (w : Watched σ τ) (moves : List (SendMove σ)) : Watched σ τ :=
  moves.foldl step w

theorem Fits.step {capacity : Nat} {w : Watched σ τ} (h : w.Fits capacity)
    (move : SendMove σ) :
    (w.step move).Fits capacity := by
  cases move with
  | step =>
    rcases w.sending.advance_cases with ⟨t, hlive, hadvance⟩
      | ⟨⟨result, hfinished⟩, hsame⟩
    · have hpaces : t.capacity = capacity ∧ t.Paces w.laps := by
        have hstanding := h.standing
        rcases hlive with hlive | hlive <;> rw [hlive] at hstanding <;> exact hstanding
      have hlaps : (w.step .step).laps = t.note w.sending.link w.laps := by
        rcases hlive with hlive | hlive <;> simp only [Watched.step, hlive]
      obtain ⟨rfl, hpaces⟩ := hpaces
      refine ⟨?_, ?_⟩
      · rw [hlaps, t.map_round_note, h.rounds]
        exact (congrArg Sending.rounds hadvance).symm
      · rw [hlaps]
        show w.sending.advance.standing.Paces t.capacity _
        rw [hadvance]
        exact t.step_paces hpaces
    · have hstep : w.step .step = w := by
        simp only [Watched.step, Sending.step, hsame, hfinished]
      rw [hstep]
      exact h
  | feed f => exact ⟨h.rounds, h.standing⟩
  | produce act => exact ⟨h.rounds, h.standing⟩

theorem Fits.after {capacity : Nat} {w : Watched σ τ} (h : w.Fits capacity)
    (moves : List (SendMove σ)) :
    (w.after moves).Fits capacity := by
  induction moves generalizing w with
  | nil => exact h
  | cons move moves ih => exact ih (h.step move)

/-- Watching changes nothing. -/
theorem sending_after (w : Watched σ τ) (moves : List (SendMove σ)) :
    (w.after moves).sending = w.sending.after moves := by
  induction moves generalizing w with
  | nil => rfl
  | cons move moves ih => exact ih (w.step move)

/-- The round after an idle one appends something, or the body has to be waited
for, or it is the last one: then the transmission ends once the body is asked, and
if that lap is idle as well it has given up. So a transmission makes at most two
rounds for each byte and each wait, and two more. -/
theorem paced (capacity : Nat) (l : Link σ τ) (moves : List (SendMove σ)) :
    let w := (start capacity l).after moves
    w.sending = (start capacity l).sending.after moves
      ∧ w.laps.map Lap.round = w.sending.rounds
      ∧ (∀ earlier a b later, w.laps = earlier ++ a :: b :: later → a.IsIdle →
        b.brings = true ∨ b.waits = true
          ∨ later = [] ∧ w.sending.standing.stage? ≠ some .encode
            ∧ (b.answers = [] ∨ w.sending.standing.stage? = none))
      ∧ (∀ n, w.sending.standing = .finished (.error (.noProgress n)) ↔
        n = capacity ∧ ∃ earlier a b, w.laps = earlier ++ [a, b] ∧ a.IsIdle ∧ b.IsIdle)
      ∧ w.sending.rounds.length
        ≤ 2 * (w.sending.emitted.length + w.laps.countP Lap.waits) + 2 := by
  intro w
  have h : w.Fits capacity := (fits_start capacity l).after moves
  refine ⟨sending_after _ moves, h.rounds, ?_, h.gaveUp_iff, ?_⟩
  · intro earlier a b later hlaps ha
    have hends := h.moves_or_ends hlaps ha
    rwa [Lap.moves, Bool.or_eq_true, or_assoc] at hends
  · have hlength := h.length_laps_le
    have hmoves := countP_moves_le w.laps
    have hemitted : w.sending.emitted = w.laps.flatMap (fun u => u.round.output) := by
      rw [Sending.emitted, ← h.rounds, List.flatMap_map]
    rw [hemitted, ← h.rounds, List.length_map]
    omega

/-- An upload from a body that always says that it is ready and
never has anything. -/
def stuckUpload (limits : Limits) : Watched Scripted ScriptedTransport :=
  (start 1024 ⟨Encoder.start Run.uploadPlan limits,
    { body := some { reads := List.replicate 3 .pending } },
    {}⟩).after (List.replicate 8 .step)

/-- Two idle laps after the one that brings the head. -/
theorem paced_stuckUpload :
    (stuckUpload {}).laps.map (fun u => (u.brings, decide u.IsIdle))
        = [(true, false), (false, true), (false, true)]
      ∧ (stuckUpload {}).sending.standing = .finished (.error (.noProgress 1024))
      ∧ ∃ earlier a b, (stuckUpload {}).laps = earlier ++ [a, b] ∧ a.IsIdle
      ∧ b.IsIdle := by
  have hgave :
      (stuckUpload {}).sending.standing = .finished (.error (.noProgress 1024)) := by
    decide +kernel
  obtain ⟨-, -, -, hiff, -⟩ := paced 1024
    (⟨Encoder.start Run.uploadPlan {},
      { body := some { reads := List.replicate 3 .pending } }, {}⟩ :
      Link Scripted ScriptedTransport) (List.replicate 8 .step)
  exact ⟨by decide +kernel, hgave, ((hiff 1024).mp hgave).2⟩

end Watched

end HttpWire
