import HttpWire.Proofs.Recording
import HttpWire.Source.Feed
import HttpWire.Source.Frames
import HttpWire.Source.Memory

/-!
# Sources that keep their word

A source answers polls and reads as it likes. One that honours readiness may
keep its reader waiting, but when it has said that it is ready, the next read
gets somewhere: it brings data, the end or an error. Between the answer and
the read anything may happen to the source that can happen to it from
outside, and this must not take the word back (`Source.Primed`). What can
happen is a parameter, `acts`.

Honouring readiness is meant of the whole life of a source, in every state that
reads, polls and changes from outside lead to (`Source.Honours`). The sources in
memory, fed through a channel, and made of frames honour it, each under every
change that producers of its kind can make.
-/

namespace HttpWire

/-- The read brought data, the end or an error. -/
def ReadReport.GotSomewhere : ReadReport → Prop
  | .data n => n ≠ 0
  | .pending => False
  | .ended | .failed _ => True

namespace Source

variable {σ : Type}

/-- The states that changes from outside lead to. -/
inductive Outside (acts : (σ → σ) → Prop) (x : σ) : σ → Prop
  | same : Outside acts x x
  | act {y : σ} {f : σ → σ} : Outside acts x y → acts f → Outside acts x (f y)

variable [Source σ]

/-- The next read gets somewhere, whatever changes from outside come before it. -/
def Primed (acts : (σ → σ) → Prop) (x : σ) : Prop :=
  ∀ y, Outside acts x y → ∀ slice, slice ≠ [] → (Source.read y slice).1.GotSomewhere

/-- The states that reads, polls and changes from outside lead to. -/
inductive Reach (acts : (σ → σ) → Prop) (x : σ) : σ → Prop
  | same : Reach acts x x
  | read {y : σ} (slice : Bytes) : Reach acts x y →
      Reach acts x (Source.read y slice).2.2
  | poll {y : σ} : Reach acts x y → Reach acts x (Source.poll y).2
  | act {y : σ} {f : σ → σ} : Reach acts x y → acts f → Reach acts x (f y)

/-- Whenever the source says that it is ready, the next read gets somewhere. -/
def Honours (acts : (σ → σ) → Prop) (x : σ) : Prop :=
  ∀ y, Reach acts x y → (Source.poll y).1 = .ready → Primed acts (Source.poll y).2

variable {acts : (σ → σ) → Prop} {x y z : σ} {f : σ → σ}

omit [Source σ] in
theorem Outside.trans (h : Outside acts x y) (h' : Outside acts y z) :
    Outside acts x z := by
  induction h' with
  | same => exact h
  | act _ hf ih => exact ih.act hf

theorem Reach.trans (h : Reach acts x y) (h' : Reach acts y z) : Reach acts x z := by
  induction h' with
  | same => exact h
  | read slice _ ih => exact ih.read slice
  | poll _ ih => exact ih.poll
  | act _ hf ih => exact ih.act hf

theorem Primed.read (h : Primed acts x) {slice : Bytes} (hslice : slice ≠ []) :
    (Source.read x slice).1.GotSomewhere :=
  h x .same slice hslice

theorem Primed.act (h : Primed acts x) (hf : acts f) : Primed acts (f x) :=
  fun y hy => h y ((Outside.same.act hf).trans hy)

theorem Honours.act (h : Honours acts x) (hf : acts f) : Honours acts (f x) :=
  fun y hy => h y ((Reach.same.act hf).trans hy)

theorem Honours.poll (h : Honours acts x) (hready : (Source.poll x).1 = .ready) :
    Primed acts (Source.poll x).2 :=
  h x .same hready

theorem Honours.invariant : Source.Invariant (Honours (σ := σ) acts) where
  read _ slice h y hy := h y ((Reach.same.read slice).trans hy)
  poll _ h y hy := h y (Reach.same.poll.trans hy)

/-- It is enough that saying that it is ready leaves the source in states in which
reads get somewhere, and which no change from outside leaves. -/
theorem honours_of_holding {P : σ → Prop}
    (hpoll : ∀ x, (Source.poll x).1 = .ready → P (Source.poll x).2)
    (hact : ∀ f, acts f → ∀ x, P x → P (f x))
    (hread : ∀ x, P x → ∀ slice, slice ≠ [] → (Source.read x slice).1.GotSomewhere)
    (x : σ) :
    Honours acts x := by
  intro y _ hready z hz
  have hholding : P z := by
    induction hz with
    | same => exact hpoll y hready
    | act _ hf ih => exact hact _ hf _ ih
  exact hread z hholding

end Source

/-- The front of data is not nothing, unless there is none or no room for it. -/
theorem ReadReport.gotSomewhere_take {held slice : Bytes} (hheld : held ≠ [])
    (hslice : slice ≠ []) :
    (ReadReport.data (held.take slice.length).length).GotSomewhere := by
  have hheld := List.length_pos_iff.mpr hheld
  have hslice := List.length_pos_iff.mpr hslice
  show (held.take slice.length).length ≠ 0
  rw [List.length_take]
  omega

/-! ## The sources there are -/

theorem Memory.honours (acts : (Bytes → Bytes) → Prop) (body : Bytes) :
    Source.Honours acts body := by
  refine Source.honours_of_holding (P := fun _ => True) (fun _ _ => trivial)
    (fun _ _ _ _ => trivial) ?_ body
  intro body _ slice hslice
  show (Memory.read body slice).1.GotSomewhere
  unfold Memory.read
  split
  · trivial
  · next hbody => exact ReadReport.gotSomewhere_take (by simpa using hbody) hslice

namespace Feed

/-- What the senders of a channel can do to its receiver: they change the
channel. -/
def Produced (f : Feed → Feed) : Prop :=
  ∃ onChannel : Channel (Except IoError Bytes) → Channel (Except IoError Bytes),
    f = fun feed => { feed with channel := onChannel feed.channel }

/-- There is data at hand, or the end was seen. -/
def Holding (f : Feed) : Prop :=
  f.held ≠ [] ∨ f.ended = true

theorem holding_receive (f : Feed) (h : f.receive.1 = .ready) :
    f.receive.2.Holding := by
  fun_induction receive f with
  | case1 f rest piece heq hempty ih => exact ih h
  | case2 f rest piece heq hpiece => exact .inl (by simpa using hpiece)
  | case3 f rest e heq => cases h
  | case4 f heq => exact .inr rfl
  | case5 f heq => cases h

theorem holding_poll (f : Feed) (h : f.poll.1 = .ready) : f.poll.2.Holding := by
  unfold poll at h ⊢
  split at h
  · next hheld =>
    rw [if_pos hheld]
    simpa [Holding] using hheld
  · next hnot =>
    rw [if_neg hnot]
    exact f.holding_receive h

theorem Holding.poll_eq {f : Feed} (h : f.Holding) : f.poll = (.ready, f) := by
  unfold poll
  rw [if_pos (by simpa [Holding] using h)]

theorem honours (f : Feed) : Source.Honours Produced f := by
  refine Source.honours_of_holding (P := Holding) holding_poll ?_ ?_ f
  · rintro _ ⟨onChannel, rfl⟩ f hholding
    exact hholding
  · intro f hholding slice hslice
    show (f.read slice).1.GotSomewhere
    rw [read, hholding.poll_eq]
    simp only
    split
    · trivial
    · next hheld => exact ReadReport.gotSomewhere_take (by simpa using hheld) hslice

end Feed

namespace Frames

/-- What can happen to a body made of frames from outside: its
answers to come change. -/
def Produced (f : Frames → Frames) : Prop :=
  ∃ toCome : List BodyFrame → List BodyFrame, f = fun b =>
    { b with answers := toCome b.answers }

/-- There is data at hand, or the end was seen. -/
def Holding (b : Frames) : Prop :=
  b.held ≠ [] ∨ b.ended = true

theorem holding_pull (answers : List BodyFrame) (h : (pull answers).1 = .ready) :
    (pull answers).2.Holding := by
  fun_induction pull answers with
  | case1 | case2 => exact .inr rfl
  | case3 piece rest hempty ih => exact ih h
  | case4 piece rest hpiece => exact .inl (by simpa using hpiece)
  | case5 fields rest ih => exact ih h
  | case6 text rest => cases h
  | case7 rest => cases h

theorem holding_poll (b : Frames) (h : b.poll.1 = .ready) : b.poll.2.Holding := by
  unfold poll at h ⊢
  split at h
  · next hheld =>
    rw [if_pos hheld]
    simpa [Holding] using hheld
  · next hnot =>
    rw [if_neg hnot]
    exact holding_pull b.answers h

theorem Holding.poll_eq {b : Frames} (h : b.Holding) : b.poll = (.ready, b) := by
  unfold poll
  rw [if_pos (by simpa [Holding] using h)]

theorem honours (b : Frames) : Source.Honours Produced b := by
  refine Source.honours_of_holding (P := Holding) holding_poll ?_ ?_ b
  · rintro _ ⟨toCome, rfl⟩ b hholding
    exact hholding
  · intro b hholding slice hslice
    show (b.read slice).1.GotSomewhere
    rw [read, hholding.poll_eq]
    simp only
    split
    · trivial
    · next hheld => exact ReadReport.gotSomewhere_take (by simpa using hheld) hslice

end Frames

end HttpWire
