import HttpWire.Session.Bench

/-!
# What a body channel carries

A body channel is a string of bytes with errors between them, and where the bytes
were cut into pieces does not show at its end. `Signal` is a letter of that
string. What a receiver has not given out yet is such a string too
(`Feed.inside`): the piece at hand, and what is queued behind it.

Nothing that happens to the channel changes the string but at its two ends. A send
adds signals behind it, and a read or a question for readiness takes signals off
its front and tells exactly those (`Feed.read_spec`, `Feed.poll_spec`). That is
one law for data and errors, and it says at once that nothing is lost, that
nothing comes twice, and that every error stands where it was sent.
`Bench.Carries.step` is that law for everything that can be done with a channel on
a bench, and `Bench.signals_after` is its sum over any list of steps.

What remains is when the end and when nothing is reported. A receiver may say so
only when the string is empty, and which of the two it says depends on whether
there is a sender left. So `Bench.Carries` also counts the senders.
-/

namespace HttpWire

/-- One byte of a body, or the error by which one of its producers gave up. -/
inductive Signal
  | byte (b : UInt8)
  | failure (error : IoError)
  deriving DecidableEq, Repr

namespace Signal

/-- The signals of one item of a channel: the bytes of a piece, or
the error alone. -/
def ofItem : Except IoError Bytes → List Signal
  | .ok piece => piece.map .byte
  | .error e => [.failure e]

/-- The byte that a signal is, if it is one. -/
def byte? : Signal → Option UInt8
  | .byte b => some b
  | .failure _ => none

/-- The bytes among some signals. -/
def bytes (xs : List Signal) : Bytes :=
  xs.filterMap byte?

@[simp] theorem bytes_append (xs ys : List Signal) :
    bytes (xs ++ ys) = bytes xs ++ bytes ys :=
  List.filterMap_append

@[simp] theorem bytes_map_byte (x : Bytes) : bytes (x.map .byte) = x := by
  rw [bytes, List.filterMap_map]
  exact List.filterMap_some

end Signal

/-- The signals that an answer about readiness tells. -/
def Readiness.signals : Readiness → List Signal
  | .ready | .pending => []
  | .failed e => [.failure e]

/-- The signals that a read tells, with the slice as it came back. -/
def ReadReport.signals (slice : Bytes) : ReadReport → List Signal
  | .data n => (slice.take n).map .byte
  | .pending | .ended => []
  | .failed e => [.failure e]

/-- A read that copies what fits tells the front of what was held. -/
theorem ReadReport.signals_copyFront (held slice : Bytes) :
    (ReadReport.data (held.take slice.length).length).signals
      (copyFront (held.take slice.length) slice)
      ++ (held.drop slice.length).map .byte = held.map .byte := by
  have hle : (held.take slice.length).length ≤ slice.length := List.length_take_le _ _
  rw [signals, copyFront, List.take_of_length_le hle, List.take_left,
    ← List.map_append, List.take_append_drop]

/-! ## The receiving end -/

namespace Channel

/-- What the receiver of a channel learns of it. -/
def Gives {α : Type} (ch : Channel α) : Received α → Prop
  | .item a rest =>
    ch.items = a :: rest.items ∧ rest.senders = ch.senders ∧ rest.closed = ch.closed
  | .ended => ch.items = [] ∧ ch.closed = true
  | .pending => ch.items = [] ∧ ch.closed = false

theorem gives_receive {α : Type} {ch : Channel α} {received : Received α}
    (h : ch.receive = received) :
    ch.Gives received := by
  rw [← h, receive]
  cases hitems : ch.items with
  | cons a rest => exact ⟨hitems, rfl, rfl⟩
  | nil =>
    cases hclosed : ch.closed with
    | true => exact ⟨hitems, hclosed⟩
    | false => exact ⟨hitems, hclosed⟩

end Channel

namespace Feed

/-- What the receiver has not given out yet. -/
def inside (f : Feed) : List Signal :=
  f.held.map .byte ++ f.channel.items.flatMap Signal.ofItem

/-- When the end was seen, there is nothing any more and nothing can come. -/
def Settled (f : Feed) : Prop :=
  f.ended = true → f.held = [] ∧ f.channel.items = [] ∧ f.channel.closed = true

/-- Only items were received: the channel is as open as it was and
has as many senders. -/
def SameChannel (f f' : Feed) : Prop :=
  f'.channel.senders = f.channel.senders ∧ f'.channel.closed = f.channel.closed

/-- What an answer about readiness says of the receiver. -/
def Means (f : Feed) : Readiness → Prop
  | .ready => f.held ≠ [] ∨ f.ended = true
  | .pending => f.held = [] ∧ f.channel.items = [] ∧ f.channel.closed = false
  | .failed _ => True

theorem receive_spec (f : Feed) (hheld : f.held = []) (hended : f.ended = false) :
    f.inside = f.receive.1.signals ++ f.receive.2.inside ∧ f.receive.2.Settled
      ∧ f.SameChannel f.receive.2 ∧ f.receive.2.Means f.receive.1 := by
  have hinside :
      ∀ {f : Feed} {a : Except IoError Bytes} {items : List (Except IoError Bytes)},
      f.held = [] → f.channel.items = a :: items →
      f.inside = Signal.ofItem a ++ items.flatMap Signal.ofItem := by
    intro f a items hheld hitems
    rw [inside, hheld, hitems, List.flatMap_cons]
    rfl
  have hunsettled : ∀ {f : Feed}, f.ended = false → f.Settled := by
    intro f hopen hended
    rw [hopen] at hended
    cases hended
  fun_induction receive f with
  | case1 f rest piece hreceive hpiece ih =>
    obtain ⟨hitems, hsenders, hclosed⟩ := Channel.gives_receive hreceive
    obtain ⟨hmore, hsettled, hsame, hmeans⟩ := ih hheld hended
    refine ⟨?_, hsettled, ⟨hsame.1.trans hsenders, hsame.2.trans hclosed⟩, hmeans⟩
    rw [hinside hheld hitems, ← hmore, inside, hheld, List.isEmpty_iff.mp hpiece]
    rfl
  | case2 f rest piece hreceive hpiece =>
    obtain ⟨hitems, hsame⟩ := Channel.gives_receive hreceive
    exact ⟨hinside hheld hitems, hunsettled hended, hsame,
      .inl (by simpa using hpiece)⟩
  | case3 f rest e hreceive =>
    obtain ⟨hitems, hsame⟩ := Channel.gives_receive hreceive
    refine ⟨?_, hunsettled hended, hsame, trivial⟩
    rw [hinside hheld hitems, inside, hheld]
    rfl
  | case4 f hreceive =>
    obtain ⟨hitems, hclosed⟩ := Channel.gives_receive hreceive
    exact ⟨rfl, fun _ => ⟨hheld, hitems, hclosed⟩, ⟨rfl, rfl⟩, .inr rfl⟩
  | case5 f hreceive =>
    obtain ⟨hitems, hopen⟩ := Channel.gives_receive hreceive
    exact ⟨rfl, hunsettled hended, ⟨rfl, rfl⟩, hheld, hitems, hopen⟩

/-- Asking for readiness takes nothing off the string but the error
that it answers. -/
theorem poll_spec (f : Feed) (h : f.Settled) :
    f.inside = f.poll.1.signals ++ f.poll.2.inside ∧ f.poll.2.Settled
      ∧ f.SameChannel f.poll.2 ∧ f.poll.2.Means f.poll.1 := by
  unfold poll
  split
  · next hready => exact ⟨rfl, h, ⟨rfl, rfl⟩, by simpa [Means] using hready⟩
  · next hnot =>
    simp only [Bool.or_eq_true, not_or, Bool.not_eq_true, Bool.not_eq_false',
      List.isEmpty_iff] at hnot
    exact f.receive_spec hnot.1 hnot.2

/-- What a report says of a receiver after a read of a slice. -/
def Tells (f : Feed) (slice : Bytes) : ReadReport → Prop
  | .data n => n ≤ slice.length ∧ (n = 0 ↔ slice = [])
  | .ended => f.ended = true
  | .pending => f.held = [] ∧ f.channel.items = [] ∧ f.channel.closed = false
  | .failed _ => True

theorem read_spec (f : Feed) (slice : Bytes) (h : f.Settled) :
    f.inside = (f.read slice).1.signals (f.read slice).2.1 ++ (f.read slice).2.2.inside
      ∧ (f.read slice).2.2.Settled ∧ f.SameChannel (f.read slice).2.2
      ∧ (f.read slice).2.2.Tells slice (f.read slice).1 := by
  obtain ⟨hinside, hsettled, hsame, hmeans⟩ := f.poll_spec h
  unfold read
  rcases hpoll : f.poll with ⟨_ | _ | e, f'⟩ <;>
    rw [hpoll] at hinside hsettled hsame hmeans
  · simp only
    split
    · next hheld =>
      refine ⟨hinside, hsettled, hsame, ?_⟩
      exact hmeans.resolve_left (fun hne => hne (List.isEmpty_iff.mp hheld))
    · next hheld =>
      have hne : f'.held ≠ [] := by simpa using hheld
      refine ⟨?_, fun hended => absurd (hsettled hended).1 hne, hsame, ?_, ?_⟩
      · rw [hinside, inside, ← ReadReport.signals_copyFront f'.held slice,
          List.append_assoc]
        rfl
      · exact List.length_take_le _ _
      · rw [List.length_eq_zero_iff, List.take_eq_nil_iff, List.length_eq_zero_iff]
        exact ⟨fun hor => hor.resolve_right hne, .inl⟩
  · exact ⟨hinside, hsettled, hsame, hmeans⟩
  · exact ⟨hinside, hsettled, hsame, trivial⟩

end Feed

/-! ## A channel on a bench -/

namespace Bench

/-- The bench after a list of steps. -/
def after (b : Bench) (steps : List BenchStep) : Bench :=
  steps.foldl (fun b step => (b.step step).2) b

/-- The steps, each with what came of it. -/
def history (b : Bench) (steps : List BenchStep) : List (BenchStep × BenchAnswer) :=
  steps.zip (b.answers steps)

/-- The signals that a step sent with success. -/
def sent : BenchStep × BenchAnswer → List Signal
  | (.produce (.body _ (.send data)), .produced .ok) => Signal.ofItem (.ok data)
  | (.produce (.body _ (.abort error)), .produced .ok) => Signal.ofItem (.error error)
  | _ => []

/-- The signals that a step got out of the body. -/
def got : BenchStep × BenchAnswer → List Signal
  | (_, .read report buffer) => report.signals buffer
  | (_, .polled readiness) => readiness.signals
  | _ => []

/-- Some producer can still send to the body. -/
def HasSender (b : Bench) : Prop :=
  ∃ i, (b.producers.bodySender? i).isSome

/-- The body on the bench is fed through a channel, `f` is its receiving end, and
the channel knows how many of its senders are left. -/
structure Carries (b : Bench) (f : Feed) : Prop where
  body : b.body = some (.feed 0 f)
  settled : f.Settled
  senders : f.channel.senders = b.producers.bodySenders.countP Option.isSome
  closed : f.channel.closed = true ↔ b.producers.bodySenders.countP Option.isSome = 0
  own : ∀ n, some n ∈ b.producers.bodySenders → n = 0
  chunkless : b.producers.chunkSenders = []

section Senders

variable {b : Bench} {f : Feed} {i : Nat}

theorem countP_pos_of_sender (hi : (b.producers.bodySender? i).isSome) :
    0 < b.producers.bodySenders.countP Option.isSome := by
  rw [Producers.bodySender?] at hi
  cases hget : b.producers.bodySenders[i]? with
  | none => simp [hget] at hi
  | some sender =>
    rw [hget] at hi
    exact List.countP_pos_iff.mpr ⟨sender, List.mem_of_getElem? hget, hi⟩

theorem Carries.open_iff (h : b.Carries f) :
    f.channel.closed = false ↔ b.HasSender := by
  rw [← Bool.not_eq_true, h.closed]
  constructor
  · intro hsome
    obtain ⟨sender, hmem, hthere⟩ := List.countP_pos_iff.mp (Nat.pos_of_ne_zero hsome)
    obtain ⟨i, hi⟩ := List.mem_iff_getElem?.mp hmem
    exact ⟨i, by rw [Producers.bodySender?, hi]; exact hthere⟩
  · rintro ⟨i, hi⟩
    exact Nat.ne_of_gt (countP_pos_of_sender hi)

/-- A channel with a sender is open, and its receiver has not seen an end. -/
theorem Carries.open_of_sender (h : b.Carries f)
    (hi : (b.producers.bodySender? i).isSome) :
    f.channel.closed = false ∧ f.ended = false := by
  have hopen := h.open_iff.mpr ⟨i, hi⟩
  refine ⟨hopen, ?_⟩
  cases hended : f.ended with
  | false => rfl
  | true => exact absurd ((h.settled hended).2.2.symm.trans hopen) (by decide)

/-- After an act of a sender the channel is what the senders that
are left make of it. -/
theorem carries_acted {p : Producers} {channel : Channel (Except IoError Bytes)}
    (hended : f.ended = false)
    (hsenders : channel.senders = p.bodySenders.countP Option.isSome)
    (hclosed : channel.closed = true ↔ p.bodySenders.countP Option.isSome = 0)
    (hown : ∀ n, some n ∈ p.bodySenders → n = 0) (hchunkless : p.chunkSenders = []) :
    Carries ⟨some (.feed 0 { f with channel := channel }), p⟩
      { f with channel := channel } where
  body := rfl
  settled h := by
    rw [show f.ended = true from h] at hended
    cases hended
  senders := hsenders
  closed := hclosed
  own := hown
  chunkless := hchunkless

/-- Dropping a sender that is there leaves the others, and closes the
channel behind the last one. -/
theorem Carries.drop (h : b.Carries f) (hi : b.producers.bodySender? i = some 0)
    {channel : Channel (Except IoError Bytes)}
    (hsenders : channel.senders = f.channel.senders) (hopen : channel.closed = false) :
    Carries ⟨some (.feed 0 { f with channel := channel.dropSender }),
      { b.producers with bodySenders := b.producers.bodySenders.set i none }⟩
      { f with channel := channel.dropSender } := by
  have hsome : (b.producers.bodySender? i).isSome := by rw [hi]; rfl
  have hget : b.producers.bodySenders[i]? = some (some 0) := by
    rw [Producers.bodySender?, Option.join_eq_some_iff] at hi
    exact hi
  obtain ⟨hlt, hat⟩ := List.getElem?_eq_some_iff.mp hget
  have hleft : (b.producers.bodySenders.set i none).countP Option.isSome
      = b.producers.bodySenders.countP Option.isSome - 1 := by
    rw [List.countP_set hlt, hat]
    rfl
  have hpos := countP_pos_of_sender hsome
  refine carries_acted (h.open_of_sender hsome).2 ?_ ?_ ?_ h.chunkless
  · simp only [Channel.dropSender, hsenders, h.senders, hleft]
  · simp only [Channel.dropSender, hopen, Bool.false_or, decide_eq_true_eq, hsenders,
      h.senders, hleft]
    omega
  · intro n hn
    rcases List.mem_or_eq_of_mem_set hn with hn | hn
    · exact h.own n hn
    · cases hn

theorem Carries.act (h : b.Carries f) (hi : b.producers.bodySender? i = some 0)
    (act : BodyAct) :
    ∃ f', (b.step (.produce (.body i act))).2.Carries f' ∧ f'.held = f.held
      ∧ f.inside ++ sent (.produce (.body i act), (b.step (.produce (.body i act))).1)
        = f'.inside := by
  obtain ⟨body, p⟩ := b
  obtain ⟨rfl, -, hsenders, hclosed, hown, hchunkless⟩ := id h
  have hsome : (p.bodySender? i).isSome := by
    rw [show p.bodySender? i = some 0 from hi]; rfl
  obtain ⟨hopen, hended⟩ := h.open_of_sender hsome
  have hitems : ∀ item : Except IoError Bytes, f.inside ++ Signal.ofItem item
      = f.held.map .byte ++ (f.channel.items ++ [item]).flatMap Signal.ofItem := by
    intro item
    rw [Feed.inside, List.flatMap_append, List.flatMap_singleton, List.append_assoc]
  have hsend :
      ∀ item : Except IoError Bytes, Producers.sendOn? ⟨some (.feed 0 f), none⟩ 0 item
      = some ⟨some (.feed 0
          { f with channel := { f.channel with items := f.channel.items ++ [item] } }),
          none⟩ := by
    intro item
    simp [Producers.sendOn?, Producers.feedOf?, Channel.send?, hopen]
  have hact : (Bench.step ⟨some (.feed 0 f), p⟩ (.produce (.body i act)))
      = (.produced (p.actBody ⟨some (.feed 0 f), none⟩ i 0 act).1,
        ⟨(p.actBody ⟨some (.feed 0 f), none⟩ i 0 act).2.2.body,
          (p.actBody ⟨some (.feed 0 f), none⟩ i 0 act).2.1⟩) := by
    simp only [Bench.step, Producers.act, show p.bodySender? i = some 0 from hi]
  rw [hact]
  cases act with
  | send data =>
    simp only [Producers.actBody, hsend]
    exact ⟨_, carries_acted hended hsenders hclosed hown hchunkless, rfl,
      hitems (.ok data)⟩
  | abort error =>
    simp only [Producers.actBody, hsend, Option.getD_some]
    exact ⟨_, h.drop hi rfl hopen, rfl, hitems (.error error)⟩
  | drop => exact ⟨_, h.drop hi rfl hopen, rfl, List.append_nil _⟩
  | clone =>
    refine ⟨_, carries_acted hended ?_ ?_ ?_ hchunkless, rfl, List.append_nil _⟩
    · simp [Channel.cloneSender, Producers.actBody, hsenders]
    · simp [Channel.cloneSender, Producers.actBody, hopen]
    · intro n hn
      rcases List.mem_append.mp hn with hn | hn
      · exact hown n hn
      · simpa using hn

end Senders

variable {b : Bench} {f : Feed}

theorem Carries.body_step (h : b.Carries f) :
    (∀ size, b.step (.read size)
      = (.read (f.read (List.replicate size blank)).1
        (f.read (List.replicate size blank)).2.1,
        { b with body := some (.feed 0 (f.read (List.replicate size blank)).2.2) }))
      ∧ b.step .poll
        = (.polled f.poll.1, { b with body := some (.feed 0 f.poll.2) }) := by
  constructor
  · intro size
    simp only [Bench.step, h.body]
    rfl
  · simp only [Bench.step, h.body]
    rfl

/-- A sender that is not there does nothing. -/
theorem Carries.step_of_noSender (h : b.Carries f) {i : Nat} {act : BodyAct}
    (hi : b.producers.bodySender? i = none) :
    b.step (.produce (.body i act)) = (.produced .noSender, b) := by
  obtain ⟨body, p⟩ := b
  simp only [Bench.step, Producers.act, show p.bodySender? i = none from hi]

theorem Carries.step_of_chunk (h : b.Carries f) (i : Nat) (act : ChunkAct) :
    b.step (.produce (.chunk i act)) = (.produced .noSender, b) := by
  obtain ⟨body, p⟩ := b
  have hnone : p.hasChunkSender i = false := by
    rw [Producers.hasChunkSender, show p.chunkSenders = [] from h.chunkless]
    rfl
  simp only [Bench.step, Producers.act, hnone, Bool.false_eq_true, if_false]

theorem Carries.received (h : b.Carries f) {f' : Feed} (hsettled : f'.Settled)
    (hsame : f.SameChannel f') :
    Carries { b with body := some (.feed 0 f') } f' where
  body := rfl
  settled := hsettled
  senders := hsame.1.trans h.senders
  closed := hsame.2 ▸ h.closed
  own := h.own
  chunkless := h.chunkless

/-- Every step adds behind what is in the channel what it sent, and takes off
its front what it tells. -/
theorem Carries.step (h : b.Carries f) {step : BenchStep} (hkept : step ≠ .drop) :
    ∃ f', (b.step step).2.Carries f'
      ∧ f.inside ++ sent (step, (b.step step).1)
        = got (step, (b.step step).1) ++ f'.inside := by
  cases step with
  | produce producer =>
    cases producer with
    | body i act =>
      cases hi : b.producers.bodySender? i with
      | none =>
        rw [h.step_of_noSender hi]
        exact ⟨f, h, by cases act <;> exact List.append_nil _⟩
      | some channel =>
        have hmem : some channel ∈ b.producers.bodySenders := by
          rw [Producers.bodySender?, Option.join_eq_some_iff] at hi
          exact List.mem_of_getElem? hi
        rw [h.own channel hmem] at hi
        obtain ⟨f', hcarries, -, hinside⟩ := h.act hi act
        refine ⟨f', hcarries, hinside.trans ?_⟩
        rfl
    | chunk i act =>
      rw [h.step_of_chunk i act]
      exact ⟨f, h, List.append_nil _⟩
  | read size =>
    obtain ⟨hinside, hsettled, hsame, -⟩ :=
      f.read_spec (List.replicate size blank) h.settled
    rw [h.body_step.1]
    exact ⟨_, h.received hsettled hsame, (List.append_nil _).trans hinside⟩
  | poll =>
    obtain ⟨hinside, hsettled, hsame, -⟩ := f.poll_spec h.settled
    rw [h.body_step.2]
    exact ⟨_, h.received hsettled hsame, (List.append_nil _).trans hinside⟩
  | drop => exact absurd rfl hkept

theorem Carries.after (h : b.Carries f) {steps : List BenchStep}
    (hkept : .drop ∉ steps) :
    ∃ f', (b.after steps).Carries f'
      ∧ f.inside ++ (b.history steps).flatMap sent
        = (b.history steps).flatMap got ++ f'.inside := by
  induction steps generalizing b f with
  | nil => exact ⟨f, h, List.append_nil _⟩
  | cons step more ih =>
    obtain ⟨f', hcarries, hinside⟩ := h.step (List.ne_of_not_mem_cons hkept).symm
    obtain ⟨f'', hafter, hrest⟩ := ih hcarries (List.not_mem_of_not_mem_cons hkept)
    refine ⟨f'', hafter, ?_⟩
    show f.inside
      ++ (sent (step, (b.step step).1) ++ ((b.step step).2.history more).flatMap sent)
      = got (step, (b.step step).1) ++ ((b.step step).2.history more).flatMap got
        ++ f''.inside
    rw [← List.append_assoc, hinside, List.append_assoc, hrest, List.append_assoc]

/-- A read tells the end of the body and a poll that it is ready, as they do
when the end was seen. -/
def AtEnd (x : BenchStep × BenchAnswer) : Prop :=
  (∀ report buffer, x.2 = .read report buffer → report = .ended)
    ∧ ∀ readiness, x.2 = .polled readiness → readiness = .ready

/-- Once the end was seen nothing changes any more, since there is no
sender left to change it. -/
theorem Carries.step_of_ended (h : b.Carries f) (hended : f.ended = true)
    {step : BenchStep} (hkept : step ≠ .drop) :
    (b.step step).2.Carries f ∧ AtEnd (step, (b.step step).1) := by
  obtain ⟨hheld, -, hclosed⟩ := h.settled hended
  have hpoll : f.poll = (.ready, f) := by
    rw [Feed.poll, if_pos (by simp [hended])]
  have hread : ∀ slice, f.read slice = (.ended, slice, f) := by
    intro slice
    rw [Feed.read, hpoll]
    simp only
    rw [if_pos (List.isEmpty_iff.mpr hheld)]
  have hquiet : ∀ {answer : ProducerAnswer}, AtEnd (step, .produced answer) := by
    intro answer
    exact ⟨fun report buffer heq => by simp at heq,
      fun readiness heq => by simp at heq⟩
  cases step with
  | produce producer =>
    cases producer with
    | body i act =>
      have hi : b.producers.bodySender? i = none := by
        rw [← Option.not_isSome_iff_eq_none]
        intro hsome
        rw [h.open_iff.mpr ⟨i, hsome⟩] at hclosed
        cases hclosed
      rw [h.step_of_noSender hi]
      exact ⟨h, hquiet⟩
    | chunk i act =>
      rw [h.step_of_chunk i act]
      exact ⟨h, hquiet⟩
  | read size =>
    rw [h.body_step.1, hread]
    exact ⟨h.received h.settled ⟨rfl, rfl⟩, by simp [AtEnd]⟩
  | poll =>
    rw [h.body_step.2, hpoll]
    exact ⟨h.received h.settled ⟨rfl, rfl⟩, by simp [AtEnd]⟩
  | drop => exact absurd rfl hkept

theorem Carries.atEnd_of_ended (h : b.Carries f) (hended : f.ended = true)
    {more : List BenchStep} (hkept : .drop ∉ more) :
    ∀ x ∈ b.history more, AtEnd x := by
  induction more generalizing b with
  | nil =>
    intro x hx
    cases hx
  | cons step more ih =>
    obtain ⟨hcarries, hfirst⟩ :=
      h.step_of_ended hended (List.ne_of_not_mem_cons hkept).symm
    intro x hx
    rcases List.mem_cons.mp hx with rfl | hx
    · exact hfirst
    · exact ih hcarries (List.not_mem_of_not_mem_cons hkept) x hx

theorem carries_start : (start (some .channel)).Carries {} where
  body := rfl
  settled h := by cases h
  senders := rfl
  closed := by decide
  own n hn := by simpa [start, Producers.makeBody] using hn
  chunkless := rfl

/-- Whatever the senders of a body channel and its receiver do, in any order: what
was sent is what was told and, behind it, what is still inside, data and errors
alike. The end is told only when everything was told and no sender is left, and
from then on for good; that there is nothing yet is told only when nothing is
inside and some sender is left. -/
theorem signals_after (steps : List BenchStep) (hkept : .drop ∉ steps) :
    let b := (start (some .channel)).after steps
    let history := (start (some .channel)).history steps
    ∃ f : Feed, b.body = some (.feed 0 f)
      ∧ history.flatMap sent = history.flatMap got ++ f.inside
      ∧ Signal.bytes (history.flatMap sent)
        = Signal.bytes (history.flatMap got) ++ f.held
        ++ Signal.bytes (f.channel.items.flatMap Signal.ofItem)
      ∧ (∀ size report buffer, (b.step (.read size)).1 = .read report buffer →
        (report = .ended → ¬ b.HasSender ∧ history.flatMap got = history.flatMap sent
          ∧ ∀ more, .drop ∉ more → ∀ x ∈ (b.step (.read size)).2.history more, AtEnd x)
        ∧ (report = .pending → b.HasSender ∧ f.inside = [])
        ∧ ∀ n, report = .data n → n ≤ size ∧ (n = 0 ↔ size = 0))
      ∧ ((b.step .poll).1 = .polled .pending → b.HasSender ∧ f.inside = []) := by
  intro b history
  obtain ⟨f, hcarries, hsignals⟩ := carries_start.after hkept
  refine ⟨f, hcarries.body, hsignals, ?_, ?_, ?_⟩
  · rw [show history.flatMap sent = _ from hsignals, Feed.inside]
    simp only [Signal.bytes_append, Signal.bytes_map_byte, List.append_assoc]
    rfl
  · intro size report buffer hanswer
    obtain ⟨hinside, hsettled, hsame, htells⟩ :=
      f.read_spec (List.replicate size blank) hcarries.settled
    rw [hcarries.body_step.1] at hanswer ⊢
    simp only [BenchAnswer.read.injEq] at hanswer
    rw [hanswer.1] at hinside htells
    refine ⟨?_, ?_, ?_⟩
    · rintro rfl
      obtain ⟨hheld, hitems, hclosed⟩ := hsettled htells
      have hempty : f.inside = [] := by
        rw [hinside, Feed.inside, hheld, hitems]
        rfl
      refine ⟨fun hsender => ?_, ?_, ?_⟩
      · rw [hsame.2, hcarries.open_iff.mpr hsender] at hclosed
        cases hclosed
      · rw [show history.flatMap sent = _ from hsignals, hempty, List.append_nil]
      · intro more hmore
        exact (hcarries.received hsettled hsame).atEnd_of_ended htells hmore
    · rintro rfl
      obtain ⟨hheld, hitems, hstill⟩ := htells
      refine ⟨hcarries.open_iff.mp (hsame.2 ▸ hstill), ?_⟩
      rw [hinside, Feed.inside, hheld, hitems]
      rfl
    · rintro n rfl
      obtain ⟨hle, hzero⟩ := htells
      rw [List.length_replicate] at hle
      rw [List.replicate_eq_nil_iff] at hzero
      exact ⟨hle, hzero⟩
  · intro hanswer
    obtain ⟨hinside, -, hsame, hmeans⟩ := f.poll_spec hcarries.settled
    rw [hcarries.body_step.2] at hanswer
    simp only [BenchAnswer.polled.injEq] at hanswer
    rw [hanswer] at hinside hmeans
    obtain ⟨hheld, hitems, hstill⟩ := hmeans
    refine ⟨hcarries.open_iff.mp (hsame.2 ▸ hstill), ?_⟩
    rw [hinside, Feed.inside, hheld, hitems]
    rfl

/-- Two senders, one of which gives up, and a receiver that reads
and asks in between. -/
def twoSenders : List BenchStep :=
  [.produce (.body 0 .clone), .produce (.body 0 (.send (Bytes.ofString "hey"))),
    .read 2, .read 0, .poll, .produce (.body 1 (.abort ⟨.timedOut, none⟩)),
    .produce (.body 0 (.send [])), .produce (.body 0 (.send (Bytes.ofString "you"))),
    .read 8, .poll, .produce (.body 0 .drop), .read 2]

theorem signals_twoSenders :
    .drop ∉ twoSenders
      ∧ ((start (some .channel)).history twoSenders).flatMap got
        = (Bytes.ofString "hey").map .byte ++ [.failure ⟨.timedOut, none⟩]
          ++ (Bytes.ofString "yo").map .byte
      ∧ ∃ f : Feed, ((start (some .channel)).after twoSenders).body = some (.feed 0 f)
        ∧ f.inside = (Bytes.ofString "u").map .byte := by
  have hkept : .drop ∉ twoSenders := by decide
  have hgot : ((start (some .channel)).history twoSenders).flatMap got
      = (Bytes.ofString "hey").map .byte ++ [.failure ⟨.timedOut, none⟩]
        ++ (Bytes.ofString "yo").map .byte := by
    decide +kernel
  have hsent : ((start (some .channel)).history twoSenders).flatMap sent
      = (Bytes.ofString "hey").map .byte ++ [.failure ⟨.timedOut, none⟩]
        ++ (Bytes.ofString "you").map .byte := by
    decide +kernel
  obtain ⟨f, hbody, hsignals, -⟩ := signals_after twoSenders hkept
  rw [hsent, hgot] at hsignals
  refine ⟨hkept, hgot, f, hbody, List.append_cancel_left (hsignals.symm.trans ?_)⟩
  rfl

end Bench

end HttpWire
