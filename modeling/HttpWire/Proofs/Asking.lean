import HttpWire.Proofs.Feeding
import HttpWire.Proofs.Promises
import HttpWire.Proofs.Queueing

/-!
# Asking does not show

A question for readiness is answered by looking, and looking is fetching: a
receiver that is asked takes the next piece off its channel and holds it, a queue
that is asked holds its next chunk, and both take note of an end that they find.
None of it shows. If all questions are left out of a run, and none of them was
answered with an error, every other answer of the run stays as it was
(`Encoder.answers_without_polls`).

What was fetched is where the next read or taking finds it, and it is found there
just as it would have been on the channel. So two receivers are the same to the
encoder if asking them now would come to the same, `Feed.Same`, and two queues
likewise. A read or a taking begins by asking; that leaves producers, who work
behind the channel and meet what is fetched from its front only at its end
(`Channel.FromBehind`).

Of a source that is not known it has to be asked for: nothing that reads tell is
changed by a question, in any state of the source (`Source.PollsQuietly`).
-/

namespace HttpWire

/-! ## Producers and what was fetched -/

namespace Channel

variable {α : Type}

/-- A change at the end of a channel. What was to be received is still received,
and a channel that has ended has ended. -/
structure FromBehind (g : Channel α → Channel α) : Prop where
  item : ∀ ch a rest, ch.receive = .item a rest → (g ch).receive = .item a (g rest)
  ended : ∀ ch, ch.receive = .ended → (g ch).receive = .ended

theorem fromBehind_send (a : α) :
    FromBehind (fun ch : Channel α => (ch.send? a).getD ch) where
  item ch b rest h := by
    obtain ⟨items, senders, closed⟩ := ch
    cases items with
    | nil => cases closed <;> cases h
    | cons c items => cases closed <;> cases h <;> rfl
  ended ch h := by
    obtain ⟨items, senders, closed⟩ := ch
    cases items with
    | nil => cases closed <;> cases h; rfl
    | cons c items => cases h

/-- Nothing is sent, and a closed channel stays closed. -/
theorem fromBehind_of_items {g : Channel α → Channel α} (senders : Nat → Nat)
    (closed : Nat → Bool → Bool)
    (hg : ∀ ch, g ch = ⟨ch.items, senders ch.senders, closed ch.senders ch.closed⟩)
    (hclosed : ∀ n, closed n true = true) : FromBehind g where
  item ch a rest h := by
    obtain ⟨items, n, c⟩ := ch
    cases items with
    | nil => cases c <;> cases h
    | cons b items =>
      cases h
      rw [hg, hg]
      rfl
  ended ch h := by
    obtain ⟨items, n, c⟩ := ch
    cases items with
    | nil =>
      cases c with
      | false => cases h
      | true =>
        rw [hg, receive]
        simp only [hclosed, if_true]
    | cons b items => cases h

theorem fromBehind_close : FromBehind (close : Channel α → Channel α) :=
  fromBehind_of_items (fun n => n) (fun _ _ => true) (fun _ => rfl) (fun _ => rfl)

theorem fromBehind_dropSender : FromBehind (dropSender : Channel α → Channel α) :=
  fromBehind_of_items (fun n => n - 1) (fun n c => c || n ≤ 1) (fun _ => rfl)
    (fun _ => rfl)

theorem fromBehind_cloneSender : FromBehind (cloneSender : Channel α → Channel α) :=
  fromBehind_of_items (fun n => n + 1) (fun _ c => c) (fun _ => rfl) (fun _ => rfl)

theorem fromBehind_id : FromBehind (fun ch : Channel α => ch) where
  item _ _ _ h := h
  ended _ h := h

theorem FromBehind.comp {g g' : Channel α → Channel α} (h' : FromBehind g')
    (h : FromBehind g) :
    FromBehind (fun ch => g' (g ch)) where
  item ch a rest hch := h'.item _ a _ (h.item ch a rest hch)
  ended ch hch := h'.ended _ (h.ended ch hch)

end Channel

/-! ### Bodies that are fed -/

/-- What a sender of a body does to the channel. -/
def BodyAct.onChannel :
    BodyAct → Channel (Except IoError Bytes) → Channel (Except IoError Bytes)
  | .send data, ch => (ch.send? (.ok data)).getD ch
  | .abort error, ch => ((ch.send? (.error error)).getD ch).dropSender
  | .drop, ch => ch.dropSender
  | .clone, ch => ch.cloneSender

theorem BodyAct.fromBehind (act : BodyAct) : Channel.FromBehind act.onChannel := by
  cases act with
  | send data => exact Channel.fromBehind_send _
  | abort error => exact Channel.fromBehind_dropSender.comp (Channel.fromBehind_send _)
  | drop => exact Channel.fromBehind_dropSender
  | clone => exact Channel.fromBehind_cloneSender

namespace Feed

/-- What a sender does, and what it is answered. -/
def produce (act : BodyAct) (f : Feed) : ProducerAnswer × Feed :=
  (match act with
    | .send _ => if f.channel.closed then .failed .bodyGone else .ok
    | .abort _ | .drop | .clone => .ok,
    { f with channel := act.onChannel f.channel })

/-- Asking these receivers would come to the same. -/
def Same (f f' : Feed) : Prop :=
  f.poll = f'.poll

theorem receive_eq (f : Feed) :
    f.receive = match f.channel.receive with
      | .item (.ok piece) rest =>
        if piece.isEmpty then receive { f with channel := rest }
        else (.ready, { f with channel := rest, held := piece })
      | .item (.error e) rest => (.failed e, { f with channel := rest })
      | .ended => (.ready, { f with ended := true })
      | .pending => (.pending, f) := by
  rw [receive]
  split <;> next h => rw [h]

variable {g : Channel (Except IoError Bytes) → Channel (Except IoError Bytes)}

/-- What a change behind the channel means for receiving: it is received as it
was, unless there was nothing. -/
theorem receive_fromBehind (hg : Channel.FromBehind g) (f : Feed) :
    receive { f with channel := g f.channel } =
      match f.receive with
      | (.pending, f') => receive { f' with channel := g f'.channel }
      | (answer, f') => (answer, { f' with channel := g f'.channel }) := by
  fun_induction receive f with
  | case1 f rest piece hreceive hpiece ih =>
    -- an empty piece is passed over on both sides
    rw [receive_eq]
    simp only [hg.item _ _ _ hreceive, if_pos hpiece]
    exact ih
  | case2 f rest piece hreceive hpiece =>
    rw [receive_eq]
    simp only [hg.item _ _ _ hreceive, if_neg hpiece]
  | case3 f rest e hreceive =>
    rw [receive_eq]
    simp only [hg.item _ _ _ hreceive]
  | case4 f hreceive =>
    rw [receive_eq]
    simp only [hg.ended _ hreceive]
  | case5 f hreceive => rfl

theorem poll_fromBehind (hg : Channel.FromBehind g) (f : Feed) :
    poll { f with channel := g f.channel } =
      match f.poll with
      | (.pending, f') => poll { f' with channel := g f'.channel }
      | (answer, f') => (answer, { f' with channel := g f'.channel }) := by
  by_cases hready : (!f.held.isEmpty || f.ended) = true
  · have hpoll : f.poll = (.ready, f) := if_pos hready
    rw [hpoll]
    exact if_pos hready
  · have hpoll : f.poll = f.receive := if_neg hready
    have hchanged : poll { f with channel := g f.channel }
        = receive { f with channel := g f.channel } :=
      if_neg hready
    have hpending := @receive_of_pending f
    rw [hchanged, hpoll, receive_fromBehind hg]
    rcases hreceive : f.receive with ⟨_ | _ | e, f'⟩
    · rfl
    · obtain ⟨-, hheld, hended⟩ := hpending (by rw [hreceive])
      rw [hreceive] at hheld hended
      simp only at hheld hended ⊢
      rw [poll]
      simp only [hheld, hended, if_neg hready]
    · rfl

theorem poll_poll {f : Feed} (h : ∀ e, f.poll.1 ≠ .failed e) :
    f.poll.2.poll = f.poll := by
  rcases hpoll : f.poll with ⟨_ | _ | e, f'⟩
  · have hholding := f.holding_poll (by rw [hpoll])
    rw [hpoll] at hholding
    exact hholding.poll_eq
  · have hagain := @poll_of_pending f (by rw [hpoll])
    rwa [hpoll] at hagain
  · exact absurd (congrArg Prod.fst hpoll) (h e)

theorem closed_poll (f : Feed) : f.poll.2.channel.closed = f.channel.closed := by
  unfold poll
  split
  · rfl
  · next hnot =>
    simp only [Bool.or_eq_true, not_or, Bool.not_eq_true, Bool.not_eq_false',
      List.isEmpty_iff] at hnot
    exact (f.receive_spec hnot.1 hnot.2).2.2.1.2

theorem Same.read_eq {f f' : Feed} (h : f.Same f') (slice : Bytes) :
    f.read slice = f'.read slice := by
  rw [read, read, h]

theorem Same.produce {f f' : Feed} (h : f.Same f') (act : BodyAct) :
    (f'.produce act).1 = (f.produce act).1
      ∧ (f.produce act).2.Same (f'.produce act).2 := by
  have hclosed : f'.channel.closed = f.channel.closed := by
    rw [← f'.closed_poll, ← h, f.closed_poll]
  refine ⟨by simp only [Feed.produce, hclosed], ?_⟩
  show poll { f with channel := act.onChannel f.channel }
    = poll { f' with channel := act.onChannel f'.channel }
  rw [poll_fromBehind act.fromBehind, poll_fromBehind act.fromBehind, h]

end Feed

/-- A producer of a session does to the body that it feeds what is described
here. -/
theorem Producers.feed_actBody (p : Producers) (f : Feed) (queue : Option ChunkQueue)
    (i channel : Nat) (act : BodyAct) :
    (p.actBody ⟨some (.feed channel f), queue⟩ i channel act).2.2
        = ⟨some (.feed channel (f.produce act).2), queue⟩
      ∧ (act ≠ .clone →
        (p.actBody ⟨some (.feed channel f), queue⟩ i channel act).1
          = (f.produce act).1) := by
  have hfeed : feedOf? ⟨some (.feed channel f), queue⟩ channel = some f := if_pos rfl
  cases act with
  | send data =>
    simp only [actBody, sendOn?, hfeed, Feed.produce, BodyAct.onChannel, Channel.send?]
    cases f.channel.closed <;> exact ⟨rfl, fun _ => rfl⟩
  | abort error =>
    simp only [actBody, dropBodySender, onChannel, sendOn?, hfeed, Feed.produce,
      BodyAct.onChannel, Channel.send?]
    cases f.channel.closed
    · simp [feedOf?]
    · simp [feedOf?]
  | drop =>
    simp [actBody, dropBodySender, onChannel, hfeed, Feed.produce, BodyAct.onChannel]
  | clone => simp [actBody, onChannel, hfeed, Feed.produce, BodyAct.onChannel]

/-! ### Queues -/

/-- What a sender of chunks does to the channel. -/
def ChunkAct.onChannel : ChunkAct → Channel Chunk → Channel Chunk
  | .send data additions, ch =>
    match Chunk.build data additions with
    | .error _ => ch
    | .ok c => (ch.send? c).getD ch
  | .close, ch => ch.close
  | .drop, ch => ch.dropSender
  | .clone, ch => ch.cloneSender

theorem ChunkAct.fromBehind (act : ChunkAct) : Channel.FromBehind act.onChannel := by
  cases act with
  | send data additions =>
    cases hbuild : Chunk.build data additions with
    | error cause =>
      have hact : onChannel (.send data additions) = fun ch => ch := by
        funext ch
        simp only [onChannel, hbuild]
      exact hact ▸ Channel.fromBehind_id
    | ok c =>
      have hact : onChannel (.send data additions) = fun ch =>
          (ch.send? c).getD ch := by
        funext ch
        simp only [onChannel, hbuild]
      exact hact ▸ Channel.fromBehind_send c
  | close => exact Channel.fromBehind_close
  | drop => exact Channel.fromBehind_dropSender
  | clone => exact Channel.fromBehind_cloneSender

namespace ChunkQueue

/-- What a sender of chunks is answered. -/
def answer (act : ChunkAct) (q : ChunkQueue) : ProducerAnswer :=
  match act with
  | .send data additions =>
    match Chunk.build data additions with
    | .error cause => .rejected cause
    | .ok _ => if q.channel.closed then .failed .queueClosed else .ok
  | .close | .drop | .clone => .ok

/-- Asking these queues would come to the same. -/
def Same (q q' : ChunkQueue) : Prop :=
  q.poll = q'.poll

theorem produce_eq (q : ChunkQueue) (act : ChunkAct) :
    (q.produce act).1 = { q with channel := act.onChannel q.channel } := by
  cases act with
  | send data additions =>
    simp only [produce, ChunkAct.onChannel, Channel.send?]
    cases Chunk.build data additions with
    | error cause => rfl
    | ok c => cases q.channel.closed <;> rfl
  | close | drop | clone => rfl

theorem poll_fromBehind {g : Channel Chunk → Channel Chunk}
    (hg : Channel.FromBehind g) {q : ChunkQueue} (h : (q.poll).1 = true) :
    poll { q with channel := g q.channel }
      = (true, { (q.poll).2 with channel := g (q.poll).2.channel }) := by
  unfold poll at h ⊢
  split
  · rfl
  · next hnot =>
    rw [if_neg hnot] at h
    cases hreceive : q.channel.receive with
    | item c rest => simp only [hg.item _ _ _ hreceive]
    | ended => simp only [hg.ended _ hreceive]
    | pending =>
      rw [hreceive] at h
      cases h

theorem poll_poll (q : ChunkQueue) : (q.poll).2.poll = q.poll := by
  rcases hpoll : q.poll with ⟨_ | _, q'⟩
  · have hpending := (poll_of_pending (q := q) (by rw [hpoll])).1
    rw [hpoll] at hpending
    cases hpending
    exact hpoll
  · have hfound := @found_poll q (by rw [hpoll])
    rw [hpoll] at hfound
    exact if_pos hfound

theorem sim_same : ChunkQueue.Sim Same := by
  intro q q' h
  have htake : q'.take = q.take := by rw [take, take, h]
  rw [htake]
  exact ⟨rfl, rfl⟩

theorem Same.produce {q q' : ChunkQueue} (h : q.Same q') (act : ChunkAct) :
    q'.answer act = q.answer act ∧ (q.produce act).1.Same (q'.produce act).1 := by
  have hclosed : q'.channel.closed = q.channel.closed := by
    rw [← q'.closed_poll, ← h, q.closed_poll]
  refine ⟨by simp only [answer, hclosed], ?_⟩
  rw [Same, produce_eq, produce_eq]
  cases hready : (q.poll).1 with
  | true =>
    rw [poll_fromBehind act.fromBehind hready,
      poll_fromBehind act.fromBehind (h ▸ hready), h]
  | false =>
    -- queues that have nothing are as they are after they were asked
    have hq := (poll_of_pending hready).1
    have hq' := (poll_of_pending (q := q') (h ▸ hready)).1
    have hsame : q = q' := congrArg Prod.snd ((hq.symm.trans h).trans hq')
    rw [hsame]

end ChunkQueue

/-- A producer of a session is answered as described here. -/
theorem Producers.answer_actChunk (p : Producers) (body : Option Body)
    (q : ChunkQueue) (i : Nat) (act : ChunkAct) (h : act ≠ .clone) :
    (p.actChunk ⟨body, some q⟩ i act).1 = q.answer act := by
  cases act with
  | send data additions =>
    simp only [actChunk, ChunkQueue.answer]
    cases Chunk.build data additions with
    | error cause => rfl
    | ok c =>
      simp only [queue?, Option.bind_some, Channel.send?]
      cases q.channel.closed <;> rfl
  | close | drop => rfl
  | clone => exact absurd rfl h

/-! ## Sources that tell the same -/

/-- One use of a source by its reader, or by those who can reach it from
outside. -/
inductive SourceUse (ι : Type)
  | read (slice : Bytes)
  | act (way : ι)

/-- What comes of it. -/
inductive SourceAnswer (α : Type)
  | read (report : ReadReport) (slice : Bytes)
  | acted (answer : α)

namespace Source

variable {σ ι α : Type} [Source σ] (act : ι → σ → α × σ)

/-- What a source answers to a list of uses, one after another. -/
def told : σ → List (SourceUse ι) → List (SourceAnswer α)
  | _, [] => []
  | x, .read slice :: uses =>
    .read (Source.read x slice).1 (Source.read x slice).2.1
      :: told (Source.read x slice).2.2 uses
  | x, .act way :: uses => .acted (act way x).1 :: told (act way x).2 uses

/-- No use of them tells these states from each other. -/
def Alike (x y : σ) : Prop :=
  ∀ uses, told act x uses = told act y uses

/-- As long as the source is in use, a question that is not answered with an error
changes nothing that it tells. -/
def PollsQuietly (x : σ) : Prop :=
  ∀ y, Reach (fun f => ∃ way, f = fun x => (act way x).2) x y →
    (∀ error, (Source.poll y).1 ≠ .failed error) → Alike act y (Source.poll y).2

variable {act} {x y : σ}

theorem Alike.read (h : Alike act x y) (slice : Bytes) :
    (Source.read y slice).1 = (Source.read x slice).1
      ∧ (Source.read y slice).2.1 = (Source.read x slice).2.1
      ∧ Alike act (Source.read x slice).2.2 (Source.read y slice).2.2 := by
  have hone := h [.read slice]
  simp only [told, List.cons.injEq, SourceAnswer.read.injEq, and_true] at hone
  refine ⟨hone.1.symm, hone.2.symm, fun uses => ?_⟩
  exact (List.cons.inj (h (.read slice :: uses))).2

theorem Alike.acted (h : Alike act x y) (way : ι) :
    (act way y).1 = (act way x).1 ∧ Alike act (act way x).2 (act way y).2 := by
  have hone := h [.act way]
  simp only [told, List.cons.injEq, SourceAnswer.acted.injEq, and_true] at hone
  exact ⟨hone.symm, fun uses => (List.cons.inj (h (.act way :: uses))).2⟩

theorem PollsQuietly.invariant : Source.Invariant (PollsQuietly (σ := σ) act) where
  read _ slice h y hy := h y ((Reach.same.read slice).trans hy)
  poll _ h y hy := h y (Reach.same.poll.trans hy)

theorem PollsQuietly.acted (h : PollsQuietly act x) (way : ι) :
    PollsQuietly act (act way x).2 :=
  fun y hy => h y ((Reach.same.act (f := fun x => (act way x).2) ⟨way, rfl⟩).trans hy)

/-- One source was asked and the other was not. -/
def AskedLike (act : ι → σ → α × σ) (x y : σ) : Prop :=
  PollsQuietly act x ∧ Alike act x y

theorem sim_askedLike : Source.Sim (AskedLike act) := by
  intro x y h slice
  obtain ⟨hreport, hslice, halike⟩ := h.2.read slice
  exact ⟨hreport, hslice, PollsQuietly.invariant.read x slice h.1, halike⟩

theorem AskedLike.acted (h : AskedLike act x y) (way : ι) :
    (act way y).1 = (act way x).1 ∧ AskedLike act (act way x).2 (act way y).2 :=
  ⟨(h.2.acted way).1, h.1.acted way, (h.2.acted way).2⟩

theorem AskedLike.poll (h : AskedLike act x y)
    (hanswer : ∀ error, (Source.poll x).1 ≠ .failed error) :
    AskedLike act (Source.poll x).2 y :=
  ⟨PollsQuietly.invariant.poll x h.1, fun uses =>
    (h.1 x .same hanswer uses).symm.trans (h.2 uses)⟩

theorem alike_of_sim {R : σ → σ → Prop} (hread : Source.Sim R)
    (hact : ∀ way x y, R x y →
      (act way y).1 = (act way x).1 ∧ R (act way x).2 (act way y).2)
    (h : R x y) :
    Alike act x y := by
  intro uses
  induction uses generalizing x y with
  | nil => rfl
  | cons use uses ih =>
    cases use with
    | read slice =>
      obtain ⟨hreport, hslice, hrel⟩ := hread x y h slice
      rw [told, told, hreport, hslice, ih hrel]
    | act way =>
      obtain ⟨hanswer, hrel⟩ := hact way x y h
      rw [told, told, hanswer, ih hrel]

theorem pollsQuietly_of_sim {R : σ → σ → Prop} (hread : Source.Sim R)
    (hact : ∀ way x y, R x y →
      (act way y).1 = (act way x).1 ∧ R (act way x).2 (act way y).2)
    (hpoll : ∀ x, (∀ error, (Source.poll x).1 ≠ .failed error) →
      R x (Source.poll x).2)
    (x : σ) :
    PollsQuietly act x :=
  fun y _ hanswer => alike_of_sim hread hact (hpoll y hanswer)

end Source

theorem Memory.pollsQuietly {ι α : Type} (act : ι → Bytes → α × Bytes) (body : Bytes) :
    Source.PollsQuietly act body :=
  fun _ _ _ _ => rfl

theorem Feed.pollsQuietly (f : Feed) : Source.PollsQuietly Feed.produce f := by
  have hread : Source.Sim Same := by
    intro f f' h slice
    have heq : Source.read f' slice = Source.read f slice := (h.read_eq slice).symm
    rw [heq]
    exact ⟨rfl, rfl, rfl⟩
  exact Source.pollsQuietly_of_sim hread (fun act _ _ h => h.produce act)
    (fun f h => (poll_poll h).symm) f

/-- A script has its answers to reads, whatever it was asked, and cannot
be reached from outside. -/
theorem Scripted.pollsQuietly {α : Type} (act : Empty → Scripted → α × Scripted)
    (script : Scripted) :
    Source.PollsQuietly act script := by
  have hread : Source.Sim (fun x y : Scripted => y.reads = x.reads) := by
    intro x y h slice
    show (y.read slice).1 = _ ∧ (y.read slice).2.1 = _ ∧ (y.read slice).2.2.reads = _
    rw [read, h]
    exact ⟨rfl, rfl, rfl⟩
  refine Source.pollsQuietly_of_sim hread (fun way => way.elim) (fun x _ => ?_) script
  show x.poll.2.reads = x.reads
  unfold poll
  split <;> rfl

/-! ## Leaving questions out -/

/-- One turn in the life of a message that is written. -/
inductive Turn (ι : Type)
  | write (dst : Buffer)
  | poll
  /-- the body source is acted on from outside -/
  | act (way : ι)
  | produce (act : ChunkAct)

/-- What comes of a turn. What is acted on may not be there. -/
inductive TurnAnswer (α : Type)
  | wrote (result : Except Failure Progress) (dst : Buffer)
  | polled (answer : Poll)
  | acted (answer : Option α)
  | produced (answer : Option ProducerAnswer)
  deriving DecidableEq

/-- The encoder is asked whether writing would get anywhere. -/
def Turn.isPoll {ι : Type} : Turn ι → Bool
  | .poll => true
  | .write _ | .act _ | .produce _ => false

/-- The answer to such a question. -/
def TurnAnswer.isPoll {α : Type} : TurnAnswer α → Bool
  | .polled _ => true
  | .wrote _ _ | .acted _ | .produced _ => false

namespace Encoder

variable {σ ι α : Type} [Source σ] (act : ι → σ → α × σ)

/-- One turn: a call of the encoder, an act on its source, or an act on its
queue, with what came of it. -/
def turn (e : Encoder) (s : Supply σ) : Turn ι → TurnAnswer α × Encoder × Supply σ
  | .write dst =>
    let w := e.write s dst
    (.wrote w.result w.dst, w.state, w.supply)
  | .poll => (.polled (e.poll s).1, e, (e.poll s).2)
  | .act way =>
    (.acted (s.body.map fun x => (act way x).1), e,
      { s with body := s.body.map fun x => (act way x).2 })
  | .produce act =>
    (.produced (s.queue.map fun q => q.answer act), e,
      { s with queue := s.queue.map fun q => (q.produce act).1 })

/-- What comes of a list of turns, one after another. -/
def answers (e : Encoder) (s : Supply σ) : List (Turn ι) → List (TurnAnswer α)
  | [] => []
  | t :: turns =>
    (e.turn act s t).1 :: (e.turn act s t).2.1.answers (e.turn act s t).2.2 turns

/-- Whatever the turns are, if no question among them was answered with
an error, then the answers to the other turns are those that are given
when nothing is asked. -/
def AskedUnseen (e : Encoder) (s : Supply σ) : Prop :=
  ∀ turns, (∀ failure, .polled (.failed failure) ∉ e.answers act s turns) →
    e.answers act s (turns.filter (!·.isPoll))
      = (e.answers act s turns).filter (!·.isPoll)

variable {act} {s t : Supply σ}

theorem poll_askedLike (h : s.Rel (Source.AskedLike act) ChunkQueue.Same t)
    {e : Encoder} (hanswer : ∀ failure, (e.poll s).1 ≠ .failed failure) :
    (e.poll s).2.Rel (Source.AskedLike act) ChunkQueue.Same t := by
  obtain ⟨hbody, hqueue⟩ := h
  obtain hsame | ⟨x, queue, rfl, hpoll, hfailed⟩ | ⟨body, q, rfl, hpoll⟩ :=
    e.poll_cases s
  · rw [hsame]
    exact ⟨hbody, hqueue⟩
  · rw [hpoll]
    refine ⟨?_, hqueue⟩
    obtain ⟨body', queue'⟩ := t
    cases hbody with
    | some hrel =>
      exact .some (hrel.poll fun error heq => hanswer _ (hfailed error heq))
  · rw [hpoll]
    refine ⟨hbody, ?_⟩
    obtain ⟨body', queue'⟩ := t
    cases hqueue with
    | some hrel => exact .some (q.poll_poll.trans hrel)

theorem turn_askedLike (h : s.Rel (Source.AskedLike act) ChunkQueue.Same t)
    (e : Encoder) {turn : Turn ι} (hturn : turn.isPoll = false) :
    (e.turn act t turn).1 = (e.turn act s turn).1
      ∧ (e.turn act t turn).2.1 = (e.turn act s turn).2.1
      ∧ (e.turn act s turn).1.isPoll = false
      ∧ (e.turn act s turn).2.2.Rel (Source.AskedLike act) ChunkQueue.Same
        (e.turn act t turn).2.2 := by
  cases turn with
  | write dst =>
    obtain ⟨hresult, hstate, hdst, hsupply⟩ :=
      e.write_rel Source.sim_askedLike ChunkQueue.sim_same h dst
    exact ⟨by simp only [Encoder.turn, hresult, hdst], hstate, rfl, hsupply⟩
  | poll => cases hturn
  | act way =>
    obtain ⟨body, queue⟩ := s
    obtain ⟨body', queue'⟩ := t
    obtain ⟨hbody, hqueue⟩ := h
    cases hbody with
    | none => exact ⟨rfl, rfl, rfl, .none, hqueue⟩
    | some hrel =>
      obtain ⟨hanswer, hrel'⟩ := hrel.acted way
      exact ⟨congrArg (fun a => TurnAnswer.acted (some a)) hanswer, rfl, rfl,
        .some hrel', hqueue⟩
  | produce act =>
    obtain ⟨body, queue⟩ := s
    obtain ⟨body', queue'⟩ := t
    obtain ⟨hbody, hqueue⟩ := h
    cases hqueue with
    | none => exact ⟨rfl, rfl, rfl, hbody, .none⟩
    | some hrel =>
      obtain ⟨hanswer, hrel'⟩ := hrel.produce act
      exact ⟨congrArg (fun a => TurnAnswer.produced (some a)) hanswer, rfl, rfl,
        hbody, .some hrel'⟩

/-- The first of two encoders is asked, and the second is not. -/
theorem answers_askedLike (turns : List (Turn ι)) (e : Encoder) {s t : Supply σ}
    (h : s.Rel (Source.AskedLike act) ChunkQueue.Same t)
    (hanswers : ∀ failure, .polled (.failed failure) ∉ e.answers act s turns) :
    e.answers act t (turns.filter (!·.isPoll))
      = (e.answers act s turns).filter (!·.isPoll) := by
  induction turns generalizing e s t with
  | nil => rfl
  | cons turn turns ih =>
    simp only [answers, List.mem_cons, not_or] at hanswers
    cases hturn : turn.isPoll with
    | true =>
      -- a question changes the first supply only, and the relation stays
      cases turn with
      | poll =>
        have hanswer : ∀ failure, (e.poll s).1 ≠ .failed failure :=
          fun failure heq => (hanswers failure).1 (congrArg TurnAnswer.polled heq.symm)
        exact ih e (poll_askedLike h hanswer) (fun failure => (hanswers failure).2)
      | write _ | act _ | produce _ => cases hturn
    | false =>
      obtain ⟨hanswer, hencoder, hnot, hrel⟩ := turn_askedLike h e hturn
      rw [List.filter_cons_of_pos (by simp [hturn]), answers, answers,
        List.filter_cons_of_pos (by simp [hnot]), hanswer, hencoder]
      exact congrArg _ (ih _ hrel (fun failure => (hanswers failure).2))

theorem askedUnseen (e : Encoder) (hbody : s.BodyHas (Source.PollsQuietly act)) :
    e.AskedUnseen act s := by
  refine fun turns hanswers => answers_askedLike turns e ⟨?_, ?_⟩ hanswers
  · cases hsource : s.body with
    | none => exact .none
    | some x => exact .some ⟨hbody x hsource, fun _ => rfl⟩
  · cases s.queue with
    | none => exact .none
    | some q => exact .some rfl

/-- Questions are not seen in what is written, nor in what producers are answered,
if the body is in memory, fed through a channel, or missing, or comes from a
source whose reads do not tell that it was asked. -/
theorem answers_without_polls (e : Encoder) (queue : Option ChunkQueue) :
    (∀ (ι α : Type) (act : ι → Bytes → α × Bytes) (body : Option Bytes),
      e.AskedUnseen act ⟨body, queue⟩)
      ∧ (∀ body : Option Feed, e.AskedUnseen Feed.produce ⟨body, queue⟩)
      ∧ ∀ (σ ι α : Type) [Source σ] (act : ι → σ → α × σ) (body : Option σ),
        (∀ x, body = some x → Source.PollsQuietly act x) →
          e.AskedUnseen act ⟨body, queue⟩ := by
  refine ⟨?_, ?_, ?_⟩
  · intro ι α act body
    exact e.askedUnseen fun x _ => Memory.pollsQuietly act x
  · intro body
    exact e.askedUnseen fun x _ => x.pollsQuietly
  · intro σ ι α _ act body hbody
    exact e.askedUnseen hbody

theorem not_failed_of_filter {answers polls : List (TurnAnswer α)}
    (hpolls : answers.filter (·.isPoll) = polls)
    (hnot : ∀ failure, .polled (.failed failure) ∉ polls) (failure : Failure) :
    .polled (.failed failure) ∉ answers :=
  fun hmem => hnot failure (hpolls ▸ List.mem_filter.mpr ⟨hmem, rfl⟩)

/-- The upload is asked when nothing was sent to its body, when something
was, and at its end. A scripted body says that it is pending and has
something all the same. -/
theorem answers_without_polls_upload :
    let e := start Run.uploadPlan {}
    let fed : Supply Feed := ⟨some {}, some {}⟩
    let turns : List (Turn BodyAct) :=
      [.write (Buffer.empty 1024), .poll, .act (.send [104, 105]), .poll,
        .write (Buffer.empty 1024),
        .act .drop, .poll, .write (Buffer.empty 1024), .produce .close, .poll,
          .write (Buffer.empty 1024)]
    let scripted : Supply Scripted :=
      ⟨some ⟨[.data [104, 105], .pending, .ended], [.pending, .ready], []⟩, none⟩
    let asked : List (Turn Empty) :=
      [.write (Buffer.empty 1024), .poll, .write (Buffer.empty 1024), .poll,
        .write (Buffer.empty 1024)]
    let act : Empty → Scripted → Unit × Scripted := fun way => way.elim
    (e.answers Feed.produce fed turns).filter (·.isPoll)
        = [.polled .pending, .polled .ready, .polled .ready, .polled .ready]
      ∧ e.answers Feed.produce fed (turns.filter (!·.isPoll))
        = (e.answers Feed.produce fed turns).filter (!·.isPoll)
      ∧ scripted.BodyHas (Source.PollsQuietly act)
      ∧ (e.answers act scripted asked).filter (·.isPoll)
        = [.polled .pending, .polled .ready]
      ∧ e.answers act scripted (asked.filter (!·.isPoll))
        = (e.answers act scripted asked).filter (!·.isPoll) := by
  intro e fed turns scripted asked act
  have hfed : (e.answers Feed.produce fed turns).filter (·.isPoll)
      = [.polled .pending, .polled .ready, .polled .ready, .polled .ready] := by
        decide +kernel
  have hscripted : (e.answers act scripted asked).filter (·.isPoll)
      = [.polled .pending, .polled .ready] := by decide +kernel
  have hquiet : scripted.BodyHas (Source.PollsQuietly act) :=
    fun x _ => x.pollsQuietly act
  refine ⟨hfed, ?_, hquiet, hscripted, ?_⟩
  · exact (e.answers_without_polls (some {})).2.1 (some {}) turns
      (not_failed_of_filter hfed (by simp))
  · exact (e.answers_without_polls none).2.2 Scripted Empty Unit act scripted.body
      hquiet asked (not_failed_of_filter hscripted (by simp))

end Encoder

end HttpWire
