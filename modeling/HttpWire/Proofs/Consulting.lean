import Mathlib.Algebra.BigOperators.Group.List.Basic
import HttpWire.Proofs.Bounds
import HttpWire.Proofs.Growth

/-!
# What a call asks of its supply

However a source answers, one writing call asks little of it. Every read but the
last one of a call has brought data, the data has gone into the buffer before the
next read, and there is room left for that one. This is said of the list of the
reads of a call (`Payload.Consults`), and each loop is shown to be such a list. A
call therefore reads no more often than it has room for bytes, and chunks taken
from the queue are counted in the same coin: each that is followed by another has
taken room (`Encoder.write_bounded`).

The same list tells that reads are over where they ought to be. A source that has
reported its end or an error has no part in the call any more, and the call leaves
a body that reads no more (`Encoder.write_asks`); a poll asks a source only if a
read may come next (`Encoder.poll_asks`).
-/

namespace HttpWire

variable {σ : Type}

/-- The uses of the source of a message so far. -/
def Supply.events (s : Supply (Recorded σ)) : List SourceEvent :=
  match s.body with
  | none => []
  | some r => r.events

/-- A read that reported the end of the body or an error. -/
def SourceEvent.isOver : SourceEvent → Bool
  | .read _ .ended _ | .read _ (.failed _) _ => true
  | _ => false

theorem SourceEvent.handed_of_isOver {event : SourceEvent} (h : event.isOver = true) :
    event.handed = [] := by
  rcases event with ⟨offered, n | _ | _ | e, slice⟩ | readiness
  case poll => rfl
  case read.data => cases h
  all_goals rfl

/-! ## The reads of a call -/

namespace Payload

/-- The body has not read its source to the end yet. -/
def reads : Payload → Bool
  | .fixed _ => true
  | .chunked c => c.stage == .body
  | .empty => false

/-- What data from the source becomes in this body. -/
def form : Payload → Bytes → Bytes
  | .fixed _, d => d
  | .chunked _, d => (Chunk.ofData d).wire
  | .empty, _ => []

/-- The body may lend a slice of this length when there is this room. -/
def Lends (b : Payload) (room offered : Nat) : Prop :=
  match b with
  | .fixed _ => 0 < offered ∧ offered ≤ room
  | .chunked c => c.stage = .body ∧ offered = Cut.lent c.maxChunk room
  | .empty => False

/-- The reads of one call that appended `out` to a buffer with some room, behind
`first` or a part of it. Each is made when all that came of the earlier ones is
written and there is room left. -/
def Consults (b : Payload) (first : Bytes) (room : Nat) (events : List SourceEvent)
    (out : Bytes) : Prop :=
  ∀ before event after, events = before ++ event :: after →
    let written := first ++ before.flatMap (fun e => b.form e.handed)
    written.length < room ∧ written <+: out
      ∧ (∃ offered report slice,
        event = .read offered report slice ∧ b.Lends (room - written.length) offered)
      ∧ (after ≠ [] → event.handed ≠ [])

variable {b b' : Payload} {first out : Bytes} {room : Nat} {event : SourceEvent}
  {events : List SourceEvent}

theorem consults_none : b.Consults first room [] out := by
  intro before event after h
  cases before <;> cases h

theorem consults_once {offered : Nat} {report : ReadReport} {slice : Bytes}
    (hroom : 0 < room) (hlends : b.Lends room offered) :
    b.Consults [] room [.read offered report slice] out := by
  intro before event after h
  cases before with
  | nil =>
    cases h
    exact ⟨hroom, List.nil_prefix, ⟨offered, report, slice, rfl, hlends⟩, fun hne =>
      absurd rfl hne⟩
  | cons first before => cases before <;> cases h

/-- What a call reads with `first` in front of what it appends. -/
theorem Consults.behind (h : b.Consults [] (room - first.length) events out) :
    b.Consults first room events (first ++ out) := by
  intro before event after hsplit
  obtain ⟨hroom, hout, hread, hmore⟩ := h before event after hsplit
  simp only [List.nil_append] at hroom hout hread
  refine ⟨?_, (List.prefix_append_right_inj first).mpr hout, ?_, hmore⟩
  · rw [List.length_append]
    omega
  · rwa [List.length_append, ← Nat.sub_sub]

/-- A read that brought data, before what the call goes on to read. -/
theorem Consults.cons {offered : Nat} {report : ReadReport} {slice d : Bytes}
    (hroom : 0 < room) (hlends : b.Lends room offered)
    (hhanded : (SourceEvent.read offered report slice).handed = d) (hd : d ≠ [])
    (h : b.Consults [] (room - (b.form d).length) events out) :
    b.Consults [] room (.read offered report slice :: events) (b.form d ++ out) := by
  intro before event after hsplit
  cases before with
  | nil =>
    cases hsplit
    exact ⟨hroom, List.nil_prefix, ⟨offered, report, slice, rfl, hlends⟩,
      fun _ => hhanded ▸ hd⟩
  | cons head before =>
    cases hsplit
    have hlater := h.behind before event after rfl
    rwa [List.flatMap_cons, hhanded, List.nil_append]

theorem Consults.mono (h : b.Consults first room events out) (hform : b'.form = b.form)
    (hlends : ∀ room offered, b.Lends room offered → b'.Lends room offered) :
    b'.Consults first room events out := by
  intro before event after hsplit
  obtain ⟨hroom, hout, ⟨offered, report, slice, hread, hlent⟩, hmore⟩ :=
    h before event after hsplit
  rw [hform]
  exact ⟨hroom, hout, ⟨offered, report, slice, hread, hlends _ _ hlent⟩, hmore⟩

theorem reads_of_lends {offered : Nat} (h : b.Lends room offered) :
    b.reads = true := by
  cases b with
  | fixed f => rfl
  | chunked c => exact beq_iff_eq.mpr h.1
  | empty => exact h.elim

theorem form_ne_nil {offered : Nat} (h : b.Lends room offered) {d : Bytes}
    (hd : d ≠ []) :
    b.form d ≠ [] := by
  cases b with
  | fixed f => exact hd
  | chunked c => exact List.length_pos_iff.mp (Chunk.ofData d).length_wire_pos
  | empty => exact h.elim

/-- Every read takes a byte of the room, or is the last one and leaves one. -/
theorem Consults.length_le (h : b.Consults first room events out) :
    events.length ≤ room := by
  rcases List.eq_nil_or_concat events with hnil | ⟨before, event, hlast⟩
  · rw [hnil]
    exact Nat.zero_le _
  · rw [List.concat_eq_append] at hlast
    obtain ⟨hroom, -, ⟨offered, report, slice, -, hlends⟩, -⟩ :=
      h before event [] hlast
    have hbytes :
        before.length ≤ (before.flatMap (fun e => b.form e.handed)).length := by
      have hpos : ∀ e ∈ before, 1 ≤ (b.form e.handed).length := by
        intro e he
        obtain ⟨front, back, rfl⟩ := List.append_of_mem he
        obtain ⟨-, -, -, hbrought⟩ := h front e (back ++ [event]) (by rw [hlast]; simp)
        exact List.length_pos_iff.mpr (form_ne_nil hlends (hbrought (by simp)))
      rw [List.length_flatMap]
      have hsum := List.length_le_sum_of_one_le
        (before.map (fun e => (b.form e.handed).length)) (by simpa using hpos)
      rwa [List.length_map] at hsum
    rw [List.length_append] at hroom
    rw [hlast, List.length_append, List.length_singleton]
    omega

end Payload

theorem FixedBody.Fetched.consults {f : FixedBody} {length written room : Nat}
    {events : List SourceEvent} {got : Bytes} {result : Except Failure Progress}
    (h : Fetched length written room events got result) :
    (Payload.fixed f).Consults [] room events got := by
  intro before event after hsplit
  obtain ⟨hpos, report, slice, rfl, hslice, hmeans⟩ :=
    h.reads before event after hsplit
  have hout : before.flatMap SourceEvent.handed <+: got := by
    rw [← h.handed, hsplit, List.flatMap_append]
    exact List.prefix_append _ _
  rw [List.nil_append]
  show (before.flatMap SourceEvent.handed).length < room
    ∧ before.flatMap SourceEvent.handed <+: got ∧ _ ∧ _
  refine ⟨by omega, hout, ⟨_, _, _, rfl, hpos, Nat.min_le_right _ _⟩, fun hafter => ?_⟩
  cases report with
  | data n =>
    have hle := Nat.not_lt.mp (fun hover => hafter (hmeans.1 hover).1)
    have hn : n ≠ 0 := fun hzero => hafter (hmeans.2 hzero).1
    rw [SourceEvent.handed, if_pos hle]
    refine List.length_pos_iff.mp ?_
    rw [List.length_take]
    omega
  | pending | ended | failed e => exact absurd hmeans.1 hafter

theorem FixedBody.Fetched.error_of_isOver {length written room : Nat}
    {events : List SourceEvent} {got : Bytes} {result : Except Failure Progress}
    (h : Fetched length written room events got result)
    (hover : events.any SourceEvent.isOver = true) :
    ∃ failure, result = .error failure := by
  obtain ⟨event, hmem, hend⟩ := List.any_eq_true.mp hover
  obtain ⟨before, after, hsplit⟩ := List.append_of_mem hmem
  obtain ⟨-, report, slice, rfl, -, hmeans⟩ := h.reads before event after hsplit
  cases report with
  | data n | pending => cases hend
  | ended | failed e => exact ⟨_, hmeans.2⟩

/-! ## What a call did to its supply -/

/-- No more than so many chunks were taken off the front of the queue. -/
def Supply.Takes (n : Nat) (s s' : Supply σ) : Prop :=
  ∃ taken, s.queued = taken ++ s'.queued ∧ taken.length ≤ n

theorem Supply.Takes.refl {n : Nat} (s : Supply σ) : s.Takes n s :=
  ⟨[], rfl, Nat.zero_le n⟩

theorem Supply.Takes.mono {m n : Nat} {s s' : Supply σ} (h : s.Takes m s')
    (hle : m ≤ n) : s.Takes n s' :=
  h.imp (fun _ htaken => ⟨htaken.1, Nat.le_trans htaken.2 hle⟩)

/-- What a call asked of its supply, and what came of it: its reads, the bytes
that it appended behind `first`, and the chunks that it took. If a read was over,
the body is left as `ends` says. -/
structure Payload.Asks (b : Payload) (first : Bytes) (s : Supply (Recorded σ))
    (dst : Buffer) (s' : Supply (Recorded σ)) (dst' : Buffer)
    (ends : Prop) : Prop where
  read : ∃ events out, s'.events = s.events ++ events ∧ dst' = dst.append out
    ∧ b.Consults first dst.room events out
    ∧ (events.any SourceEvent.isOver = true → ends)
  taken : s.Takes (dst.room + 1) s'
  kept : s'.body.isSome = s.body.isSome

namespace Payload

variable {b b' : Payload} {first : Bytes} {s s₁ s' : Supply (Recorded σ)}
  {dst dst' : Buffer} {ends ends' : Prop}

/-- A call that leaves the source alone. -/
theorem asks_nothing {out : Bytes} (hbody : s'.body = s.body)
    (hdst : dst' = dst.append out) (htaken : s.Takes (dst.room + 1) s') :
    b.Asks first s dst s' dst' ends := by
  refine ⟨⟨[], out, ?_, hdst, consults_none, fun hover => by cases hover⟩,
    htaken, by rw [hbody]⟩
  rw [Supply.events, hbody, List.append_nil, Supply.events]

theorem Asks.behind (h : b.Asks [] s (dst.append first) s' dst' ends) :
    b.Asks first s dst s' dst' ends := by
  obtain ⟨⟨events, out, hevents, hdst, hconsults, hover⟩, htaken, hkept⟩ := h
  rw [Buffer.append_append] at hdst
  rw [Buffer.room_append] at hconsults htaken
  exact ⟨⟨events, first ++ out, hevents, hdst, hconsults.behind, hover⟩,
    htaken.mono (by omega), hkept⟩

theorem Asks.mono (h : b.Asks first s dst s' dst' ends) (hform : b'.form = b.form)
    (hlends : ∀ room offered, b.Lends room offered → b'.Lends room offered)
    (himp : ends → ends') :
    b'.Asks first s dst s' dst' ends' := by
  obtain ⟨⟨events, out, hevents, hdst, hconsults, hover⟩, htaken, hkept⟩ := h
  exact ⟨⟨events, out, hevents, hdst, hconsults.mono hform hlends, fun hend =>
    himp (hover hend)⟩, htaken, hkept⟩

/-- A read that brought data, whose form was written before the rest of the
call. -/
theorem Asks.cons {r r' : Recorded σ} {queue : Option ChunkQueue} {offered : Nat}
    {report : ReadReport} {slice d : Bytes} (hroom : 0 < dst.room)
    (hlends : b.Lends dst.room offered)
    (hhanded : (SourceEvent.read offered report slice).handed = d) (hd : d ≠ [])
    (hevents : r'.events = r.events ++ [.read offered report slice])
    (h : b.Asks [] ⟨some r', queue⟩ (dst.append (b.form d)) s' dst' ends) :
    b.Asks [] ⟨some r, queue⟩ dst s' dst' ends := by
  obtain ⟨⟨events, out, hmore, hdst, hconsults, hover⟩,
    ⟨taken, hqueued, hlen⟩, hkept⟩ := h
  rw [Buffer.append_append] at hdst
  rw [Buffer.room_append] at hconsults hlen
  refine ⟨⟨_, _, ?_, hdst, hconsults.cons hroom hlends hhanded hd, ?_⟩,
    ⟨taken, hqueued, by omega⟩, hkept⟩
  · rw [hmore]
    show r'.events ++ events = r.events ++ _
    rw [hevents, List.append_assoc]
    rfl
  · rw [List.any_cons, Bool.or_eq_true]
    rintro (hend | hend)
    · exact absurd (SourceEvent.handed_of_isOver hend) (hhanded ▸ hd)
    · exact hover hend

end Payload

/-! ## Chunked bodies -/

/-- After the call the body reads no more: it has turned to its queue,
or the call has failed. -/
def Written.Over (w : Written ChunkedBody σ) : Prop :=
  w.state.stage ≠ .body ∨ ∃ failure, w.result = .error failure

namespace ChunkedBody

variable {c c' : ChunkedBody} {s : Supply σ} {dst dst' : Buffer}

/-- What is sent without the source leaves it alone and does not turn back to it.
A chunk of the queue is taken with room left, or is the last one that is. -/
structure Passes (c : ChunkedBody) (s : Supply σ) (dst : Buffer)
    (w : Written ChunkedBody σ) : Prop where
  body : w.supply.body = s.body
  appended : ∃ out, w.dst = dst.append out
  taken : s.Takes (dst.room + 1) w.supply
  stage : w.state.stage = .body → c.stage = .body

theorem send_stage {f : InFlight} {whole : Bool}
    (h : c.send f dst = (whole, c', dst')) :
    (∃ out, dst' = dst.append out) ∧ (c'.stage = .body → c.stage = .body) := by
  rw [send_eq] at h
  split at h <;> cases h
  · refine ⟨⟨_, rfl⟩, ?_⟩
    simp only
    split
    · intro hstage
      cases hstage
    · exact id
  · exact ⟨⟨_, rfl⟩, id⟩

theorem sendLast_passes (c : ChunkedBody) (s : Supply σ) (dst : Buffer) :
    c.Passes s dst (c.sendLast s dst) := by
  unfold sendLast
  rcases hsend : c.send { chunk := Chunk.last } dst with ⟨_ | _, c', dst'⟩
  all_goals
    obtain ⟨hdst, hstage⟩ := send_stage hsend
    exact ⟨rfl, hdst, .refl s, hstage⟩

theorem drainQueue_passes (c : ChunkedBody) (body : Option σ) (queue : ChunkQueue)
    (dst : Buffer) :
    c.Passes ⟨body, some queue⟩ dst (c.drainQueue body queue dst) := by
  have hone :
      ∀ {q q' : ChunkQueue} {chunk : Chunk} {n : Nat}, q.take = (.chunk chunk, q') →
      Supply.Takes (n + 1) ⟨body, some q⟩ ⟨body, some q'⟩ :=
    fun htake => ⟨[_], ChunkQueue.toList_take htake, Nat.le_add_left 1 _⟩
  fun_induction drainQueue c body queue dst with
  | case1 c queue dst queue' htake =>
    exact ⟨rfl, ⟨[], dst.append_nil.symm⟩,
      ⟨[], ChunkQueue.toList_take htake, Nat.zero_le _⟩, id⟩
  | case2 c queue dst queue' htake =>
    obtain ⟨hbody, hdst, ⟨taken, hqueued, hlen⟩, hstage⟩ :=
      c.sendLast_passes ⟨body, some queue'⟩ dst
    exact ⟨hbody, hdst,
      ⟨taken, (ChunkQueue.toList_take htake).trans hqueued, hlen⟩, hstage⟩
  | case3 c queue dst chunk queue' htake c' dst' hsend
  | case4 c queue dst chunk queue' htake c' dst' hsend hdone =>
    obtain ⟨hdst, hstage⟩ := send_stage hsend
    exact ⟨rfl, hdst, hone htake, hstage⟩
  | case5 c queue dst chunk queue' htake c' dst' hsend hdone ih =>
    -- the chunk is written whole, so it pays for the next one
    have hroom := room_send hsend
    obtain ⟨⟨first, rfl⟩, hstage⟩ := send_stage hsend
    obtain ⟨hbody, ⟨out, hdst⟩, ⟨taken, hqueued, hlen⟩, hkept⟩ := ih
    refine ⟨hbody, ⟨first ++ out, ?_⟩, ⟨chunk :: taken, ?_, ?_⟩, fun hend =>
      hstage (hkept hend)⟩
    · rw [hdst, Buffer.append_append]
    · exact (ChunkQueue.toList_take htake).trans (congrArg (chunk :: ·) hqueued)
    · rw [List.length_cons]
      omega

theorem afterBody_passes (c : ChunkedBody) (s : Supply σ) (dst : Buffer) :
    c.Passes s dst (c.afterBody s dst) := by
  obtain ⟨body, queue⟩ := s
  cases queue with
  | none => exact c.sendLast_passes ⟨body, none⟩ dst
  | some queue => exact c.drainQueue_passes body queue dst

/-- A chunk that is new and not the last one leaves no trace once
it is sent whole. -/
theorem eq_of_send {chunk : Chunk}
    (h : c.send { chunk := chunk } dst = (true, c', dst'))
    (hidle : c.inFlight = none) (hopen : chunk.isLast = false) :
    c' = c ∧ dst' = dst.append chunk.wire := by
  obtain ⟨maxChunk, stage, inFlight⟩ := c
  cases hidle
  rw [send_eq] at h
  split at h
  · cases h
    rw [if_neg (by simp [hopen])]
    exact ⟨rfl, rfl⟩
  · cases h

variable [Source σ]

/-- With room left, an attempt to cut a chunk is one read. -/
theorem fromSource_asks {maxChunk : Nat} {r r' : Recorded σ} {cut : Cut}
    (hcut : Cut.fromSource maxChunk r dst = (cut, r', dst')) :
    (cut = .stalled ∧ r' = r) ∨ 0 < dst.room ∧ ∃ report slice,
      r'.events = r.events ++ [.read (Cut.lent maxChunk dst.room) report slice]
        ∧ (SourceEvent.isOver
          (.read (Cut.lent maxChunk dst.room) report slice) = true →
          cut = .ended ∨ ∃ failure, cut = .failed failure) := by
  by_cases hroom : dst.room = 0
  · rw [Cut.fromSource_full hroom] at hcut
    cases hcut
    exact .inl ⟨rfl, rfl⟩
  · rcases hread : Source.read r (List.replicate (Cut.lent maxChunk dst.room) 0) with
      ⟨report, slice, r''⟩
    rw [Cut.fromSource_of_read hroom hread] at hcut
    cases hcut
    refine .inr
      ⟨by omega, report, slice, Recorded.events_of_read hread, fun hover => ?_⟩
    cases report with
    | data n | pending => cases hover
    | ended => exact .inl rfl
    | failed e => exact .inr ⟨_, rfl⟩

/-- An attempt that brought data was a read that did. -/
theorem fromSource_brought {maxChunk : Nat} {r r' : Recorded σ} {cut : Cut}
    {d : Bytes} (hcut : Cut.fromSource maxChunk r dst = (cut, r', dst'))
    (hhanded : r'.handed = r.handed ++ d) (hd : d ≠ []) :
    0 < dst.room ∧ ∃ report slice,
      r'.events = r.events ++ [.read (Cut.lent maxChunk dst.room) report slice]
        ∧ (SourceEvent.read (Cut.lent maxChunk dst.room) report slice).handed = d := by
  rcases fromSource_asks hcut with ⟨-, rfl⟩ | ⟨hroom, report, slice, hevents, -⟩
  · exact absurd (List.self_eq_append_right.mp hhanded) hd
  · refine ⟨hroom, report, slice, hevents, ?_⟩
    rw [Recorded.handed_of_events hevents, List.flatMap_singleton] at hhanded
    exact List.append_cancel_left hhanded

/-- The call is over with the source after an attempt to cut a chunk. -/
theorem asks_of_last {r r' : Recorded σ} {queue : Option ChunkQueue} {cut : Cut}
    {out : Bytes} {w : Written ChunkedBody (Recorded σ)} (hstage : c.stage = .body)
    (hcut : Cut.fromSource c.maxChunk r dst = (cut, r', dst'))
    (hbody : w.supply.body = some r') (hdst : w.dst = dst.append out)
    (htaken : Supply.Takes (dst.room + 1) ⟨some r, queue⟩ w.supply)
    (hover : (cut = .ended ∨ ∃ failure, cut = .failed failure) → w.Over) :
    (Payload.chunked c).Asks [] ⟨some r, queue⟩ dst w.supply w.dst w.Over := by
  rcases fromSource_asks hcut with ⟨-, rfl⟩ | ⟨hroom, report, slice, hevents, hend⟩
  · exact Payload.asks_nothing hbody hdst htaken
  · refine ⟨⟨[.read (Cut.lent c.maxChunk dst.room) report slice], out, ?_, hdst,
      Payload.consults_once hroom ⟨hstage, rfl⟩, ?_⟩, htaken, by rw [hbody]; rfl⟩
    · rw [Supply.events, hbody]
      exact hevents
    · rw [List.any_cons, List.any_nil, Bool.or_false]
      exact fun h => hover (hend h)

theorem drainBody_asks (c : ChunkedBody) (r : Recorded σ) (queue : Option ChunkQueue)
    (dst : Buffer) (hidle : c.inFlight = none) (hstage : c.stage = .body) :
    (Payload.chunked c).Asks [] ⟨some r, queue⟩ dst (c.drainBody r queue dst).supply
      (c.drainBody r queue dst).dst (c.drainBody r queue dst).Over := by
  fun_induction drainBody c r queue dst with
  | case1 c r dst r' dst' hcut ih =>
    have hspec := Cut.fromSource_spec c.maxChunk r dst
    rw [hcut] at hspec
    obtain ⟨d, hd, -, hhanded, rfl, -⟩ := hspec
    obtain ⟨hroom, report, slice, hevents, hread⟩ := fromSource_brought hcut hhanded hd
    exact (ih hidle hstage).cons hroom ⟨hstage, rfl⟩ hread hd hevents
  | case2 c r dst chunk r' dst' hcut c' dst'' hsend =>
    obtain rfl := Cut.dst_of_held hcut
    obtain ⟨⟨out, hdst⟩, -⟩ := send_stage hsend
    exact asks_of_last hstage hcut rfl hdst ⟨[], rfl, Nat.zero_le _⟩ (by simp)
  | case3 c r dst chunk r' dst' hcut c' dst'' hsend ih =>
    have hspec := Cut.fromSource_spec c.maxChunk r dst
    rw [hcut] at hspec
    obtain ⟨d, hd, -, hhanded, rfl, rfl⟩ := hspec
    obtain ⟨hroom, report, slice, hevents, hread⟩ := fromSource_brought hcut hhanded hd
    obtain ⟨rfl, rfl⟩ :=
      eq_of_send hsend hidle (by simpa [Chunk.ofData, Chunk.isLast] using hd)
    exact (ih hidle hstage).cons hroom ⟨hstage, rfl⟩ hread hd hevents
  | case4 c r dst r' dst' hcut =>
    obtain rfl := Cut.dst_of_unwritten hcut (by simp)
    exact asks_of_last hstage hcut rfl dst'.append_nil.symm
      ⟨[], rfl, Nat.zero_le _⟩ (by simp)
  | case5 c r dst r' dst' hcut =>
    obtain rfl := Cut.dst_of_unwritten hcut (by simp)
    obtain ⟨hbody, ⟨out, hdst⟩, htaken, hkept⟩ :=
      afterBody_passes { c with stage := .queue } ⟨some r', queue⟩ dst'
    refine asks_of_last hstage hcut hbody hdst htaken (fun _ => .inl (fun hend => ?_))
    cases hkept hend
  | case6 c r dst failure r' dst' hcut =>
    obtain rfl := Cut.dst_of_unwritten hcut (by simp)
    exact asks_of_last hstage hcut rfl dst'.append_nil.symm ⟨[], rfl, Nat.zero_le _⟩
      (fun _ => .inr ⟨failure, rfl⟩)

theorem next_asks (c : ChunkedBody) (s : Supply (Recorded σ)) (dst : Buffer)
    (hidle : c.inFlight = none) :
    (Payload.chunked c).Asks [] s dst (c.next s dst).supply (c.next s dst).dst
      (c.next s dst).Over := by
  obtain ⟨body, queue⟩ := s
  unfold next
  split
  · next hstage hbody =>
    simp only at hbody
    subst hbody
    exact drainBody_asks c _ queue dst hidle hstage
  · obtain ⟨hbody, ⟨out, hdst⟩, htaken, -⟩ := c.afterBody_passes ⟨body, queue⟩ dst
    exact Payload.asks_nothing hbody hdst htaken

theorem write_asks (c : ChunkedBody) (s : Supply (Recorded σ)) (dst : Buffer) :
    (Payload.chunked c).Asks (Payload.chunked c).backlog s dst (c.write s dst).supply
      (c.write s dst).dst
      (c.write s dst).Over := by
  have hbacklog : (Payload.chunked c).backlog = if c.isDone then [] else c.rest := rfl
  rw [hbacklog]
  unfold write
  by_cases hdone : c.isDone = true
  · rw [if_pos hdone, if_pos hdone]
    exact Payload.asks_nothing rfl dst.append_nil.symm (.refl s)
  · rw [if_neg hdone, if_neg hdone]
    cases hflight : c.inFlight with
    | none =>
      rw [rest_eq_nil hflight]
      exact c.next_asks s dst hflight
    | some f =>
      simp only
      rcases hsend : c.send f dst with ⟨_ | _, c', dst'⟩
      · obtain ⟨⟨out, hdst⟩, -⟩ := send_stage hsend
        exact Payload.asks_nothing rfl hdst (.refl s)
      · obtain ⟨out, rfl, hfit, hout, hmax, hwhole, -⟩ := send_moves hsend
        obtain ⟨-, hstage⟩ := send_stage hsend
        simp only
        split
        · exact Payload.asks_nothing rfl rfl (.refl s)
        · rw [rest_eq_nil (hwhole rfl), List.append_nil] at hout
          have hrest : c.rest = out := by rw [rest, hflight, hout]
          rw [hrest]
          refine (Payload.Asks.behind
            (c'.next_asks s (dst.append out) (hwhole rfl))).mono rfl ?_ id
          rintro room offered ⟨hbody, hlent⟩
          exact ⟨hstage hbody, hmax ▸ hlent⟩

theorem stage_of_next {s : Supply σ} (h : (c.next s dst).state.stage = .body) :
    c.stage = .body := by
  unfold next at h
  split at h
  · assumption
  · exact (c.afterBody_passes s dst).stage h

/-- A body that has turned to its queue does not turn back. -/
theorem stage_of_write {s : Supply σ} (h : (c.write s dst).state.stage = .body) :
    c.stage = .body := by
  unfold write at h
  split at h
  · exact h
  · cases hflight : c.inFlight with
    | none =>
      rw [hflight] at h
      exact stage_of_next h
    | some f =>
      rw [hflight] at h
      simp only at h
      rcases hsend : c.send f dst with ⟨_ | _, c', dst'⟩ <;> rw [hsend] at h
      · exact (send_stage hsend).2 h
      · simp only at h
        split at h
        · exact (send_stage hsend).2 h
        · exact (send_stage hsend).2 (stage_of_next h)

end ChunkedBody

/-! ## Messages -/

variable [Source σ]

theorem FixedBody.write_asks (f : FixedBody) (s : Supply (Recorded σ)) (dst : Buffer) :
    (Payload.fixed f).Asks [] s dst (f.write s dst).supply (f.write s dst).dst
      (∃ failure, (f.write s dst).result = .error failure) := by
  unfold write
  split
  · exact Payload.asks_nothing rfl dst.append_nil.symm (.refl s)
  · next hdone =>
    rw [isDone, beq_iff_eq] at hdone
    obtain ⟨body, queue⟩ := s
    cases body with
    | none => exact Payload.asks_nothing rfl dst.append_nil.symm (.refl _)
    | some r =>
      obtain ⟨r', events, got, hdst, -, hsupply, hevents, hfetched⟩ :=
        f.fill_filled r queue dst (by omega)
      simp only
      rw [hsupply]
      exact ⟨⟨events, got, hevents, hdst, hfetched.consults, hfetched.error_of_isOver⟩,
        ⟨[], rfl, Nat.zero_le _⟩, rfl⟩

namespace Payload

theorem write_asks (b : Payload) (s : Supply (Recorded σ)) (dst : Buffer) :
    b.Asks b.backlog s dst (b.write s dst).supply (b.write s dst).dst
      ((b.write s dst).state.reads = false ∨ ∃ failure,
        (b.write s dst).result = .error failure) := by
  cases b with
  | fixed f => exact (f.write_asks s dst).mono rfl (fun _ _ => id) .inr
  | chunked c =>
    refine (c.write_asks s dst).mono rfl (fun _ _ => id)
      (Or.imp_left (fun hstage => ?_))
    exact beq_eq_false_iff_ne.mpr hstage
  | empty => exact asks_nothing rfl dst.append_nil.symm (.refl s)

theorem reads_of_write {b : Payload} {s : Supply σ} {dst : Buffer}
    (h : (b.write s dst).state.reads = true) : b.reads = true := by
  cases b with
  | fixed f => rfl
  | chunked c => exact beq_iff_eq.mpr (ChunkedBody.stage_of_write (beq_iff_eq.mp h))
  | empty => exact h

/-- A poll asks the source only if a read may come next. -/
theorem poll_asks (b : Payload) (s : Supply (Recorded σ)) :
    (b.poll s).2.events = s.events
      ∨ b.reads = true ∧ ∃ readiness,
        (b.poll s).2.events = s.events ++ [.poll readiness] := by
  obtain ⟨body, queue⟩ := s
  cases b with
  | fixed f =>
    simp only [poll, FixedBody.poll]
    cases body with
    | none => exact .inl rfl
    | some r =>
      simp only
      split
      · exact .inl rfl
      · exact .inr ⟨rfl, _, rfl⟩
  | chunked c =>
    simp only [poll, ChunkedBody.poll]
    split
    · exact .inl rfl
    · cases hstage : c.stage <;> cases body <;> cases queue
      case body.some.none r | body.some.some r q =>
        exact .inr ⟨beq_iff_eq.mpr hstage, _, rfl⟩
      all_goals exact .inl rfl
  | empty => exact .inl rfl

end Payload

namespace Encoder

/-- A body is written on only as long as it is in progress. -/
theorem payload_writeBody (e : Encoder) (b : Payload) (s : Supply σ) (dst : Buffer) :
    (e.writeBody b s dst).state.payload
      = if (b.write s dst).result = .ok .inProgress then (b.write s dst).state
        else .empty := by
  simp only [writeBody, payload]
  rcases (b.write s dst).result with failure | _ | _ <;> rfl

theorem writeBody_asks (e : Encoder) (b : Payload) (s : Supply (Recorded σ))
    (dst : Buffer) :
    b.Asks b.backlog s dst (e.writeBody b s dst).supply (e.writeBody b s dst).dst
      ((e.writeBody b s dst).state.payload.reads = false) := by
  refine (b.write_asks s dst).mono rfl (fun _ _ => id) (fun hover => ?_)
  rw [payload_writeBody]
  split
  · next hresult =>
    rcases hover with hover | ⟨failure, herror⟩
    · exact hover
    · rw [hresult] at herror
      cases herror
  · rfl

/-- What a writing call asks of its supply. If a read reports the end of the body
or an error, the encoder reads no more afterwards. -/
theorem write_asks (e : Encoder) (s : Supply (Recorded σ)) (dst : Buffer) :
    e.payload.Asks e.backlog s dst (e.write s dst).supply (e.write s dst).dst
      ((e.write s dst).state.payload.reads = false) := by
  obtain ⟨plan, limits, phase⟩ := e
  cases phase with
  | head head =>
    obtain ⟨hdst, hdone, -⟩ := head.write_spec dst
    simp only [write, hdst]
    split
    · next hall =>
      rw [hdone, decide_eq_true_eq] at hall
      rw [List.take_of_length_le hall]
      have hbody := writeBody_asks ⟨plan, limits, .head head⟩
        (Payload.start plan.framing limits.maxChunk) s (dst.append head.rest)
      rw [Payload.backlog_start] at hbody
      exact hbody.behind
    · exact Payload.asks_nothing rfl rfl (.refl s)
  | body b => exact writeBody_asks ⟨plan, limits, .body b⟩ b s dst
  | done | failed => exact Payload.asks_nothing rfl dst.append_nil.symm (.refl s)

/-- An encoder that reads no more does not begin to read again. -/
theorem reads_of_write {e : Encoder} {s : Supply σ} {dst : Buffer}
    (h : (e.write s dst).state.payload.reads = true) : e.payload.reads = true := by
  have hbody : ∀ {b : Payload} {dst : Buffer},
      (e.writeBody b s dst).state.payload.reads = true → b.reads = true := by
    intro b dst h
    rw [payload_writeBody] at h
    split at h
    · exact Payload.reads_of_write h
    · cases h
  unfold payload
  unfold write at h
  cases hphase : e.phase with
  | head head =>
    simp only [hphase] at h ⊢
    split at h
    · exact hbody h
    · exact h
  | body b =>
    rw [hphase] at h
    exact hbody h
  | done | failed =>
    simp only [hphase, payload] at h
    cases h

/-- A poll asks the source only behind the head, and only if a read may come
next. -/
theorem poll_asks (e : Encoder) (s : Supply (Recorded σ)) :
    (e.poll s).2.events = s.events
      ∨ ∃ b readiness, e.phase = .body b ∧ b.reads = true
        ∧ (e.poll s).2.events = s.events ++ [.poll readiness] := by
  cases hphase : e.phase with
  | body b =>
    rw [(poll_of_body hphase s).1]
    refine (b.poll_asks s).imp_right ?_
    rintro ⟨hreads, readiness, hevents⟩
    exact ⟨b, readiness, rfl, hreads, hevents⟩
  | head _ | done | failed =>
    rw [poll, hphase]
    exact .inl rfl

/-- Whatever the state of an encoder and however its source answers, a writing
call reads the source no more often than it has room for bytes, does not ask it
for anything else, and takes at most one chunk more than that off the queue. -/
theorem write_bounded (e : Encoder) (s : Supply σ) (dst : Buffer) :
    let w := e.write s dst
    let recorded := e.write s.recorded dst
    recorded.map Recorded.source = w
      ∧ recorded.supply.events.length ≤ dst.room
      ∧ (∀ event ∈ recorded.supply.events, ∃ offered report slice,
        event = .read offered report slice)
      ∧ (dst.room = 0 → recorded.supply.events = [])
      ∧ ∃ taken,
        s.queued = taken ++ w.supply.queued ∧ taken.length ≤ dst.room + 1 := by
  intro w recorded
  have hmap : recorded.map Recorded.source = w := e.write_recorded s dst
  obtain ⟨⟨events, out, hevents, -, hconsults, -⟩, ⟨taken, hqueued, hlen⟩, -⟩ :=
    e.write_asks s.recorded dst
  have hbefore : s.recorded.events = [] := by
    obtain ⟨body, queue⟩ := s
    cases body <;> rfl
  rw [hbefore, List.nil_append] at hevents
  have hbound : recorded.supply.events.length ≤ dst.room := by
    show (e.write s.recorded dst).supply.events.length ≤ dst.room
    rw [hevents]
    exact hconsults.length_le
  refine ⟨hmap, hbound, ?_, ?_, taken, ?_, hlen⟩
  · intro event hmem
    rw [show recorded.supply.events = events from hevents] at hmem
    obtain ⟨before, after, hsplit⟩ := List.append_of_mem hmem
    obtain ⟨-, -, ⟨offered, report, slice, hread, -⟩, -⟩ :=
      hconsults before event after hsplit
    exact ⟨offered, report, slice, hread⟩
  · intro hroom
    exact List.length_eq_zero_iff.mp (by omega)
  · rw [← hmap]
    exact hqueued

end Encoder

end HttpWire
