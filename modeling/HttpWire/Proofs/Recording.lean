import HttpWire.Encoder
import HttpWire.Proofs.Cutting

/-!
# Sources seen from outside

An encoder knows its body source only through the answers it gets, and its
queue only through what it takes. So two supplies that answer alike are
written alike: if a relation between them is kept by every read and every
taking, with equal answers, then a writing call has the same result, the same
bytes and the same progress with both, and leaves supplies that are related
again (`Encoder.write_rel`). That is the only induction on the writing that
facts of this kind need.

If the relation is a map of states, `Source.Hom`, then the supply after the call
is the image of the other's (`Encoder.write_map`), and the same holds of polls.
The use made of this is `Recorded`, a source that keeps a record of how it was
used and is otherwise the one inside. What a body handed out over a whole run can
only be said with such a record, since a source is free to forget; and forgetting
the record is a `Source.Hom`, so a statement about recorded runs is one about all.
-/

namespace HttpWire

variable {σ τ : Type} [Source σ] [Source τ]

/-! ## Supplies that answer alike -/

/-- Reading keeps the relation, with equal answers. -/
def Source.Sim (R : σ → τ → Prop) : Prop :=
  ∀ x y, R x y → ∀ slice, (Source.read y slice).1 = (Source.read x slice).1
    ∧ (Source.read y slice).2.1 = (Source.read x slice).2.1
    ∧ R (Source.read x slice).2.2 (Source.read y slice).2.2

/-- Taking keeps the relation, with equal answers. -/
def ChunkQueue.Sim (Q : ChunkQueue → ChunkQueue → Prop) : Prop :=
  ∀ q q', Q q q' → (q'.take).1 = (q.take).1 ∧ Q (q.take).2 (q'.take).2

/-- Two supplies are related by their sources and by their queues,
and have both or neither. -/
structure Supply.Rel (R : σ → τ → Prop) (Q : ChunkQueue → ChunkQueue → Prop)
    (s : Supply σ) (t : Supply τ) : Prop where
  body : Option.Rel R s.body t.body
  queue : Option.Rel Q s.queue t.queue

/-- What two calls left is equal, but for their supplies, which are related. -/
structure Written.Rel {π : Type} (R : σ → τ → Prop)
    (Q : ChunkQueue → ChunkQueue → Prop) (w : Written π σ)
    (v : Written π τ) : Prop where
  result : v.result = w.result
  state : v.state = w.state
  dst : v.dst = w.dst
  supply : w.supply.Rel R Q v.supply

section Rel

variable {R : σ → τ → Prop} {Q : ChunkQueue → ChunkQueue → Prop} {x x' : σ} {y : τ}
  {body : Option σ} {body' : Option τ} {q q₁ q' : ChunkQueue}
  {queue queue' : Option ChunkQueue}
  {s : Supply σ} {t : Supply τ} {dst : Buffer}

theorem Source.Sim.read_eq (hR : Source.Sim R) (h : R x y) {slice slice' : Bytes}
    {report : ReadReport} (hread : Source.read x slice = (report, slice', x')) :
    ∃ y', Source.read y slice = (report, slice', y') ∧ R x' y' := by
  obtain ⟨hreport, hslice, hrel⟩ := hR x y h slice
  rw [hread] at hreport hslice hrel
  exact ⟨_, Prod.ext hreport (Prod.ext hslice rfl), hrel⟩

theorem ChunkQueue.Sim.take_eq (hQ : ChunkQueue.Sim Q) (h : Q q q')
    {taken : ChunkQueue.Taken} (htake : q.take = (taken, q₁)) :
    ∃ q₁', q'.take = (taken, q₁') ∧ Q q₁ q₁' := by
  obtain ⟨htaken, hrel⟩ := hQ q q' h
  rw [htake] at htaken hrel
  exact ⟨(q'.take).2, Prod.ext htaken rfl, hrel⟩

theorem Buffer.lend_rel (hR : Source.Sim R) (h : R x y) {b filled : Buffer}
    {start size : Nat} {report : ReadReport}
    (hlend : b.lend start size x = (report, filled, x')) :
    ∃ y', b.lend start size y = (report, filled, y') ∧ R x' y' := by
  unfold lend at hlend ⊢
  rcases hread : Source.read x ((b.resize (start + size)).bytes.drop start) with
    ⟨report', slice, x''⟩
  simp only [hread] at hlend
  cases hlend
  obtain ⟨y', hread', hrel⟩ := hR.read_eq h hread
  exact ⟨y', by simp only [hread'], hrel⟩

theorem FixedBody.fill_rel (hR : Source.Sim R) (hqueue : Option.Rel Q queue queue')
    (f : FixedBody) (x : σ) (y : τ) (dst : Buffer) (h : R x y) :
    (f.fill x queue dst).Rel R Q (f.fill y queue' dst) := by
  fun_induction FixedBody.fill f x queue dst generalizing y with
  | case1 f x dst hdone =>
    rw [FixedBody.fill, if_pos hdone]
    exact ⟨rfl, rfl, rfl, .some h, hqueue⟩
  | case2 f x dst hdone hroom =>
    rw [FixedBody.fill, if_neg hdone, if_pos hroom]
    exact ⟨rfl, rfl, rfl, .some h, hqueue⟩
  | case3 f x dst hdone hroom size n filled x' hlend hover =>
    obtain ⟨y', hlend', hrel⟩ := Buffer.lend_rel hR h hlend
    simp only [size] at hlend' hover
    rw [FixedBody.fill, if_neg hdone, if_neg hroom]
    simp only [hlend', dif_pos hover]
    exact ⟨rfl, rfl, rfl, .some hrel, hqueue⟩
  | case4 f x dst hdone hroom size filled x' hlend hover =>
    obtain ⟨y', hlend', hrel⟩ := Buffer.lend_rel hR h hlend
    simp only [size] at hlend' hover
    rw [FixedBody.fill, if_neg hdone, if_neg hroom]
    simp only [hlend', dif_neg hover, if_true]
    exact ⟨rfl, rfl, rfl, .some hrel, hqueue⟩
  | case5 f x dst hdone hroom size n filled x' hlend hover hpos ih =>
    obtain ⟨y', hlend', hrel⟩ := Buffer.lend_rel hR h hlend
    simp only [size] at hlend' hover
    rw [FixedBody.fill.eq_def f y, if_neg hdone, if_neg hroom]
    simp only [hlend', dif_neg hover, if_neg hpos]
    exact ih y' hrel
  | case6 f x dst hdone hroom size filled x' hlend
  | case7 f x dst hdone hroom size filled x' hlend
  | case8 f x dst hdone hroom size e filled x' hlend =>
    obtain ⟨y', hlend', hrel⟩ := Buffer.lend_rel hR h hlend
    simp only [size] at hlend'
    rw [FixedBody.fill, if_neg hdone, if_neg hroom]
    simp only [hlend']
    exact ⟨rfl, rfl, rfl, .some hrel, hqueue⟩

theorem Cut.fromSource_rel (hR : Source.Sim R) (h : R x y) {maxChunk : Nat}
    {cut : Cut} {dst' : Buffer}
    (hcut : Cut.fromSource maxChunk x dst = (cut, x', dst')) :
    ∃ y', Cut.fromSource maxChunk y dst = (cut, y', dst') ∧ R x' y' := by
  by_cases hroom : dst.room = 0
  · rw [fromSource_full hroom] at hcut ⊢
    cases hcut
    exact ⟨y, rfl, h⟩
  · rcases hread : Source.read x (List.replicate (lent maxChunk dst.room) 0) with
      ⟨report, slice, x''⟩
    obtain ⟨y', hread', hrel⟩ := hR.read_eq h hread
    rw [fromSource_of_read hroom hread] at hcut
    cases hcut
    exact ⟨y', fromSource_of_read hroom hread', hrel⟩

omit [Source σ] [Source τ] in
theorem ChunkedBody.sendLast_rel (h : s.Rel R Q t) (c : ChunkedBody) (dst : Buffer) :
    (c.sendLast s dst).Rel R Q (c.sendLast t dst) := by
  unfold sendLast
  split <;> exact ⟨rfl, rfl, rfl, h⟩

omit [Source σ] [Source τ] in
theorem ChunkedBody.drainQueue_rel (hQ : ChunkQueue.Sim Q)
    (hbody : Option.Rel R body body') (c : ChunkedBody) (q q' : ChunkQueue)
    (dst : Buffer) (h : Q q q') :
    (c.drainQueue body q dst).Rel R Q (c.drainQueue body' q' dst) := by
  fun_induction ChunkedBody.drainQueue c body q dst generalizing q' with
  | case1 c q dst q₁ htake =>
    obtain ⟨q₁', htake', hrel⟩ := hQ.take_eq h htake
    rw [ChunkedBody.drainQueue_eq, htake']
    exact ⟨rfl, rfl, rfl, hbody, .some hrel⟩
  | case2 c q dst q₁ htake =>
    obtain ⟨q₁', htake', hrel⟩ := hQ.take_eq h htake
    rw [ChunkedBody.drainQueue_eq, htake']
    exact ChunkedBody.sendLast_rel ⟨hbody, .some hrel⟩ c dst
  | case3 c q dst chunk q₁ htake c' dst' hsend =>
    obtain ⟨q₁', htake', hrel⟩ := hQ.take_eq h htake
    rw [ChunkedBody.drainQueue_eq, htake']
    simp only [hsend]
    exact ⟨rfl, rfl, rfl, hbody, .some hrel⟩
  | case4 c q dst chunk q₁ htake c' dst' hsend hdone =>
    obtain ⟨q₁', htake', hrel⟩ := hQ.take_eq h htake
    rw [ChunkedBody.drainQueue_eq, htake']
    simp only [hsend, if_pos hdone]
    exact ⟨rfl, rfl, rfl, hbody, .some hrel⟩
  | case5 c q dst chunk q₁ htake c' dst' hsend hdone ih =>
    obtain ⟨q₁', htake', hrel⟩ := hQ.take_eq h htake
    rw [ChunkedBody.drainQueue_eq c body' q', htake']
    simp only [hsend, if_neg hdone]
    exact ih q₁' hrel

omit [Source σ] [Source τ] in
theorem ChunkedBody.afterBody_rel (hQ : ChunkQueue.Sim Q) (h : s.Rel R Q t)
    (c : ChunkedBody) (dst : Buffer) :
    (c.afterBody s dst).Rel R Q (c.afterBody t dst) := by
  obtain ⟨body, queue⟩ := s
  obtain ⟨body', queue'⟩ := t
  obtain ⟨hbody, hqueue⟩ := h
  cases hqueue with
  | none => exact ChunkedBody.sendLast_rel ⟨hbody, .none⟩ c dst
  | some hrel => exact ChunkedBody.drainQueue_rel hQ hbody c _ _ dst hrel

theorem ChunkedBody.drainBody_rel (hR : Source.Sim R) (hQ : ChunkQueue.Sim Q)
    (hqueue : Option.Rel Q queue queue') (c : ChunkedBody) (x : σ) (y : τ)
    (dst : Buffer) (h : R x y) :
    (c.drainBody x queue dst).Rel R Q (c.drainBody y queue' dst) := by
  fun_induction ChunkedBody.drainBody c x queue dst generalizing y with
  | case1 c x dst x' dst' hcut ih =>
    obtain ⟨y', hcut', hrel⟩ := Cut.fromSource_rel hR h hcut
    rw [ChunkedBody.drainBody_eq c y, hcut']
    exact ih y' hrel
  | case2 c x dst chunk x' dst' hcut c' dst'' hsend =>
    obtain ⟨y', hcut', hrel⟩ := Cut.fromSource_rel hR h hcut
    rw [ChunkedBody.drainBody_eq, hcut']
    simp only [hsend]
    exact ⟨rfl, rfl, rfl, .some hrel, hqueue⟩
  | case3 c x dst chunk x' dst' hcut c' dst'' hsend ih =>
    obtain ⟨y', hcut', hrel⟩ := Cut.fromSource_rel hR h hcut
    rw [ChunkedBody.drainBody_eq c y, hcut']
    simp only [hsend]
    exact ih y' hrel
  | case4 c x dst x' dst' hcut
  | case6 c x dst failure x' dst' hcut =>
    obtain ⟨y', hcut', hrel⟩ := Cut.fromSource_rel hR h hcut
    rw [ChunkedBody.drainBody_eq, hcut']
    exact ⟨rfl, rfl, rfl, .some hrel, hqueue⟩
  | case5 c x dst x' dst' hcut =>
    obtain ⟨y', hcut', hrel⟩ := Cut.fromSource_rel hR h hcut
    rw [ChunkedBody.drainBody_eq, hcut']
    exact ChunkedBody.afterBody_rel hQ ⟨.some hrel, hqueue⟩ _ dst'

variable (hR : Source.Sim R) (hQ : ChunkQueue.Sim Q) (h : s.Rel R Q t)

include hR h

theorem FixedBody.write_rel (f : FixedBody) (dst : Buffer) :
    (f.write s dst).Rel R Q (f.write t dst) := by
  obtain ⟨body, queue⟩ := s
  obtain ⟨body', queue'⟩ := t
  obtain ⟨hbody, hqueue⟩ := h
  unfold write
  split
  · exact ⟨rfl, rfl, rfl, hbody, hqueue⟩
  · cases hbody with
    | none => exact ⟨rfl, rfl, rfl, .none, hqueue⟩
    | some hrel => exact fill_rel hR hqueue f _ _ dst hrel

include hQ

theorem ChunkedBody.next_rel (c : ChunkedBody) (dst : Buffer) :
    (c.next s dst).Rel R Q (c.next t dst) := by
  obtain ⟨body, queue⟩ := s
  obtain ⟨body', queue'⟩ := t
  obtain ⟨hbody, hqueue⟩ := h
  unfold next
  cases c.stage <;> cases hbody
  case body.some hrel => exact drainBody_rel hR hQ hqueue c _ _ dst hrel
  case queue.some hrel | finished.some hrel =>
    exact afterBody_rel hQ ⟨.some hrel, hqueue⟩ c dst
  all_goals exact afterBody_rel hQ ⟨.none, hqueue⟩ c dst

theorem ChunkedBody.write_rel (c : ChunkedBody) (dst : Buffer) :
    (c.write s dst).Rel R Q (c.write t dst) := by
  unfold write
  split
  · exact ⟨rfl, rfl, rfl, h⟩
  · split
    · exact next_rel hR hQ h c dst
    · split
      · exact ⟨rfl, rfl, rfl, h⟩
      · split
        · exact ⟨rfl, rfl, rfl, h⟩
        · exact next_rel hR hQ h _ _

theorem Payload.write_rel (b : Payload) (dst : Buffer) :
    (b.write s dst).Rel R Q (b.write t dst) := by
  cases b with
  | fixed f =>
    obtain ⟨hresult, hstate, hdst, hsupply⟩ := f.write_rel hR h dst
    exact ⟨hresult, congrArg Payload.fixed hstate, hdst, hsupply⟩
  | chunked c =>
    obtain ⟨hresult, hstate, hdst, hsupply⟩ := c.write_rel hR hQ h dst
    exact ⟨hresult, congrArg Payload.chunked hstate, hdst, hsupply⟩
  | empty => exact ⟨rfl, rfl, rfl, h⟩

theorem Encoder.writeBody_rel (e : Encoder) (b : Payload) (dst : Buffer) :
    (e.writeBody b s dst).Rel R Q (e.writeBody b t dst) := by
  obtain ⟨hresult, hstate, hdst, hsupply⟩ := b.write_rel hR hQ h dst
  refine ⟨hresult, ?_, hdst, hsupply⟩
  simp only [writeBody, hresult, hstate]

/-- Supplies that answer alike are written alike. -/
theorem Encoder.write_rel (e : Encoder) (dst : Buffer) :
    (e.write s dst).Rel R Q (e.write t dst) := by
  unfold write
  cases e.phase with
  | head head =>
    simp only
    split
    · exact writeBody_rel hR hQ h e _ _
    · exact ⟨rfl, rfl, rfl, h⟩
  | body b => exact writeBody_rel hR hQ h e b dst
  | done | failed => exact ⟨rfl, rfl, rfl, h⟩

end Rel

/-! ## Maps of sources -/

/-- Through `φ`, one source answers as the other. -/
structure Source.Hom (φ : σ → τ) : Prop where
  read : ∀ s slice, Source.read (φ s) slice
    = ((Source.read s slice).1, (Source.read s slice).2.1, φ (Source.read s slice).2.2)
  poll : ∀ s, Source.poll (φ s) = ((Source.poll s).1, φ (Source.poll s).2)

/-- The supply with its source replaced. -/
def Supply.map (φ : σ → τ) (s : Supply σ) : Supply τ :=
  { body := s.body.map φ, queue := s.queue }

/-- What a writing call came to, with the source replaced. -/
def Written.map {π : Type} (φ : σ → τ) (w : Written π σ) : Written π τ :=
  ⟨w.result, w.state, w.supply.map φ, w.dst⟩

section Hom

variable {φ : σ → τ}

omit [Source σ] [Source τ] in
theorem Supply.rel_map_iff {s : Supply σ} {t : Supply τ} :
    s.Rel (fun x y => y = φ x) Eq t ↔ t = s.map φ := by
  obtain ⟨body, queue⟩ := s
  obtain ⟨body', queue'⟩ := t
  constructor
  · rintro ⟨hbody, hqueue⟩
    cases hbody with
    | none => cases hqueue with
      | none => rfl
      | some hq => cases hq; rfl
    | some hx => cases hqueue with
      | none => cases hx; rfl
      | some hq => cases hx; cases hq; rfl
  · intro h
    cases h
    constructor
    · cases body
      · exact .none
      · exact .some rfl
    · cases queue
      · exact .none
      · exact .some rfl

theorem ChunkQueue.sim_eq : ChunkQueue.Sim Eq := by
  rintro q q' rfl
  exact ⟨rfl, rfl⟩

variable (hφ : Source.Hom φ)

include hφ

theorem Source.Hom.sim : Source.Sim (fun x y => y = φ x) := by
  rintro x y rfl slice
  rw [hφ.read]
  exact ⟨rfl, rfl, rfl⟩

/-- The supply after a call is the image of the other. -/
theorem Encoder.write_map (e : Encoder) (s : Supply σ) (dst : Buffer) :
    e.write (s.map φ) dst = (e.write s dst).map φ := by
  obtain ⟨hresult, hstate, hdst, hsupply⟩ :=
    e.write_rel hφ.sim ChunkQueue.sim_eq (Supply.rel_map_iff.mpr rfl) dst
  rw [Supply.rel_map_iff] at hsupply
  cases hw : e.write (s.map φ) dst
  rw [hw] at hresult hstate hdst hsupply
  cases hresult
  cases hstate
  cases hdst
  cases hsupply
  rfl

theorem ChunkedBody.poll_map (c : ChunkedBody) (s : Supply σ) :
    c.poll (s.map φ) = ((c.poll s).1, (c.poll s).2.map φ) := by
  obtain ⟨body, queue⟩ := s
  unfold ChunkedBody.poll
  split
  · rfl
  · cases c.stage <;> cases body <;> cases queue <;>
      simp only [Supply.map, Option.map, hφ.poll]

theorem FixedBody.poll_map (f : FixedBody) (s : Supply σ) :
    f.poll (s.map φ) = ((f.poll s).1, (f.poll s).2.map φ) := by
  obtain ⟨body, queue⟩ := s
  unfold FixedBody.poll
  cases body with
  | none => rfl
  | some source =>
    simp only [Supply.map, Option.map, hφ.poll]
    split <;> rfl

theorem Payload.poll_map (p : Payload) (s : Supply σ) :
    p.poll (s.map φ) = ((p.poll s).1, (p.poll s).2.map φ) := by
  cases p with
  | fixed body => exact FixedBody.poll_map hφ body s
  | chunked body => exact ChunkedBody.poll_map hφ body s
  | empty => rfl

theorem Encoder.poll_map (e : Encoder) (s : Supply σ) :
    e.poll (s.map φ) = ((e.poll s).1, (e.poll s).2.map φ) := by
  unfold Encoder.poll
  cases e.phase with
  | body body =>
    simp only [Payload.poll_map hφ]
    rcases body.poll s with ⟨_ | _ | _, s'⟩ <;> rfl
  | head head => rfl
  | done => rfl
  | failed => rfl

end Hom

/-! ## What a poll asks -/

/-- A body asks its source, or its queue, or nobody, and leaves the
rest of the supply alone. -/
theorem Payload.poll_cases (b : Payload) (s : Supply σ) :
    (b.poll s).2 = s
      ∨ (∃ x queue, s = ⟨some x, queue⟩
        ∧ b.poll s = ((Source.poll x).1, ⟨some (Source.poll x).2, queue⟩))
      ∨ ∃ body q, s = ⟨body, some q⟩ ∧ (b.poll s).2 = ⟨body, some (q.poll).2⟩ := by
  obtain ⟨body, queue⟩ := s
  cases b with
  | fixed f =>
    simp only [poll, FixedBody.poll]
    cases body with
    | none => exact .inl rfl
    | some x =>
      simp only
      split
      · exact .inl rfl
      · exact .inr (.inl ⟨x, queue, rfl, rfl⟩)
  | chunked c =>
    simp only [poll, ChunkedBody.poll]
    split
    · exact .inl rfl
    · cases c.stage <;> cases body <;> cases queue
      case body.some.none x => exact .inr (.inl ⟨x, none, rfl, rfl⟩)
      case body.some.some x q => exact .inr (.inl ⟨x, some q, rfl, rfl⟩)
      case body.none.none | queue.none.none | queue.some.none | finished.none.none
          | finished.some.none =>
        exact .inl rfl
      all_goals exact .inr (.inr ⟨_, _, rfl, rfl⟩)
  | empty => exact .inl rfl

theorem Encoder.poll_of_body {e : Encoder} {b : Payload} (h : e.phase = .body b)
    (s : Supply σ) :
    (e.poll s).2 = (b.poll s).2
      ∧ ∀ error, (b.poll s).1 = .failed error →
        (e.poll s).1 = .failed (.io error) := by
  unfold poll
  rw [h]
  simp only
  rcases b.poll s with ⟨_ | _ | e, s'⟩
  · exact ⟨rfl, fun error heq => by cases heq⟩
  · exact ⟨rfl, fun error heq => by cases heq⟩
  · refine ⟨rfl, fun error heq => ?_⟩
    cases heq
    rfl

theorem Encoder.poll_cases (e : Encoder) (s : Supply σ) :
    (e.poll s).2 = s
      ∨ (∃ x queue,
        s = ⟨some x, queue⟩ ∧ (e.poll s).2 = ⟨some (Source.poll x).2, queue⟩
        ∧ ∀ error, (Source.poll x).1 = .failed error →
          (e.poll s).1 = .failed (.io error))
      ∨ ∃ body q, s = ⟨body, some q⟩ ∧ (e.poll s).2 = ⟨body, some (q.poll).2⟩ := by
  cases hphase : e.phase with
  | body b =>
    obtain ⟨hsupply, hfailed⟩ := poll_of_body hphase s
    rw [hsupply]
    refine (b.poll_cases s).imp_right (Or.imp_left ?_)
    rintro ⟨x, queue, rfl, hasked⟩
    rw [hasked] at hfailed ⊢
    exact ⟨x, queue, rfl, rfl, hfailed⟩
  | head _ | done | failed =>
    refine .inl ?_
    rw [poll, hphase]

/-! ## What stays true of a source

A property that neither a read nor a poll can end stays true of the source of a
message, however the message is written. No induction on the writing is needed for
that. The states with the property are a source of their own, and including them
in all states is a `Source.Hom`. -/

/-- Reads and polls keep the property. -/
structure Source.Invariant (P : σ → Prop) : Prop where
  read : ∀ s slice, P s → P (Source.read s slice).2.2
  poll : ∀ s, P s → P (Source.poll s).2

/-- If there is a source, it has the property. -/
def Supply.BodyHas (P : σ → Prop) (s : Supply σ) : Prop :=
  ∀ x, s.body = some x → P x

section Invariant

variable {P : σ → Prop} (hP : Source.Invariant P) {s : Supply σ}

/-- The states with an invariant property, as a source. -/
@[reducible] def Source.Invariant.source : Source { x // P x } where
  read x slice :=
    ((Source.read x.1 slice).1, (Source.read x.1 slice).2.1,
      ⟨(Source.read x.1 slice).2.2, hP.read x.1 slice x.2⟩)
  poll x := ((Source.poll x.1).1, ⟨(Source.poll x.1).2, hP.poll x.1 x.2⟩)
  length_read x slice := Source.length_read x.1 slice

omit [Source σ] in
theorem Supply.BodyHas.exists_map (h : s.BodyHas P) :
    ∃ s' : Supply { x // P x }, s = s'.map Subtype.val := by
  obtain ⟨body, queue⟩ := s
  cases body with
  | none => exact ⟨⟨none, queue⟩, rfl⟩
  | some x => exact ⟨⟨some ⟨x, h x rfl⟩, queue⟩, rfl⟩

omit [Source σ] in
theorem Supply.bodyHas_map (s : Supply { x // P x }) :
    (s.map Subtype.val).BodyHas P := by
  intro x hx
  obtain ⟨y, -, rfl⟩ := Option.map_eq_some_iff.mp hx
  exact y.2

include hP

theorem Encoder.bodyHas_write (e : Encoder) (dst : Buffer) (h : s.BodyHas P) :
    (e.write s dst).supply.BodyHas P := by
  let := hP.source
  obtain ⟨s', rfl⟩ := h.exists_map
  rw [Encoder.write_map (φ := Subtype.val) ⟨fun _ _ => rfl, fun _ => rfl⟩]
  exact Supply.bodyHas_map _

theorem Encoder.bodyHas_poll (e : Encoder) (h : s.BodyHas P) :
    (e.poll s).2.BodyHas P := by
  let := hP.source
  obtain ⟨s', rfl⟩ := h.exists_map
  rw [Encoder.poll_map (φ := Subtype.val) ⟨fun _ _ => rfl, fun _ => rfl⟩]
  exact Supply.bodyHas_map _

end Invariant

/-! ## Keeping a record -/

/-- One use of a source. -/
inductive SourceEvent
  /-- a read: the length of the slice that was lent, the report, and
  the slice as it came back -/
  | read (offered : Nat) (report : ReadReport) (slice : Bytes)
  | poll (readiness : Readiness)
  deriving DecidableEq, Repr

/-- The body bytes handed out by one use of a source: the front of the slice, as
far as the report says, unless it says more than the slice has. -/
def SourceEvent.handed : SourceEvent → Bytes
  | .read offered (.data n) slice => if n ≤ offered then slice.take n else []
  | _ => []

/-- A read found the source at its end. -/
def SourceEvent.isEnd : SourceEvent → Bool
  | .read _ .ended _ => true
  | _ => false

/-- A source with a record of its uses, the first one first. -/
structure Recorded (σ : Type) where
  source : σ
  events : List SourceEvent := []

namespace Recorded

/-- The body bytes handed out so far. -/
def handed (r : Recorded σ) : Bytes :=
  r.events.flatMap SourceEvent.handed

/-- Some read has reported the end of the body. -/
def ended (r : Recorded σ) : Bool :=
  r.events.any SourceEvent.isEnd

instance : Source (Recorded σ) where
  read r slice :=
    let (report, slice', source) := Source.read r.source slice
    (report, slice', ⟨source, r.events ++ [.read slice.length report slice']⟩)
  poll r :=
    let (readiness, source) := Source.poll r.source
    (readiness, ⟨source, r.events ++ [.poll readiness]⟩)
  length_read r slice := Source.length_read r.source slice

theorem hom_source : Source.Hom (Recorded.source : Recorded σ → σ) where
  read _ _ := rfl
  poll _ := rfl

omit [Source σ] in
theorem handed_of_events {r r' : Recorded σ} {events : List SourceEvent}
    (h : r'.events = r.events ++ events) :
    r'.handed = r.handed ++ events.flatMap SourceEvent.handed := by
  rw [handed, handed, h, List.flatMap_append]

omit [Source σ] in
theorem ended_of_events {r r' : Recorded σ} {events : List SourceEvent}
    (h : r'.events = r.events ++ events) :
    r'.ended = (r.ended || events.any SourceEvent.isEnd) := by
  rw [ended, ended, h, List.any_append]

theorem events_of_read {r r' : Recorded σ} {size : Nat} {report : ReadReport}
    {slice : Bytes} (h : Source.read r (List.replicate size 0) = (report, slice, r')) :
    r'.events = r.events ++ [.read size report slice] := by
  cases h
  show r.events ++ [SourceEvent.read (List.replicate size 0).length _ _] = _
  rw [List.length_replicate]

theorem handed_poll (r : Recorded σ) : (Source.poll r).2.handed = r.handed :=
  (handed_of_events rfl).trans (List.append_nil _)

theorem ended_poll (r : Recorded σ) : (Source.poll r).2.ended = r.ended :=
  (ended_of_events rfl).trans (Bool.or_false _)

end Recorded

end HttpWire
