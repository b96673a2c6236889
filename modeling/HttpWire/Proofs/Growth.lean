import HttpWire.Proofs.Bodies

/-!
# What a writing call adds

Some things are true of writing calls for every source, tidy body or not.
No call takes bytes out of its buffer, and none fails for lack of progress,
since that is a verdict on several rounds which only a transmission can
pass (`Written.Orderly`).

A call may still add nothing. For the parts of a chunked body that do not read the
source it can be said when: a chunk in flight and a last chunk always take some of
the room (`ChunkedBody.send_gains`), and a queue adds nothing only when it has
nothing to give (`ChunkedBody.drainQueue_gains`).
-/

namespace HttpWire

/-- The call took nothing out of its buffer, and did not fail for
lack of progress. -/
structure Written.Orderly {π σ : Type} (w : Written π σ) (dst : Buffer) : Prop where
  length_le : dst.length ≤ w.dst.length
  failure : ∀ n, w.result ≠ .error (.noProgress n)

theorem Written.Orderly.trans {π σ : Type} {w : Written π σ} {dst dst' : Buffer}
    (h : w.Orderly dst') (hle : dst.length ≤ dst'.length) : w.Orderly dst :=
  ⟨Nat.le_trans hle h.length_le, h.failure⟩

/-! ## Reading -/

namespace FixedBody

variable {σ : Type} [Source σ]

theorem fill_orderly (f : FixedBody) (source : σ) (queue : Option ChunkQueue)
    (dst : Buffer) :
    (f.fill source queue dst).Orderly dst := by
  have hback : ∀ {f : FixedBody} {source source' : σ} {dst filled : Buffer}
      {report : ReadReport}, dst.lend dst.length
      (min (f.length - f.written) dst.room) source = (report, filled, source') →
      dst.length ≤ (filled.truncate dst.length).length := by
    intro f source source' dst filled report hread
    obtain ⟨slice, -, -, hback, -⟩ := Buffer.lend_reads (Nat.min_le_right _ _) hread
    exact Nat.le_of_eq (congrArg Buffer.length hback.symm)
  fun_induction fill f source queue dst with
  | case1 f source dst hdone => exact ⟨Nat.le_refl _, by simp⟩
  | case2 f source dst hdone hroom => exact ⟨Nat.le_refl _, by simp⟩
  | case3 f source dst hdone hroom size n filled source' hread hover =>
    exact ⟨hback hread, by simp⟩
  | case4 f source dst hdone hroom size filled source' hread hover =>
    exact ⟨hback hread, by simp⟩
  | case5 f source dst hdone hroom size n filled source' hread hover hpos ih =>
    obtain ⟨slice, -, -, -, hkept⟩ := Buffer.lend_reads (Nat.min_le_right _ _) hread
    refine ih.trans ?_
    rw [hkept, Buffer.length_append]
    exact Nat.le_add_right _ _
  | case6 f source dst hdone hroom size filled source' hread
  | case7 f source dst hdone hroom size filled source' hread
  | case8 f source dst hdone hroom size e filled source' hread =>
    exact ⟨hback hread, by simp⟩

theorem write_orderly (f : FixedBody) (supply : Supply σ) (dst : Buffer) :
    (f.write supply dst).Orderly dst := by
  unfold write
  split
  · exact ⟨Nat.le_refl _, by simp⟩
  · split
    · exact ⟨Nat.le_refl _, by simp⟩
    · exact fill_orderly f _ _ dst

end FixedBody

namespace Cut

variable {σ : Type} [Source σ]

theorem failure_of_fromSource {maxChunk : Nat} {source : σ} {dst : Buffer}
    {failure : Failure} (h : (fromSource maxChunk source dst).1 = .failed failure)
    (n : Nat) : failure ≠ .noProgress n := by
  rintro rfl
  by_cases hroom : dst.room = 0
  · rw [fromSource_full hroom] at h
    cases h
  · rcases hread : Source.read source (List.replicate (lent maxChunk dst.room) 0) with
      ⟨report, slice, source'⟩
    rw [fromSource_of_read hroom hread] at h
    revert h
    fun_cases ofRead <;> simp_all

/-- What an attempt to cut a chunk leaves of the buffer. -/
def Leaves (dst : Buffer) : Cut × σ × Buffer → Prop
  | (.written, _, dst') => dst.length < dst'.length
  | (_, _, dst') => dst' = dst

theorem fromSource_leaves (maxChunk : Nat) (source : σ) (dst : Buffer) :
    Leaves dst (fromSource maxChunk source dst) := by
  by_cases hroom : dst.room = 0
  · rw [fromSource_full hroom]
    rfl
  · rcases hread : Source.read source (List.replicate (lent maxChunk dst.room) 0) with
      ⟨report, slice, source'⟩
    rw [fromSource_of_read hroom hread]
    fun_cases ofRead
    case case3 n hover hpos hplace =>
      have hpos := (Chunk.ofData (slice.take n)).length_wire_pos
      show dst.length < (dst.append (Chunk.ofData (slice.take n)).wire).length
      rw [Buffer.length_append]
      omega
    all_goals rfl

/-- Nothing but a chunk in place goes into the buffer. -/
theorem dst_of_unwritten {maxChunk : Nat} {source source' : σ} {dst dst' : Buffer}
    {cut : Cut} (hcut : fromSource maxChunk source dst = (cut, source', dst'))
    (hnot : cut ≠ .written) : dst' = dst := by
  have hleaves := fromSource_leaves maxChunk source dst
  rw [hcut] at hleaves
  cases cut with
  | written => exact absurd rfl hnot
  | held _ | stalled | ended | failed _ => exact hleaves

end Cut

/-! ## Chunked bodies -/

namespace ChunkedBody

variable {σ : Type}

theorem send_length (c : ChunkedBody) (f : InFlight) (dst : Buffer) :
    dst.length ≤ (c.send f dst).2.2.length := by
  rw [send_eq]
  split <;> rw [Buffer.length_append] <;> exact Nat.le_add_right _ _

theorem send_gains {c : ChunkedBody} {f : InFlight} {dst : Buffer}
    (hrest : f.rest ≠ []) (hroom : 0 < dst.room) :
    dst.length < (c.send f dst).2.2.length := by
  have hpos := List.length_pos_iff.mpr hrest
  rw [send_eq]
  split <;> rw [Buffer.length_append]
  · omega
  · rw [List.length_take]
    omega

theorem rest_ne_nil_of_new (chunk : Chunk) :
    InFlight.rest { chunk := chunk } ≠ [] := by
  rw [InFlight.rest, List.drop_zero]
  exact List.length_pos_iff.mp chunk.length_wire_pos

theorem sendLast_orderly (c : ChunkedBody) (supply : Supply σ) (dst : Buffer) :
    (c.sendLast supply dst).Orderly dst := by
  have hlen := c.send_length { chunk := Chunk.last } dst
  unfold sendLast
  split <;> next heq => rw [heq] at hlen; exact ⟨hlen, by simp⟩

theorem sendLast_gains (c : ChunkedBody) (supply : Supply σ) {dst : Buffer}
    (hroom : 0 < dst.room) :
    dst.length < (c.sendLast supply dst).dst.length := by
  have hlen := send_gains (c := c) (rest_ne_nil_of_new Chunk.last) hroom
  unfold sendLast
  split <;> next heq => rw [heq] at hlen; exact hlen

theorem drainQueue_orderly (c : ChunkedBody) (body : Option σ) (queue : ChunkQueue)
    (dst : Buffer) :
    (c.drainQueue body queue dst).Orderly dst := by
  fun_induction drainQueue c body queue dst with
  | case1 c queue dst queue' htake => exact ⟨Nat.le_refl _, by simp⟩
  | case2 c queue dst queue' htake => exact sendLast_orderly c _ dst
  | case3 c queue dst chunk queue' htake c' dst' hsend
  | case4 c queue dst chunk queue' htake c' dst' hsend hdone =>
    have hlen := c.send_length { chunk := chunk } dst
    rw [hsend] at hlen
    exact ⟨hlen, by simp⟩
  | case5 c queue dst chunk queue' htake c' dst' hsend hdone ih =>
    have hlen := c.send_length { chunk := chunk } dst
    rw [hsend] at hlen
    exact ih.trans hlen

/-- A queue that has something to give, be it the end, adds to the buffer. -/
theorem drainQueue_gains {c : ChunkedBody} {body : Option σ} {queue : ChunkQueue}
    {dst : Buffer} (hroom : 0 < dst.room) :
    (∃ queue', queue.take = (.pending, queue')
        ∧ c.drainQueue body queue dst = ⟨.ok .inProgress, c, ⟨body, some queue'⟩, dst⟩)
      ∨ dst.length < (c.drainQueue body queue dst).dst.length := by
  rw [drainQueue_eq]
  rcases queue.take with ⟨chunk | _ | _, queue'⟩
  · refine .inr ?_
    have hlen := send_gains (c := c) (rest_ne_nil_of_new chunk) hroom
    simp only
    rcases hsend : c.send { chunk := chunk } dst with ⟨_ | _, c', dst'⟩ <;>
      rw [hsend] at hlen
    · exact hlen
    · simp only
      split
      · exact hlen
      · exact Nat.lt_of_lt_of_le hlen
          (drainQueue_orderly c' body queue' dst').length_le
  · exact .inl ⟨queue', rfl, rfl⟩
  · exact .inr (sendLast_gains c _ hroom)

theorem afterBody_orderly (c : ChunkedBody) (supply : Supply σ) (dst : Buffer) :
    (c.afterBody supply dst).Orderly dst := by
  unfold afterBody
  split
  · exact sendLast_orderly c supply dst
  · exact drainQueue_orderly c _ _ dst

variable [Source σ]

theorem drainBody_orderly (c : ChunkedBody) (source : σ) (queue : Option ChunkQueue)
    (dst : Buffer) :
    (c.drainBody source queue dst).Orderly dst := by
  fun_induction drainBody c source queue dst with
  | case1 c source dst source' dst' hcut ih =>
    have hleaves := Cut.fromSource_leaves c.maxChunk source dst
    rw [hcut] at hleaves
    exact ih.trans (Nat.le_of_lt hleaves)
  | case2 c source dst chunk source' dst' hcut c' dst'' hsend =>
    obtain rfl := Cut.dst_of_held hcut
    have hlen := c.send_length { chunk := chunk } dst'
    rw [hsend] at hlen
    exact ⟨hlen, by simp⟩
  | case3 c source dst chunk source' dst' hcut c' dst'' hsend ih =>
    obtain rfl := Cut.dst_of_held hcut
    have hlen := c.send_length { chunk := chunk } dst'
    rw [hsend] at hlen
    exact ih.trans hlen
  | case4 c source dst source' dst' hcut =>
    obtain rfl := Cut.dst_of_unwritten hcut (by simp)
    exact ⟨Nat.le_refl _, by simp⟩
  | case5 c source dst source' dst' hcut =>
    obtain rfl := Cut.dst_of_unwritten hcut (by simp)
    exact afterBody_orderly _ _ _
  | case6 c source dst failure source' dst' hcut =>
    obtain rfl := Cut.dst_of_unwritten hcut (by simp)
    have hfailure := Cut.failure_of_fromSource (congrArg Prod.fst hcut)
    exact ⟨Nat.le_refl _, fun n heq => hfailure n (Except.error.inj heq)⟩

theorem next_orderly (c : ChunkedBody) (supply : Supply σ) (dst : Buffer) :
    (c.next supply dst).Orderly dst := by
  unfold next
  split
  · exact drainBody_orderly c _ _ dst
  · exact afterBody_orderly c supply dst

theorem write_orderly (c : ChunkedBody) (supply : Supply σ) (dst : Buffer) :
    (c.write supply dst).Orderly dst := by
  unfold write
  split
  · exact ⟨Nat.le_refl _, by simp⟩
  · split
    · exact next_orderly c supply dst
    · next f hf =>
      have hlen := c.send_length f dst
      split
      · next heq =>
        rw [heq] at hlen
        exact ⟨hlen, by simp⟩
      · next heq =>
        rw [heq] at hlen
        split
        · exact ⟨hlen, by simp⟩
        · exact (next_orderly _ supply _).trans hlen

end ChunkedBody

/-! ## Messages -/

theorem Payload.write_orderly {σ : Type} [Source σ] (b : Payload) (supply : Supply σ)
    (dst : Buffer) :
    (b.write supply dst).Orderly dst := by
  cases b with
  | fixed f =>
    exact ⟨(f.write_orderly supply dst).length_le,
      (f.write_orderly supply dst).failure⟩
  | chunked c =>
    exact ⟨(c.write_orderly supply dst).length_le,
      (c.write_orderly supply dst).failure⟩
  | empty => exact ⟨Nat.le_refl _, by simp [write]⟩

theorem Encoder.writeBody_orderly {σ : Type} [Source σ] (e : Encoder) (b : Payload)
    (supply : Supply σ) (dst : Buffer) : (e.writeBody b supply dst).Orderly dst :=
  ⟨(b.write_orderly supply dst).length_le, (b.write_orderly supply dst).failure⟩

theorem Encoder.write_orderly {σ : Type} [Source σ] (e : Encoder) (supply : Supply σ)
    (dst : Buffer) :
    (e.write supply dst).Orderly dst := by
  unfold write
  cases e.phase with
  | head head =>
    have hlen : dst.length ≤ (head.write dst).2.length := by
      rw [(head.write_spec dst).1, Buffer.length_append]
      exact Nat.le_add_right _ _
    simp only
    split
    · exact (e.writeBody_orderly _ supply _).trans hlen
    · exact ⟨hlen, by simp⟩
  | body b => exact e.writeBody_orderly b supply dst
  | done => exact ⟨Nat.le_refl _, by simp⟩
  | failed => exact ⟨Nat.le_refl _, by simp⟩

end HttpWire
