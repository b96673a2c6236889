import HttpWire.Proofs.Copying
import HttpWire.Proofs.Recording

/-!
# What a body reads

One call reads a body of a declared length as often as it has to. What the call
does is therefore told by the list of its reads, and every entry follows from
those before it: how long the slice is that is lent, and what a report comes to
(`FixedBody.Reads`). The bytes that have arrived before a read are the count that
everything else is measured by, so the same law holds of the first read and of a
later one, and a list of reads is put together from its end: a read that ends the
call, or one that brings data in front of the rest (`FixedBody.Fetched.cons`).
`FixedBody.fill_filled` says that the loop is such a list.

A chunk is cut by one read, so what an attempt accounts for is what that read
handed out (`Cut.fromSource_spec`). An attempt that reports a chunk accounts for
exactly the bytes that the source handed out, any other attempt has handed out
nothing and left the buffer as it was, and an attempt finds the end only where
the source reported it.
-/

namespace HttpWire

namespace FixedBody

/-- A read when `written` of `length` bytes have arrived and `room` bytes fit:
it is lent as many as are missing and fit, at least one, and ends the call
unless it brings data. -/
def Reads (length written room : Nat) (result : Except Failure Progress)
    (event : SourceEvent) (after : List SourceEvent) : Prop :=
  let offered := min (length - written) room
  0 < offered ∧ ∃ report slice,
    event = .read offered report slice ∧ slice.length = offered
    ∧ match report with
      | .data n =>
        (offered < n → after = [] ∧ result = .error (.overread n offered))
          ∧ (n = 0 → after = [] ∧ result = .ok .inProgress)
      | .pending => after = [] ∧ result = .ok .inProgress
      | .ended => after = [] ∧ result = .error (.shortBody length written)
      | .failed e => after = [] ∧ result = .error (.io e)

/-- The reads of one call, begun with `written` of `length` bytes and `room` bytes
of room, and what came of them: the bytes that were appended, and the result. -/
structure Fetched (length written room : Nat) (events : List SourceEvent) (got : Bytes)
    (result : Except Failure Progress) : Prop where
  handed : events.flatMap SourceEvent.handed = got
  fits : got.length ≤ room
  le_length : written + got.length ≤ length
  done : result = .ok .done ↔ written + got.length = length
  /-- a call whose reads all brought data has used up the length or the room -/
  reached : (∀ event ∈ events, event.handed ≠ []) →
    written + got.length = length ∨ got.length = room ∧ result = .ok .inProgress
  reads : ∀ before event after, events = before ++ event :: after →
    Reads length (written + (before.flatMap SourceEvent.handed).length)
      (room - (before.flatMap SourceEvent.handed).length) result event after

section Lists

variable {length written room n : Nat} {events : List SourceEvent} {got slice : Bytes}
  {event : SourceEvent} {result : Except Failure Progress}

/-- Nothing is read when nothing is missing or nothing fits. -/
theorem Fetched.none (hle : written ≤ length)
    (hdone : result = .ok .done ↔ written = length)
    (hreached : written = length ∨ 0 = room ∧ result = .ok .inProgress) :
    Fetched length written room [] [] result where
  handed := rfl
  fits := Nat.zero_le _
  le_length := hle
  done := hdone
  reached _ := hreached
  reads before event after h := absurd h.symm (by simp)

/-- A read without data is the last one of its call. -/
theorem Fetched.stop (h : Reads length written room result event [])
    (hhanded : event.handed = []) (hresult : result ≠ .ok .done) :
    Fetched length written room [event] [] result where
  handed := by rw [List.flatMap_singleton, hhanded]
  fits := Nat.zero_le _
  le_length := by
    have hpos := h.1
    simp only [List.length_nil]
    omega
  done := by
    have hpos := h.1
    simp only [List.length_nil, hresult, false_iff]
    omega
  reached hall := absurd hhanded (hall event List.mem_cons_self)
  reads before event' after hsplit := by
    cases before with
    | nil =>
      cases hsplit
      exact h
    | cons first before =>
      cases before <;> cases hsplit

/-- A read with data comes before what the call goes on to read. -/
theorem Fetched.cons (hn : 0 < n) (hle : n ≤ min (length - written) room)
    (hslice : slice.length = min (length - written) room)
    (h : Fetched length (written + n) (room - n) events got result) :
    Fetched length written room
      (.read (min (length - written) room) (.data n) slice :: events)
      (slice.take n ++ got) result := by
  have hhanded : SourceEvent.handed
      (.read (min (length - written) room) (.data n) slice) = slice.take n :=
    if_pos hle
  have htake : (slice.take n).length = n := by rw [List.length_take]; omega
  have hgot : (slice.take n ++ got).length = n + got.length := by
    rw [List.length_append, htake]
  have hfits := h.fits
  have hbound := h.le_length
  refine ⟨?_, by omega, by omega, ?_, ?_, ?_⟩
  · rw [List.flatMap_cons, hhanded, h.handed]
  · rw [h.done, hgot, Nat.add_assoc]
  · intro hall
    have hreached :=
      h.reached (fun event hevent => hall event (List.mem_cons_of_mem _ hevent))
    rw [hgot, ← Nat.add_assoc]
    exact hreached.imp_right (And.imp_left (by omega))
  · intro before event after hsplit
    cases before with
    | nil =>
      cases hsplit
      refine ⟨Nat.lt_of_lt_of_le hn hle, .data n, slice, rfl, hslice, ?_, ?_⟩
      · exact fun hover => absurd hle (Nat.not_le.mpr hover)
      · exact fun hzero => absurd hzero (Nat.ne_of_gt hn)
    | cons first before =>
      cases hsplit
      have hreads := h.reads before event after rfl
      rwa [List.flatMap_cons, hhanded, List.length_append, htake, ← Nat.add_assoc,
        ← Nat.sub_sub]

end Lists

variable {σ : Type}

/-- The loop has read so, appended what it got, and counted it. -/
def Filled (f : FixedBody) (r : Recorded σ) (queue : Option ChunkQueue) (dst : Buffer)
    (w : Written FixedBody (Recorded σ)) : Prop :=
  ∃ r' events got,
    w.dst = dst.append got ∧ w.state = { f with written := f.written + got.length }
    ∧ w.supply = ⟨some r', queue⟩ ∧ r'.events = r.events ++ events
    ∧ Fetched f.length f.written dst.room events got w.result

section Rounds

variable {f : FixedBody} {r r' : Recorded σ} {queue : Option ChunkQueue}
  {dst filled : Buffer} {slice : Bytes} {result : Except Failure Progress}

/-- A round whose read ends the call takes back the slice that it lent. -/
theorem filled_of_stop {report : ReadReport}
    (hback : filled.truncate dst.length = dst)
    (hevents : r'.events
      = r.events ++ [.read (min (f.length - f.written) dst.room) report slice])
    (hfetched : Fetched f.length f.written dst.room
      [.read (min (f.length - f.written) dst.room) report slice] [] result) :
    Filled f r queue dst ⟨result, f, ⟨some r', queue⟩, filled.truncate dst.length⟩ :=
  ⟨r', _, [], by rw [Buffer.append_nil, hback], rfl, rfl, hevents, hfetched⟩

/-- A round that gets data keeps it and goes on behind it. -/
theorem filled_of_data {n : Nat} {w : Written FixedBody (Recorded σ)} (hn : 0 < n)
    (hle : n ≤ min (f.length - f.written) dst.room)
    (hslice : slice.length = min (f.length - f.written) dst.room)
    (hkept : ∀ n, filled.truncate (dst.length + n) = dst.append (slice.take n))
    (hevents : r'.events
      = r.events ++ [.read (min (f.length - f.written) dst.room) (.data n) slice])
    (h : Filled { f with written := f.written + n } r' queue
      (filled.truncate (dst.length + n)) w) :
    Filled f r queue dst w := by
  have htake : (slice.take n).length = n := by rw [List.length_take]; omega
  obtain ⟨r'', events, got, hdst, hstate, hsupply, hmore, hfetched⟩ := h
  rw [hkept n] at hdst hfetched
  rw [Buffer.room_append, htake] at hfetched
  refine ⟨r'', _, slice.take n ++ got, ?_, ?_, hsupply, ?_,
    .cons hn hle hslice hfetched⟩
  · rw [hdst, Buffer.append_append]
  · rw [hstate, List.length_append, htake, Nat.add_assoc]
  · rw [hmore, hevents, List.append_assoc]
    rfl

end Rounds

theorem fill_filled [Source σ] (f : FixedBody) (r : Recorded σ)
    (queue : Option ChunkQueue) (dst : Buffer) (hle : f.written ≤ f.length) :
    Filled f r queue dst (f.fill r queue dst) := by
  have hpos : ∀ {f : FixedBody} {dst : Buffer}, ¬ f.length - f.written = 0 →
      ¬ dst.room = 0 → 0 < min (f.length - f.written) dst.room := by
    intro f dst hmissing hroom
    omega
  fun_induction fill f r queue dst with
  | case1 f r dst hdone =>
    have hwritten : f.written = f.length := by omega
    exact ⟨r, [], [], by simp, rfl, rfl, by simp,
      .none hle (by simp [hwritten]) (.inl hwritten)⟩
  | case2 f r dst hdone hroom =>
    exact ⟨r, [], [], by simp, rfl, rfl, by simp,
      .none hle (by simp; omega) (.inr ⟨hroom.symm, rfl⟩)⟩
  | case3 f r dst hdone hroom size n filled r' hread hover =>
    obtain ⟨slice, hslice, hlen, hback, hkept⟩ :=
      Buffer.lend_reads (Nat.min_le_right _ _) hread
    refine filled_of_stop hback (Recorded.events_of_read hslice)
      (.stop ⟨hpos hdone hroom, .data n, slice, rfl, hlen, ?_, ?_⟩ ?_ (by simp))
    · exact fun _ => ⟨rfl, rfl⟩
    · rintro rfl
      exact absurd hover (Nat.not_lt_zero _)
    · exact if_neg (Nat.not_le.mpr hover)
  | case4 f r dst hdone hroom size filled r' hread hover =>
    obtain ⟨slice, hslice, hlen, hback, hkept⟩ :=
      Buffer.lend_reads (Nat.min_le_right _ _) hread
    refine filled_of_stop hback (Recorded.events_of_read hslice)
      (.stop ⟨hpos hdone hroom, .data 0, slice, rfl, hlen, ?_, ?_⟩ ?_ (by simp))
    · exact fun hless => absurd hless (Nat.not_lt_zero _)
    · exact fun _ => ⟨rfl, rfl⟩
    · simp [SourceEvent.handed]
  | case5 f r dst hdone hroom size n filled r' hread hover hn ih =>
    obtain ⟨slice, hslice, hlen, hback, hkept⟩ :=
      Buffer.lend_reads (Nat.min_le_right _ _) hread
    simp only [size] at hover
    exact filled_of_data (Nat.pos_of_ne_zero hn) (Nat.not_lt.mp hover) hlen hkept
      (Recorded.events_of_read hslice)
      (ih (by simp only; omega))
  | case6 f r dst hdone hroom size filled r' hread
  | case7 f r dst hdone hroom size filled r' hread
  | case8 f r dst hdone hroom size e filled r' hread =>
    obtain ⟨slice, hslice, hlen, hback, hkept⟩ :=
      Buffer.lend_reads (Nat.min_le_right _ _) hread
    exact filled_of_stop hback (Recorded.events_of_read hslice)
      (.stop ⟨hpos hdone hroom, _, slice, rfl, hlen, rfl, rfl⟩ rfl (by simp))

end FixedBody

/-! ## Cutting chunks -/

namespace Cut

variable {σ : Type}

/-- What an attempt to cut a chunk means: a chunk that was written or is held
carries what the source handed out, and otherwise nothing was handed out and
nothing written. The end is the one that the source reported. -/
def Accounts (maxChunk : Nat) (r : Recorded σ)
    (dst : Buffer) : Cut × Recorded σ × Buffer → Prop
  | (.written, r', dst') =>
    ∃ d, d ≠ [] ∧ d.length ≤ maxChunk ∧ r'.handed = r.handed ++ d
      ∧ dst' = dst.append (Chunk.ofData d).wire
      ∧ (Chunk.ofData d).wire.length ≤ dst.room
  | (.held chunk, r', dst') =>
    ∃ d, d ≠ [] ∧ d.length ≤ maxChunk ∧ r'.handed = r.handed ++ d
      ∧ chunk = Chunk.ofData d ∧ dst' = dst
  | (.ended, r', dst') => r'.handed = r.handed ∧ dst' = dst ∧ r'.ended = true
  | (_, r', dst') => r'.handed = r.handed ∧ dst' = dst

theorem accounts_ofRead {maxChunk size : Nat} {inPlace : Bool} {r r' : Recorded σ}
    {dst : Buffer} {report : ReadReport} {slice : Bytes} (hmax : size ≤ maxChunk)
    (hslice : slice.length = size)
    (hfit : inPlace = true → Hex.width size + size + lineEnds ≤ dst.room)
    (hevents : r'.events = r.events ++ [.read size report slice]) :
    Accounts maxChunk r dst
      ((ofRead size inPlace dst slice report).1, r',
        (ofRead size inPlace dst slice report).2) := by
  have hhanded :
      r'.handed = r.handed ++ (SourceEvent.read size report slice).handed := by
    rw [Recorded.handed_of_events hevents, List.flatMap_singleton]
  cases report with
  | data n =>
    simp only [SourceEvent.handed] at hhanded
    simp only [ofRead]
    split
    · next hover =>
      rw [if_neg (Nat.not_le.mpr hover), List.append_nil] at hhanded
      exact ⟨hhanded, rfl⟩
    · next hle =>
      rw [if_pos (Nat.not_lt.mp hle)] at hhanded
      split
      · next hzero =>
        rw [hzero, List.take_zero, List.append_nil] at hhanded
        exact ⟨hhanded, rfl⟩
      · next hpos =>
        have hlen : (slice.take n).length = n := by rw [List.length_take]; omega
        have hne : slice.take n ≠ [] := by
          intro hnil
          rw [hnil, List.length_nil] at hlen
          exact hpos hlen.symm
        cases inPlace with
        | true =>
          refine ⟨slice.take n, hne, by omega, hhanded, rfl, ?_⟩
          have hwidth : Hex.width n ≤ Hex.width size := Hex.width_mono (by omega)
          have hroom := hfit rfl
          unfold lineEnds at hroom
          rw [Chunk.length_wire_ofData hne, hlen]
          omega
        | false => exact ⟨slice.take n, hne, by omega, hhanded, rfl, rfl⟩
  | ended =>
    refine ⟨by simpa [SourceEvent.handed] using hhanded, rfl, ?_⟩
    exact (Recorded.ended_of_events hevents).trans (Bool.or_true _)
  | pending | failed e => exact ⟨by simpa [SourceEvent.handed] using hhanded, rfl⟩

theorem fromSource_spec [Source σ] (maxChunk : Nat) (r : Recorded σ) (dst : Buffer) :
    Accounts maxChunk r dst (fromSource maxChunk r dst) := by
  have hfit : (mostData maxChunk dst.room != 0) = true →
      Hex.width (lent maxChunk dst.room) + lent maxChunk dst.room + lineEnds
          ≤ dst.room := by
    intro hmost
    rw [bne_iff_ne] at hmost
    rw [lent, if_neg hmost]
    exact mostData_fits hmost
  by_cases hroom : dst.room = 0
  · rw [fromSource_full hroom]
    exact ⟨rfl, rfl⟩
  · have hslice := Source.length_read r (List.replicate (lent maxChunk dst.room) 0)
    rcases hread : Source.read r (List.replicate (lent maxChunk dst.room) 0) with
      ⟨report, slice, r'⟩
    rw [hread, List.length_replicate] at hslice
    rw [fromSource_of_read hroom hread]
    exact accounts_ofRead (lent_le _ _) hslice hfit (Recorded.events_of_read hread)

end Cut

end HttpWire
