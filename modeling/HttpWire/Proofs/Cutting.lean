import HttpWire.Body.Cut
import HttpWire.Proofs.Copying

/-!
# A chunk cut in place is the plain one

A chunk is cut where its data is read: behind room for a size line that may turn
out too wide. Closing it up moves the data left over itself, writes the size line
over the gap and ends the data. What lies in the buffer then is the chunk's plain
written form and nothing else, neither a byte of the slice beyond what was
reported nor of the gap (`Cut.closeUp_eq`).

So it does not show where a chunk was cut. An attempt is one read,
whose slice is as long for every source, and what the report says of
the slice (`Cut.fromSource_of_read`); whatever else is said of cutting
is read off `Cut.ofRead`.
-/

namespace HttpWire

/-- The chunk that carries these bytes and nothing else. -/
def Chunk.ofData (data : Bytes) : Chunk :=
  { data := data }

theorem Chunk.wire_ofData {data : Bytes} (h : data ≠ []) :
    (ofData data).wire
      = Hex.digits data.length ++ (Bytes.crlf ++ (data ++ Bytes.crlf)) := by
  have hlast : (ofData data).isLast = false := by
    simpa [ofData, isLast] using h
  unfold wire pieces
  rw [if_neg (by simp [hlast])]
  simp [ofData, sizeLine]

theorem Chunk.length_wire_ofData {data : Bytes} (h : data ≠ []) :
    (ofData data).wire.length = Hex.width data.length + data.length + 4 := by
  have hcrlf : Bytes.crlf.length = 2 := rfl
  rw [wire_ofData h]
  simp only [List.length_append, Hex.length_digits, hcrlf]
  omega

namespace Cut

/-- Moving the data up to the end of its size line keeps what
stands before the gap. -/
theorem moved_bytes {front gap slice : Bytes} {filled : Buffer} {n : Nat}
    (headEnd : Nat) (hbytes : filled.bytes = front ++ (gap ++ slice))
    (hfront : front.length ≤ headEnd) (hgap : headEnd ≤ front.length + gap.length)
    (hn : n ≤ slice.length) :
    let moved :=
      if headEnd < front.length + gap.length then
        filled.copyWithin (front.length + gap.length) n headEnd
      else filled
    moved.bytes.take front.length = front
      ∧ (moved.bytes.drop headEnd).take n = slice.take n := by
  have hdata : filled.bytes.drop (front.length + gap.length) = slice := by
    rw [hbytes, ← List.drop_drop, List.drop_left, List.drop_left]
  intro moved
  by_cases hless : headEnd < front.length + gap.length
  · have hmoved : moved.bytes = filled.bytes.take headEnd
        ++ (slice.take n ++ (filled.bytes.drop headEnd).drop n) := by
      simp only [moved, if_pos hless, Buffer.copyWithin, Buffer.bytes_put, hdata,
        List.length_take, Nat.min_eq_left hn]
    have hlen : (filled.bytes.take headEnd).length = headEnd := by
      rw [List.length_take, hbytes]
      simp only [List.length_append]
      omega
    refine ⟨?_, ?_⟩
    · rw [hmoved, List.take_append_of_le_length (by omega), List.take_take,
        Nat.min_eq_left hfront, hbytes, List.take_left]
    · rw [hmoved, List.drop_left' hlen, List.take_append_of_le_length (by simp [hn]),
        List.take_take, Nat.min_self]
  · have heq : headEnd = front.length + gap.length := by omega
    have hmoved : moved = filled := if_neg hless
    rw [hmoved, heq, hdata, hbytes, List.take_left]
    exact ⟨rfl, rfl⟩

/-- Writing the size line before data that stands at its place, and
ending the data. -/
theorem sized_bytes {front data : Bytes} {moved : Buffer} {start n : Nat}
    (hstart : front.length = start) (hfront : moved.bytes.take start = front)
    (hdata : (moved.bytes.drop (start + Hex.width n + 2)).take n = data) :
    ((((moved.modifyFrom start (Hex.write n)).put (start + Hex.width n + 2 - 2)
      Bytes.crlf).truncate
        (start + Hex.width n + 2 + n)).append Bytes.crlf).bytes
      = front ++ (Hex.digits n ++ (Bytes.crlf ++ (data ++ Bytes.crlf))) := by
  have hsized : (moved.modifyFrom start (Hex.write n)).bytes
      = (front ++ Hex.digits n) ++ moved.bytes.drop (start + Hex.width n) := by
    simp only [Buffer.modifyFrom, Buffer.holding, Hex.write, hfront, List.drop_drop,
      List.append_assoc]
  have hdigits : (front ++ Hex.digits n).length = start + Hex.width n := by
    rw [List.length_append, Hex.length_digits, hstart]
  have hline :
      (front ++ Hex.digits n ++ Bytes.crlf).length = start + Hex.width n + 2 := by
    rw [List.length_append, hdigits]
    rfl
  rw [Buffer.bytes_append, Buffer.bytes_truncate, Buffer.bytes_put, Nat.add_sub_cancel,
    hsized, List.take_left' hdigits, List.drop_left' hdigits,
    List.drop_drop, ← List.append_assoc _ Bytes.crlf, List.take_append,
    List.take_of_length_le (by omega), hline, Nat.add_sub_cancel_left,
    show start + Hex.width n + Bytes.crlf.length = start + Hex.width n + 2 from rfl,
    hdata]
  simp only [List.append_assoc]

/-- Closing up leaves the plain written form of the chunk behind what
the buffer held before. -/
theorem closeUp_eq {dst filled : Buffer} {gap slice : Bytes} {n : Nat}
    (hbytes : filled.bytes = dst.bytes ++ (gap ++ slice))
    (hcap : filled.capacity = dst.capacity) (hpos : n ≠ 0) (hn : n ≤ slice.length)
    (hgap : Hex.width n + 2 ≤ gap.length) (hfit : Hex.width n + n + 4 ≤ dst.room) :
    closeUp dst.length (dst.length + gap.length) n filled
      = dst.append (Chunk.ofData (slice.take n)).wire := by
  have hlen : (slice.take n).length = n := by rw [List.length_take]; omega
  have hne : slice.take n ≠ [] := by
    intro hnil
    rw [hnil, List.length_nil] at hlen
    exact hpos hlen.symm
  refine Buffer.eq_of_bytes_capacity ?_ ?_
  · rw [Chunk.wire_ofData hne, hlen, Buffer.bytes_append]
    have hmoved := moved_bytes (dst.bytes.length + Hex.width n + 2) hbytes (by omega)
      (by omega) hn
    exact sized_bytes rfl hmoved.1 hmoved.2
  · have hfilled : filled.length = dst.length + gap.length + slice.length := by
      simp only [Buffer.length, hbytes, List.length_append]
      omega
    have hclosed := @length_closeUp dst.length (dst.length + gap.length) n filled
      (by omega) (by omega)
    have hroom := dst.length_add_room
    rw [hclosed.2, Buffer.capacity_append, Chunk.length_wire_ofData hne, hlen, hcap]
    omega

/-- What a read of a slice of `size` bytes comes to, and the buffer then:
a chunk is written at once if it is cut in place, and in every other case
the buffer is as it was. -/
def ofRead (size : Nat) (inPlace : Bool) (dst : Buffer)
    (slice : Bytes) : ReadReport → Cut × Buffer
  | .data n =>
    if size < n then (.failed (.overread n size), dst)
    else if n = 0 then (.stalled, dst)
    else if inPlace then (.written, dst.append (Chunk.ofData (slice.take n)).wire)
    else (.held (Chunk.ofData (slice.take n)), dst)
  | .pending => (.stalled, dst)
  | .ended => (.ended, dst)
  | .failed e => (.failed (.io e), dst)

theorem report_of_ended {size : Nat} {inPlace : Bool} {dst : Buffer} {slice : Bytes}
    {report : ReadReport} (h : (ofRead size inPlace dst slice report).1 = .ended) :
    report = .ended := by
  revert h
  fun_cases ofRead <;> simp

variable {σ : Type} [Source σ]

theorem inPlace_eq {most : Nat} (source : σ) {dst : Buffer}
    (hfit : Hex.width most + most + lineEnds ≤ dst.room) :
    inPlace most source dst =
      let (report, slice, source) := Source.read source (List.replicate most 0)
      let (cut, dst) := ofRead most true dst slice report
      (cut, source, dst) := by
  have hroom := dst.length_add_room
  unfold lineEnds at hfit
  obtain ⟨filled, hlend, hbytes, hcap⟩ := Buffer.lend_spec source
    (show dst.length ≤ dst.length + Hex.width most + 2 by omega)
    (show dst.length + Hex.width most + 2 + most ≤ dst.capacity by omega)
  have hslice := Source.length_read source (List.replicate most 0)
  have hkept := Buffer.truncate_eq_self hbytes hcap
  rw [List.length_replicate] at hslice
  unfold inPlace
  simp only [hlend]
  generalize Source.read source (List.replicate most 0) = answer at hbytes hslice ⊢
  obtain ⟨report, slice, source'⟩ := answer
  simp only at hbytes hslice ⊢
  cases report with
  | data n =>
    simp only [ofRead, if_true, hkept]
    split
    · rfl
    · next hle =>
      split
      · rfl
      · next hpos =>
        have hwidth : Hex.width n ≤ Hex.width most := Hex.width_mono (by omega)
        have hgap : (List.replicate (dst.length + Hex.width most + 2 - dst.length)
            (0 : UInt8)).length
            = Hex.width most + 2 := by
          rw [List.length_replicate]
          omega
        have hclosed :=
          closeUp_eq (n := n) hbytes hcap hpos (by omega) (by omega) (by omega)
        rw [hgap, ← Nat.add_assoc] at hclosed
        rw [hclosed]
  | pending | ended | failed e => simp only [ofRead, hkept]

theorem beside_eq (maxChunk : Nat) (source : σ) (dst : Buffer) :
    ((beside maxChunk source).1, (beside maxChunk source).2, dst) =
      let (report, slice, source) := Source.read source (List.replicate maxChunk 0)
      let (cut, dst) := ofRead maxChunk false dst slice report
      (cut, source, dst) := by
  unfold beside
  rcases Source.read source (List.replicate maxChunk 0) with
    ⟨n | _ | _ | e, slice, source'⟩
  · simp only [ofRead]
    split
    · rfl
    · split <;> rfl
  all_goals rfl

/-- The size of the slice that an attempt with some room lends. -/
def lent (maxChunk room : Nat) : Nat :=
  if mostData maxChunk room = 0 then maxChunk else mostData maxChunk room

theorem lent_le (maxChunk room : Nat) : lent maxChunk room ≤ maxChunk := by
  unfold lent
  split
  · exact Nat.le_refl _
  · exact Nat.min_le_right _ _

theorem lent_pos {maxChunk : Nat} (h : 0 < maxChunk) (room : Nat) :
    0 < lent maxChunk room := by
  unfold lent
  split <;> omega

theorem fromSource_full {dst : Buffer} (h : dst.room = 0) (maxChunk : Nat)
    (source : σ) :
    fromSource maxChunk source dst = (.stalled, source, dst) :=
  if_pos h

/-- An attempt to cut a chunk with room for a byte is one read of a slice of one
length for every source, and what the report says of it. -/
theorem fromSource_of_read {maxChunk : Nat} {source source' : σ} {dst : Buffer}
    {report : ReadReport} {slice : Bytes} (hroom : dst.room ≠ 0)
    (hread : Source.read source (List.replicate (lent maxChunk dst.room) 0)
      = (report, slice, source')) :
    fromSource maxChunk source dst =
      ((ofRead (lent maxChunk dst.room) (mostData maxChunk dst.room != 0) dst slice
        report).1, source',
        (ofRead (lent maxChunk dst.room) (mostData maxChunk dst.room != 0) dst slice
          report).2) := by
  unfold lent at hread ⊢
  unfold fromSource
  rw [if_neg hroom]
  by_cases hmost : mostData maxChunk dst.room = 0
  · have hbeside := beside_eq maxChunk source dst
    rw [if_pos hmost] at hread
    rw [hread] at hbeside
    rw [if_pos hmost, if_pos hmost, hmost]
    exact hbeside
  · rw [if_neg hmost] at hread
    rw [if_neg hmost, if_neg hmost, inPlace_eq source (mostData_fits hmost), hread,
      bne_iff_ne.mpr hmost]

end Cut

end HttpWire
