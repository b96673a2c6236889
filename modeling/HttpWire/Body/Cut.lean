import HttpWire.Chunk.Wire
import HttpWire.Supply

/-!
# Cutting a chunk from a body source

A chunk cut from a source is not known in size before it is read. Where the output
buffer has room for a whole chunk, the data is read straight into it, behind room
for the widest size line that could be needed, and moved left when the size turns
out to need fewer digits. Where it has not, the data is read beside the buffer and
becomes a chunk in flight. Both ways give the same bytes.
-/

namespace HttpWire

/-- What one attempt to cut a chunk came to. -/
inductive Cut
  /-- a whole chunk was written in place -/
  | written
  /-- a chunk was read that is still to be written -/
  | held (chunk : Chunk)
  /-- the source had nothing to hand out -/
  | stalled
  /-- the source is at its end -/
  | ended
  | failed (failure : Failure)
  deriving DecidableEq

namespace Cut

variable {σ : Type} [Source σ]

/-- The bytes around the data of a chunk beside its digits: two line ends. -/
def lineEnds : Nat := 4

/-- The most data that a chunk written in place can have: it has to fit with the
widest size line that the room could need. -/
def mostData (maxChunk room : Nat) : Nat :=
  min (room - (Hex.width room + lineEnds)) maxChunk

/-- Makes a chunk of `n` data bytes that lie at `dataStart`, behind the room
reserved for the size line from `start` on: moves the data up to the end of the
size line, writes that line, and ends the data. -/
def closeUp (start dataStart n : Nat) (filled : Buffer) : Buffer :=
  let headEnd := start + Hex.width n + 2
  let moved :=
    if headEnd < dataStart then filled.copyWithin dataStart n headEnd else filled
  let sized := (moved.modifyFrom start (Hex.write n)).put (headEnd - 2) Bytes.crlf
  (sized.truncate (headEnd + n)).append Bytes.crlf

/-- Cuts a chunk of at most `most` bytes in place. -/
def inPlace (most : Nat) (source : σ) (dst : Buffer) : Cut × σ × Buffer :=
  let start := dst.length
  let dataStart := start + Hex.width most + 2
  match dst.lend dataStart most source with
  | (.data n, filled, source) =>
    if most < n then (.failed (.overread n most), source, filled.truncate start)
    else if n = 0 then (.stalled, source, filled.truncate start)
    else (.written, source, closeUp start dataStart n filled)
  | (.pending, filled, source) => (.stalled, source, filled.truncate start)
  | (.ended, filled, source) => (.ended, source, filled.truncate start)
  | (.failed e, filled, source) => (.failed (.io e), source, filled.truncate start)

/-- Reads a chunk of at most `maxChunk` bytes beside the output buffer, into a
slice of that size. That there is memory for such a slice is taken for granted
here: what comes of a size that cannot be had is not told. -/
def beside (maxChunk : Nat) (source : σ) : Cut × σ :=
  match Source.read source (List.replicate maxChunk 0) with
  | (.data n, slice, source) =>
    if maxChunk < n then (.failed (.overread n maxChunk), source)
    else if n = 0 then (.stalled, source)
    else (.held { data := slice.take n }, source)
  | (.pending, _, source) => (.stalled, source)
  | (.ended, _, source) => (.ended, source)
  | (.failed e, _, source) => (.failed (.io e), source)

/-- Cuts a chunk: in place if the room allows for any data there, beside the
buffer if there is less room, and not at all without room. -/
def fromSource (maxChunk : Nat) (source : σ) (dst : Buffer) : Cut × σ × Buffer :=
  if dst.room = 0 then (.stalled, source, dst)
  else if mostData maxChunk dst.room = 0 then
    let (cut, source) := beside maxChunk source
    (cut, source, dst)
  else inPlace (mostData maxChunk dst.room) source dst

/-- The room that a chunk written in place asks for is there. -/
theorem mostData_fits {maxChunk room : Nat} (h : mostData maxChunk room ≠ 0) :
    Hex.width (mostData maxChunk room) + mostData maxChunk room + lineEnds ≤ room := by
  have hle : mostData maxChunk room ≤ room - (Hex.width room + lineEnds) :=
    Nat.min_le_left _ _
  have hwidth : Hex.width (mostData maxChunk room) ≤ Hex.width room :=
    Hex.width_mono (Nat.le_trans hle (Nat.sub_le _ _))
  omega

/-- Closing up leaves the size line, the data and the line end, and reserves no
more than the line end. -/
theorem length_closeUp {start dataStart n : Nat} {filled : Buffer}
    (hhead : start + Hex.width n + 2 ≤ dataStart)
    (hdata : dataStart + n ≤ filled.length) :
    (closeUp start dataStart n filled).length = start + Hex.width n + n + 4
      ∧ (closeUp start dataStart n filled).capacity
        = max filled.capacity (start + Hex.width n + n + 4) := by
  unfold closeUp
  simp only
  generalize hm : (if start + Hex.width n + 2 < dataStart then
    filled.copyWithin dataStart n (start + Hex.width n + 2) else filled) = moved
  have hmoved : moved.length = filled.length ∧ moved.capacity = filled.capacity := by
    rw [← hm]
    split
    · exact Buffer.length_copyWithin (by omega)
    · exact ⟨rfl, rfl⟩
  have hsized : (moved.modifyFrom start (Hex.write n)).length = moved.length
      ∧ (moved.modifyFrom start (Hex.write n)).capacity = moved.capacity := by
    refine Buffer.length_modifyFrom ?_ (by omega)
    have hlen : moved.length = moved.bytes.length := rfl
    simp only [Hex.write, List.length_append, Hex.length_digits, List.length_drop]
    omega
  have hcrlf : Bytes.crlf.length = 2 := rfl
  have hput := @Buffer.length_put (moved.modifyFrom start (Hex.write n))
    (start + Hex.width n + 2 - 2) Bytes.crlf (by omega)
  rw [Buffer.length_append, Buffer.capacity_append, Buffer.length_truncate,
    Buffer.capacity_truncate]
  omega

/-- A chunk written in place takes room and reserves none. -/
theorem room_inPlace {most : Nat} {source source' : σ} {dst dst' : Buffer}
    (hfit : Hex.width most + most + lineEnds ≤ dst.room)
    (h : inPlace most source dst = (.written, source', dst')) :
    dst'.room < dst.room := by
  have hlend := Buffer.length_lend dst (dst.length + Hex.width most + 2) most source
  unfold inPlace at h
  simp only at h
  split at h
  · next n filled source'' heq =>
    rw [heq] at hlend
    simp only at hlend
    split at h
    · simp at h
    · next hle =>
      split at h
      · simp at h
      · next hpos =>
        have hwidth : Hex.width n ≤ Hex.width most := Hex.width_mono (by omega)
        have hclose := @length_closeUp dst.length (dst.length + Hex.width most + 2) n
          filled (by omega) (by omega)
        simp only [Prod.mk.injEq, true_and] at h
        rw [← h.2]
        unfold lineEnds at hfit
        simp only [Buffer.room] at hfit ⊢
        omega
  all_goals simp at h

/-- Reading beside the buffer writes nothing in it. -/
theorem beside_ne_written (maxChunk : Nat) (source : σ) :
    (beside maxChunk source).1 ≠ .written := by
  unfold beside
  split
  · split
    · simp
    · split <;> simp
  all_goals simp

/-- A chunk that is cut and written takes room. -/
theorem room_fromSource {maxChunk : Nat} {source source' : σ} {dst dst' : Buffer}
    (h : fromSource maxChunk source dst = (.written, source', dst')) :
    dst'.room < dst.room := by
  unfold fromSource at h
  split at h
  · simp at h
  · split at h
    · have hne := beside_ne_written maxChunk source
      simp only [Prod.mk.injEq] at h
      exact absurd h.1 hne
    · next hmost => exact room_inPlace (mostData_fits hmost) h

/-- A chunk that is cut and held leaves the buffer alone. -/
theorem dst_of_held {maxChunk : Nat} {source source' : σ} {dst dst' : Buffer}
    {chunk : Chunk}
    (h : fromSource maxChunk source dst = (.held chunk, source', dst')) :
    dst' = dst := by
  unfold fromSource at h
  split at h
  · simp at h
  · split at h
    · simp only [Prod.mk.injEq] at h
      exact h.2.2.symm
    · unfold inPlace at h
      simp only at h
      split at h
      · split at h
        · simp at h
        · split at h <;> simp at h
      all_goals simp at h

end Cut

end HttpWire
