import Mathlib.Algebra.GroupWithZero.Nat
import HttpWire.Proofs.Cutting
import HttpWire.Proofs.Numerals
import HttpWire.Source.Memory

/-!
# Where a cut chunk is put does not show

Data cut from a source becomes a chunk in one of two ways. With room for six bytes
or more it is read into the buffer itself, behind a gap that is wide enough for
any size line that may be needed. With less room nothing that carries data can
fit, so it is read beside the buffer and copied out from a cursor, over as many
buffers as that takes.

Both come to the same bytes (`Cut.placed_alike`): the numeral of the count that
the read reported, the data, and the two line ends. For the way over the cursor
the only fact that is needed is that a cursor goes on where it stopped, whatever
the sizes of the buffers are (`Cursor.writeThrough_eq`). The way in place was
computed before; what is left of it is arithmetic, that the gap and the most data
that is read behind it fit the room, and that six is the least room for which
there is such data at all.
-/

namespace HttpWire

/-! ## Copying over several buffers -/

/-- Copies into one buffer after another until all of the pieces are copied: the
bytes that were appended, and whether they are all. -/
def Cursor.writeThrough (pieces : List Bytes) : Cursor → List Buffer → Bytes × Bool
  | _, [] => ([], false)
  | cursor, dst :: more =>
    match cursor.write pieces dst with
    | (true, _, dst') => (dst'.bytes.drop dst.length, true)
    | (false, cursor', dst') =>
      let (appended, all) := writeThrough pieces cursor' more
      (dst'.bytes.drop dst.length ++ appended, all)

/-- What is appended over several buffers is the rest of the pieces, cut
at the sum of the rooms. -/
theorem Cursor.writeThrough_eq {pieces : List Bytes} {cursor : Cursor}
    (hrest : pieces.flatten.drop cursor.offset ≠ []) (later : List Buffer) :
    cursor.writeThrough pieces later =
      ((pieces.flatten.drop cursor.offset).take (later.map Buffer.room).sum,
        decide ((pieces.flatten.drop cursor.offset).length
          ≤ (later.map Buffer.room).sum)) := by
  induction later generalizing cursor with
  | nil =>
    have hpos := List.length_pos_iff.mpr hrest
    simp only [writeThrough, List.map_nil, List.sum_nil, List.take_zero,
      Prod.mk.injEq, true_and]
    rw [eq_comm, decide_eq_false_iff_not]
    omega
  | cons dst more ih =>
    simp only [writeThrough, Cursor.write_eq, List.map_cons, List.sum_cons]
    generalize hleft : pieces.flatten.drop cursor.offset = left at hrest ⊢
    by_cases hfit : left.length ≤ dst.room
    · have hall : left.length ≤ dst.room + (more.map Buffer.room).sum := by omega
      rw [if_pos hfit, List.take_of_length_le hall, decide_eq_true hall]
      simp only [Buffer.drop_append]
    · -- the buffer is full, and what is left is left for the next ones
      have hmore :
          pieces.flatten.drop (cursor.offset + dst.room) = left.drop dst.room := by
        rw [← List.drop_drop, hleft]
      have hne : pieces.flatten.drop (cursor.offset + dst.room) ≠ [] := by
        rw [hmore, Ne, List.drop_eq_nil_iff]
        exact hfit
      rw [if_neg hfit]
      simp only [ih hne, hmore, Buffer.drop_append, List.length_drop, Prod.mk.injEq,
        decide_eq_decide]
      refine ⟨?_, by omega⟩
      rw [List.take_add]

/-! ## The room for data -/

theorem Hex.width_add_lt {n : Nat} (h : 6 ≤ n) : width n + 4 < n := by
  have hlog : Nat.log2 n < n := (Nat.log2_lt (by omega)).mpr Nat.lt_two_pow_self
  by_cases hsix : n = 6
  · subst hsix
    decide
  · rw [width, if_neg (by omega)]
    omega

namespace Cut

theorem mostData_eq_zero_iff {maxChunk room : Nat} (hmax : 1 ≤ maxChunk) :
    mostData maxChunk room = 0 ↔ room < 6 := by
  have hpos := Hex.width_pos room
  unfold mostData lineEnds
  constructor
  · intro hzero
    rcases Nat.lt_or_ge room 6 with hroom | hroom
    · exact hroom
    · have hwidth := Hex.width_add_lt hroom
      omega
  · intro hroom
    omega

theorem lent_eq_mostData {maxChunk room : Nat} (hmax : 1 ≤ maxChunk)
    (hroom : 6 ≤ room) :
    mostData maxChunk room ≠ 0 ∧ lent maxChunk room = mostData maxChunk room := by
  have hmost : mostData maxChunk room ≠ 0 := by
    rw [Ne, mostData_eq_zero_iff hmax]
    omega
  exact ⟨hmost, if_neg hmost⟩

/-- Any data that is read into the slice in place fits, with its size
line and its line ends. -/
theorem lent_fits {maxChunk room n : Nat} (hmax : 1 ≤ maxChunk) (hroom : 6 ≤ room)
    (hn : n ≤ lent maxChunk room) : Hex.width n + 2 + n + 2 ≤ room := by
  obtain ⟨hmost, hlent⟩ := lent_eq_mostData hmax hroom
  have hfits := mostData_fits hmost
  have hwidth : Hex.width n ≤ Hex.width (mostData maxChunk room) :=
    Hex.width_mono (hlent ▸ hn)
  unfold lineEnds at hfits
  omega

variable {σ : Type} [Source σ]

theorem fromSource_inPlace {maxChunk : Nat} {dst : Buffer} (hmax : 1 ≤ maxChunk)
    (hroom : 6 ≤ dst.room) (source : σ) :
    fromSource maxChunk source dst = inPlace (lent maxChunk dst.room) source dst := by
  obtain ⟨hmost, hlent⟩ := lent_eq_mostData hmax hroom
  unfold fromSource
  rw [if_neg (by omega), if_neg hmost, hlent]

theorem fromSource_beside {maxChunk : Nat} {dst : Buffer} (hmax : 1 ≤ maxChunk)
    (hpos : 1 ≤ dst.room) (hroom : dst.room < 6) (source : σ) :
    fromSource maxChunk source dst
      = ((beside maxChunk source).1, (beside maxChunk source).2, dst) := by
  unfold fromSource
  rw [if_neg (by omega), if_pos ((mostData_eq_zero_iff hmax).mpr hroom)]

/-! ## The two ways -/

/-- The read of an attempt to cut a chunk brings these bytes, within the
slice that it is lent. -/
def Brings (maxChunk : Nat) (source : σ) (dst : Buffer) (data : Bytes)
    (source' : σ) : Prop :=
  ∃ n slice,
    Source.read source (List.replicate (lent maxChunk dst.room) 0)
      = (.data n, slice, source')
      ∧ 0 < n ∧ n ≤ lent maxChunk dst.room ∧ data = slice.take n

theorem Brings.ofRead {maxChunk : Nat} {source source' : σ} {dst : Buffer}
    {data : Bytes} (h : Brings maxChunk source dst data source')
    (hroom : dst.room ≠ 0) :
    (fromSource maxChunk source dst =
      if mostData maxChunk dst.room = 0 then (.held (Chunk.ofData data), source', dst)
      else (.written, source', dst.append (Chunk.ofData data).wire))
      ∧ data ≠ [] ∧ data.length ≤ lent maxChunk dst.room := by
  obtain ⟨n, slice, hread, hpos, hle, rfl⟩ := h
  have hslice := Source.length_read source (List.replicate (lent maxChunk dst.room) 0)
  rw [hread, List.length_replicate] at hslice
  have hlen : (slice.take n).length = n := by
    rw [List.length_take]
    simp only at hslice
    omega
  refine ⟨?_, List.length_pos_iff.mp (by omega), by omega⟩
  rw [fromSource_of_read hroom hread, Cut.ofRead, if_neg (by omega), if_neg (by omega)]
  by_cases hmost : mostData maxChunk dst.room = 0
  · simp [hmost]
  · rw [if_pos (bne_iff_ne.mpr hmost), if_neg hmost]

theorem brings_memory {maxChunk : Nat} {body : Bytes} {dst : Buffer}
    (hbody : body ≠ []) (hle : body.length ≤ lent maxChunk dst.room) :
    Brings maxChunk body dst body [] := by
  refine ⟨body.length, copyFront body (List.replicate (lent maxChunk dst.room) 0), ?_,
    List.length_pos_iff.mpr hbody, hle, ?_⟩
  · show Memory.read body _ = _
    rw [Memory.read, if_neg (by simpa using hbody), List.length_replicate,
      List.take_of_length_le hle, List.drop_of_length_le hle]
  · rw [copyFront, List.length_replicate, List.take_of_length_le hle, List.take_left]

/-- With room for six bytes or more a chunk is cut in place, with less beside
the buffer. The slice that is lent in place is not empty, and as large as
chunks may be if there is room for that; a chunk of any size up to it fits.
Whichever way data is cut, and whatever the buffers are that a chunk in flight
is copied over, it is written in one form: its size, the data as the source
wrote it, and the line ends. -/
theorem placed_alike {maxChunk : Nat} (hmax : 1 ≤ maxChunk) :
    (∀ (source : σ) (dst : Buffer), 6 ≤ dst.room →
      let offered := lent maxChunk dst.room
      fromSource maxChunk source dst = inPlace offered source dst
        ∧ 1 ≤ offered ∧ offered ≤ maxChunk
        ∧ (maxChunk + Hex.width dst.room + 4 ≤ dst.room → offered = maxChunk)
        ∧ ∀ n ≤ offered, Hex.width n + 2 + n + 2 ≤ dst.room)
    ∧ (∀ (source : σ) (dst : Buffer), 1 ≤ dst.room → dst.room < 6 →
      fromSource maxChunk source dst
        = ((beside maxChunk source).1, (beside maxChunk source).2, dst))
    ∧ ∀ data, ∃ size,
      Hex.IsNumeral size data.length ∧ size.length = Hex.width data.length ∧
      let form := size ++ Bytes.crlf ++ data ++ Bytes.crlf
      (∀ (source source' : σ) (dst : Buffer), 6 ≤ dst.room →
        Brings maxChunk source dst data source' →
        fromSource maxChunk source dst = (.written, source', dst.append form)
          ∧ form.length ≤ dst.room)
      ∧ ∀ (source source' : σ) (dst : Buffer), 1 ≤ dst.room → dst.room < 6 →
        Brings maxChunk source dst data source' →
        ∃ chunk, fromSource maxChunk source dst = (.held chunk, source', dst)
          ∧ ∀ later : List Buffer,
          Cursor.writeThrough chunk.pieces {} later
            = (form.take (later.map Buffer.room).sum,
              decide (form.length ≤ (later.map Buffer.room).sum)) := by
  have hform : ∀ {data : Bytes}, data ≠ [] → (Chunk.ofData data).wire
      = Hex.digits data.length ++ Bytes.crlf ++ data ++ Bytes.crlf := by
    intro data hdata
    rw [Chunk.wire_ofData hdata]
    simp only [List.append_assoc]
  refine ⟨?_, fun source dst hpos hroom =>
    fromSource_beside hmax hpos hroom source, ?_⟩
  · intro source dst hroom offered
    obtain ⟨hmost, hlent⟩ := lent_eq_mostData hmax hroom
    refine ⟨fromSource_inPlace hmax hroom source, lent_pos hmax dst.room,
      lent_le maxChunk dst.room, ?_,
      fun n hn => lent_fits hmax hroom hn⟩
    intro henough
    show lent maxChunk dst.room = maxChunk
    rw [hlent]
    unfold mostData lineEnds
    omega
  · intro data
    refine ⟨Hex.digits data.length, Hex.isNumeral_digits _,
      Hex.length_digits _, ?_, ?_⟩
    · intro source source' dst hroom hbrings
      obtain ⟨hcut, hdata, hle⟩ := hbrings.ofRead (by omega)
      have hfits := lent_fits hmax hroom hle
      have hlength := Chunk.length_wire_ofData hdata
      rw [if_neg (lent_eq_mostData hmax hroom).1] at hcut
      rw [hform hdata] at hcut hlength
      exact ⟨hcut, by omega⟩
    · intro source source' dst hpos hroom hbrings
      obtain ⟨hcut, hdata, -⟩ := hbrings.ofRead (by omega)
      rw [if_pos ((mostData_eq_zero_iff hmax).mpr hroom)] at hcut
      refine ⟨_, hcut, fun later => ?_⟩
      have hwire : (Chunk.ofData data).pieces.flatten.drop (Cursor.offset {})
          = Hex.digits data.length ++ Bytes.crlf ++ data ++ Bytes.crlf := hform hdata
      have hrest :
          (Chunk.ofData data).pieces.flatten.drop (Cursor.offset {}) ≠ [] := by
        rw [hwire]
        simp [Bytes.crlf]
      rw [Cursor.writeThrough_eq hrest, hwire]

/-- Twenty bytes in memory: read behind a gap for a wider size line than they
need, and read beside a buffer with three bytes of room and copied out over
this one and two more. -/
theorem placed_alike_twenty :
    let body : Bytes := List.replicate 20 46
    ∃ form : Bytes, form.length = 26
      ∧ fromSource 4096 body (Buffer.empty 300)
        = (.written, ([] : Bytes), (Buffer.empty 300).append form)
      ∧ ∃ chunk, fromSource 4096 body (Buffer.empty 3)
        = (.held chunk, ([] : Bytes), Buffer.empty 3)
        ∧ Cursor.writeThrough chunk.pieces {}
          [Buffer.empty 3, Buffer.empty 4, Buffer.empty 30]
          = (form, true) := by
  intro body
  obtain ⟨-, -, hforms⟩ := @placed_alike Bytes _ 4096 (by decide)
  obtain ⟨size, -, hsize, hwritten, hheld⟩ := hforms body
  have hlength : (size ++ Bytes.crlf ++ body ++ Bytes.crlf).length = 26 := by
    simp only [List.length_append, hsize]
    decide
  refine ⟨size ++ Bytes.crlf ++ body ++ Bytes.crlf, hlength, ?_, ?_⟩
  · exact (hwritten body [] (Buffer.empty 300) (by decide)
      (brings_memory (by decide) (by decide))).1
  · obtain ⟨chunk, hcut, hlater⟩ := hheld body [] (Buffer.empty 3) (by decide)
      (by decide) (brings_memory (by decide) (by decide))
    refine ⟨chunk, hcut, ?_⟩
    rw [hlater, hlength]
    refine Prod.ext (List.take_of_length_le ?_) rfl
    rw [hlength]
    decide

end Cut

end HttpWire
