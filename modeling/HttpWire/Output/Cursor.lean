import HttpWire.Output

/-!
# Resumable copying

A sequence of pieces is copied into one buffer after another. Between the calls
only an offset is kept, the number of bytes already copied, and nothing is ever
gathered in between. A call that copies the last byte resets the offset, so that
the next sequence starts at its beginning.
-/

namespace HttpWire

/-- How far a sequence of pieces has been copied. -/
structure Cursor where
  offset : Nat := 0
  deriving DecidableEq, Repr

/-- Copies what fits of the pieces behind their first `skip` bytes: how many bytes
that were, whether they were the last ones, and the buffer with them. -/
def copyPieces : Nat → List Bytes → Buffer → Nat × Bool × Buffer
  | _, [], dst => (0, true, dst)
  | skip, piece :: more, dst =>
    let rest := piece.drop skip
    if rest.isEmpty then copyPieces (skip - piece.length) more dst
    else
      let part := rest.take dst.room
      if (rest.drop dst.room).isEmpty then
        let (count, all, dst) := copyPieces 0 more (dst.append part)
        (part.length + count, all, dst)
      else (part.length, false, dst.append part)

namespace Cursor

/-- Copies as much of the pieces as fits, from where the cursor stands. Answers
whether all of them are copied now. -/
def write (c : Cursor) (pieces : List Bytes) (dst : Buffer) : Bool × Cursor × Buffer :=
  match copyPieces c.offset pieces dst with
  | (_, true, dst) => (true, {}, dst)
  | (count, false, dst) => (false, { offset := c.offset + count }, dst)

end Cursor

/-- A sequence that was copied completely from its beginning took its whole length
of the room and reserved nothing. -/
theorem copyPieces_eq_true {pieces : List Bytes} {dst dst' : Buffer} {count : Nat}
    (h : copyPieces 0 pieces dst = (count, true, dst')) :
    dst'.length = dst.length + pieces.flatten.length
      ∧ dst'.capacity = dst.capacity := by
  induction pieces generalizing dst dst' count with
  | nil =>
    simp only [copyPieces, Prod.mk.injEq, true_and] at h
    simp [← h.2]
  | cons piece more ih =>
    simp only [copyPieces, List.drop_zero, List.isEmpty_iff] at h
    split at h
    · next hnil =>
      rw [Nat.zero_sub] at h
      have := ih h
      simp only [hnil, List.flatten_cons, List.nil_append]
      exact this
    · split at h
      · next hall =>
        have hfit : piece.length ≤ dst.room := List.drop_eq_nil_iff.mp hall
        rw [List.take_of_length_le hfit] at h
        simp only [Prod.mk.injEq] at h
        have hmore : copyPieces 0 more (dst.append piece)
            = ((copyPieces 0 more (dst.append piece)).1, true, dst') := by
          rw [← h.2.1, ← h.2.2]
        have hrest := ih hmore
        have hroom : dst.room = dst.capacity - dst.length := rfl
        rw [Buffer.length_append, Buffer.capacity_append] at hrest
        have hle : dst.length ≤ dst.capacity := dst.length_le
        simp only [List.flatten_cons, List.length_append]
        omega
      · simp at h

namespace Cursor

/-- A sequence with a byte in it takes room when it is copied completely. -/
theorem room_write {pieces : List Bytes} {c : Cursor} {dst dst' : Buffer}
    (hpos : 0 < pieces.flatten.length)
    (h : Cursor.write {} pieces dst = (true, c, dst')) :
    dst'.room < dst.room := by
  unfold write at h
  split at h
  · next count dst'' heq =>
    simp only [Prod.mk.injEq, true_and] at h
    have hcopied := copyPieces_eq_true heq
    have hle := dst''.length_le
    rw [← h.2]
    simp only [Buffer.room, Buffer.length] at hcopied ⊢
    omega
  · simp at h

end Cursor

end HttpWire
