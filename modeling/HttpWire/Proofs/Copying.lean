import HttpWire.Head

/-!
# What copying leaves in a buffer

Every write of this library is, seen from outside, one `append` that fits the
room: whatever a function does to the buffer it was lent, its caller gets back the
old contents with new bytes behind them and the old capacity. This file states
that for the layers that know nothing of bodies: the buffer itself, a slice lent
to a source, a cursor over pieces, and the head.

Cursors and heads are described by what they have left. `copyPieces` looks at
pieces one after another and keeps one running offset, but all that comes of it is
that the rest of the concatenation is cut at the room; `Cursor.write_eq` says so
in one equation, and `HeadState.write_spec` lifts it from one line to the head.
-/

namespace HttpWire

namespace Buffer

theorem eq_of_bytes_capacity {b b' : Buffer} (hbytes : b.bytes = b'.bytes)
    (hcap : b.capacity = b'.capacity) : b = b' := by
  cases b
  cases b'
  simp only at hbytes hcap
  subst hbytes hcap
  rfl

@[simp] theorem append_nil (b : Buffer) : b.append [] = b := by
  refine eq_of_bytes_capacity (by simp) ?_
  rw [capacity_append]
  exact Nat.max_eq_left b.length_le

@[simp] theorem append_append (b : Buffer) (x y : Bytes) :
    (b.append x).append y = b.append (x ++ y) := by
  refine eq_of_bytes_capacity (by simp) ?_
  simp only [capacity_append, length_append, List.length_append]
  omega

@[simp] theorem room_append (b : Buffer) (x : Bytes) :
    (b.append x).room = b.room - x.length := by
  simp only [room, length_append, capacity_append]
  omega

theorem drop_append (b : Buffer) (x : Bytes) :
    (b.append x).bytes.drop b.length = x := by
  rw [bytes_append, length, List.drop_left]

theorem length_add_room (b : Buffer) : b.length + b.room = b.capacity :=
  Nat.add_sub_cancel' b.length_le

/-- Bytes that fit do not make a buffer grow. -/
theorem capacity_append_of_le {b : Buffer} {x : Bytes} (h : x.length ≤ b.room) :
    (b.append x).capacity = b.capacity := by
  have := b.length_add_room
  rw [capacity_append]
  omega

/-- Cutting off what was filled in behind a buffer leaves the front
of it appended. -/
theorem truncate_eq_append {b filled : Buffer} {x : Bytes} {n : Nat}
    (hbytes : filled.bytes = b.bytes ++ x) (hcap : filled.capacity = b.capacity) :
    filled.truncate (b.length + n) = b.append (x.take n) := by
  have hle := filled.length_le
  rw [hbytes, hcap, List.length_append] at hle
  refine eq_of_bytes_capacity ?_ ?_
  · simp only [bytes_truncate, bytes_append, hbytes, length]
    rw [List.take_append, List.take_of_length_le (Nat.le_add_right _ _),
      Nat.add_sub_cancel_left]
  · rw [capacity_truncate, capacity_append, hcap, List.length_take]
    simp only [length]
    omega

theorem truncate_eq_self {b filled : Buffer} {x : Bytes}
    (hbytes : filled.bytes = b.bytes ++ x) (hcap : filled.capacity = b.capacity) :
    filled.truncate b.length = b := by
  have h := truncate_eq_append (n := 0) hbytes hcap
  rwa [Nat.add_zero, List.take_zero, append_nil] at h

/-- What a source is lent within the room: a slice of zeros, which it gets back
into its place whatever it did to it. The bytes between the buffer's own and
the slice are zeros too. -/
theorem lend_spec {σ : Type} [Source σ] {b : Buffer} {start size : Nat} (s : σ)
    (hstart : b.length ≤ start) (hfit : start + size ≤ b.capacity) :
    ∃ filled : Buffer,
      b.lend start size s = ((Source.read s (List.replicate size 0)).1, filled,
        (Source.read s (List.replicate size 0)).2.2)
      ∧ filled.bytes = b.bytes ++ (List.replicate (start - b.length) 0
          ++ (Source.read s (List.replicate size 0)).2.1)
      ∧ filled.capacity = b.capacity := by
  have hgrown : (b.resize (start + size)).bytes
      = b.bytes ++ List.replicate (start - b.length) 0 ++ List.replicate size 0 := by
    simp only [resize, holding, length] at hstart ⊢
    rw [List.take_of_length_le (by omega), List.append_assoc,
      List.replicate_append_replicate]
    congr 2
    omega
  have hfront :
      (b.bytes ++ List.replicate (start - b.length) (0 : UInt8)).length = start := by
    simp only [length] at hstart
    simp only [List.length_append, List.length_replicate, length]
    omega
  have hslice :
      (b.resize (start + size)).bytes.drop start = List.replicate size 0 := by
    rw [hgrown, List.drop_left' hfront]
  have hlen := Source.length_read s (List.replicate size 0)
  rw [List.length_replicate] at hlen
  refine ⟨(b.lend start size s).2.1, ?_, ?_, ?_⟩
  · unfold lend
    simp only [hslice]
  · unfold lend
    simp only [hslice, bytes_put, hlen]
    rw [hgrown, List.take_left' hfront, List.drop_of_length_le (by simp),
      List.append_nil, List.append_assoc]
  · rw [(length_lend b start size s).2]
    exact Nat.max_eq_left hfit

/-- A slice that is lent right behind the bytes of a buffer: cutting the buffer
back gives up the slice, or all of it but a front. -/
theorem lend_reads {σ : Type} [Source σ] {s s' : σ} {b filled : Buffer} {size : Nat}
    {report : ReadReport} (hfit : size ≤ b.room)
    (h : b.lend b.length size s = (report, filled, s')) :
    ∃ slice, Source.read s (List.replicate size 0) = (report, slice, s')
      ∧ slice.length = size
      ∧ filled.truncate b.length = b ∧ ∀ n,
        filled.truncate (b.length + n) = b.append (slice.take n) := by
  have hroom := b.length_add_room
  have hlen := Source.length_read s (List.replicate size 0)
  obtain ⟨filled', heq, hbytes, hcap⟩ := lend_spec s (Nat.le_refl b.length)
    (show b.length + size ≤ b.capacity by omega)
  rw [Nat.sub_self, List.replicate_zero, List.nil_append] at hbytes
  rw [List.length_replicate] at hlen
  rw [h] at heq
  cases heq
  exact ⟨_, rfl, hlen, truncate_eq_self hbytes hcap,
    fun n => truncate_eq_append hbytes hcap⟩

end Buffer

/-- Copying pieces is cutting the rest of their concatenation at the room. -/
theorem copyPieces_eq (skip : Nat) (pieces : List Bytes) (dst : Buffer) :
    copyPieces skip pieces dst =
      (min (pieces.flatten.drop skip).length dst.room,
        decide ((pieces.flatten.drop skip).length ≤ dst.room),
        dst.append ((pieces.flatten.drop skip).take dst.room)) := by
  induction pieces generalizing skip dst with
  | nil => simp [copyPieces]
  | cons piece more ih =>
    simp only [copyPieces, List.isEmpty_iff]
    split
    · next hskipped =>
      have hle : piece.length ≤ skip := List.drop_eq_nil_iff.mp hskipped
      rw [ih, List.flatten_cons, List.drop_append, hskipped, List.nil_append]
    · next hrest =>
      have hlt : skip < piece.length := by
        have := mt List.drop_eq_nil_iff.mpr hrest
        omega
      have hflat :
          (piece :: more).flatten.drop skip = piece.drop skip ++ more.flatten := by
        rw [List.flatten_cons, List.drop_append_of_le_length (by omega)]
      rw [hflat]
      generalize piece.drop skip = rest
      split
      · next hall =>
        have hfit : rest.length ≤ dst.room := List.drop_eq_nil_iff.mp hall
        rw [List.take_of_length_le hfit, ih, List.drop_zero]
        simp only [Buffer.room_append, Buffer.append_append, List.length_append,
          Prod.mk.injEq, decide_eq_decide]
        refine ⟨by omega, by omega, ?_⟩
        rw [List.take_append, List.take_of_length_le hfit]
      · next hcut =>
        have hlong : dst.room < rest.length := by
          have := mt List.drop_eq_nil_iff.mpr hcut
          omega
        rw [List.take_append_of_le_length (by omega)]
        simp only [List.length_append, List.length_take, Prod.mk.injEq, and_true]
        refine ⟨by omega, ?_⟩
        rw [eq_comm, decide_eq_false_iff_not]
        omega

/-- Writing from a cursor either copies all that is left and resets it, or fills
the room and moves the cursor on by as much. -/
theorem Cursor.write_eq (c : Cursor) (pieces : List Bytes) (dst : Buffer) :
    c.write pieces dst =
      if (pieces.flatten.drop c.offset).length ≤ dst.room then
        (true, {}, dst.append (pieces.flatten.drop c.offset))
      else (false, { offset := c.offset + dst.room },
        dst.append ((pieces.flatten.drop c.offset).take dst.room)) := by
  unfold Cursor.write
  rw [copyPieces_eq]
  by_cases hfit : (pieces.flatten.drop c.offset).length ≤ dst.room
  · rw [if_pos hfit, decide_eq_true hfit, List.take_of_length_le hfit]
  · rw [if_neg hfit, decide_eq_false hfit, Nat.min_eq_right (by omega)]

/-! ## The head -/

/-- The bytes of the head that are still to be written. -/
def HeadState.rest (h : HeadState) : Bytes :=
  match h.lines with
  | [] => []
  | line :: more => line.flatten.drop h.cursor.offset ++ more.flatten.flatten

theorem HeadState.rest_start (p : Plan) : (HeadState.start p).rest = p.headWire := by
  simp [HeadState.start, HeadState.rest, Plan.headWire, Plan.headLines]

/-- Writing the head appends what fits of its rest. The head is done exactly if
all of it fits, and otherwise what did not fit is its new rest. -/
theorem HeadState.writeLines_spec (lines : List (List Bytes)) (cursor : Cursor)
    (dst : Buffer) :
    let rest := HeadState.rest { lines := lines, cursor := cursor }
    let (h, dst') := writeLines lines cursor dst
    dst' = dst.append (rest.take dst.room) ∧ h.isDone = decide (rest.length ≤ dst.room)
      ∧ (h.isDone = false → h.rest = rest.drop dst.room) := by
  induction lines generalizing cursor dst with
  | nil => simp [writeLines, HeadState.rest, HeadState.isDone]
  | cons line more ih =>
    simp only [writeLines, Cursor.write_eq]
    generalize hleft : line.flatten.drop cursor.offset = left
    have hrest : HeadState.rest { lines := line :: more, cursor := cursor }
        = left ++ more.flatten.flatten := by
      simp only [HeadState.rest, hleft]
    have hmore :
        HeadState.rest { lines := more, cursor := {} } = more.flatten.flatten := by
      cases more <;> simp [HeadState.rest]
    rw [hrest]
    by_cases hfit : left.length ≤ dst.room
    · rw [if_pos hfit]
      have hih := ih {} (dst.append left)
      rw [hmore] at hih
      simp only [Buffer.append_append, Buffer.room_append] at hih ⊢
      obtain ⟨hdst, hdone, hleftover⟩ := hih
      refine ⟨?_, ?_, ?_⟩
      · rw [hdst, List.take_append, List.take_of_length_le hfit]
      · rw [hdone, List.length_append, decide_eq_decide]
        omega
      · intro hnot
        rw [hleftover hnot, List.drop_append, List.drop_of_length_le hfit,
          List.nil_append]
    · rw [if_neg hfit]
      simp only [HeadState.isDone, List.isEmpty_cons, HeadState.rest,
        List.length_append, forall_const]
      refine ⟨?_, ?_, ?_⟩
      · rw [List.take_append_of_le_length (by omega)]
      · rw [eq_comm, decide_eq_false_iff_not]
        omega
      · rw [← hleft, List.drop_append_of_le_length (by rw [hleft]; omega),
          List.drop_drop]

theorem HeadState.write_spec (h : HeadState) (dst : Buffer) :
    (h.write dst).2 = dst.append (h.rest.take dst.room)
      ∧ (h.write dst).1.isDone = decide (h.rest.length ≤ dst.room)
      ∧ ((h.write dst).1.isDone = false →
        (h.write dst).1.rest = h.rest.drop dst.room) :=
  writeLines_spec h.lines h.cursor dst

end HttpWire
