import Mathlib.Algebra.GroupWithZero.Nat
import HttpWire.Proofs.Copying

/-!
# A copy goes on where it stopped

Between two calls a cursor keeps one number, and nothing else says where in its
pieces a copy stands. This file follows one cursor over any number of calls, each
on a buffer of its own and with as much room as it happens to have, and over one
sequence of pieces after another, as the lines of a head are copied (`Copying`).

What is kept along the way is short: the offset is the count of the bytes that the
calls for the sequence under way appended, and those are its front
(`Copying.Stands`). So no byte is lost or repeated, whether the offset lies within
a piece, on a seam or beside empty pieces, which the cursor never notices: it sees
the concatenation only (`Cursor.write_eq`). A call either fills its buffer or
completes its sequence and leaves the cursor as new (`Cursor.Resumed`), and with
room for what is left the sequence is completed (`Copying.completes`).
`Copying.resumed_exactly` puts this together.
-/

namespace HttpWire

namespace Cursor

/-- What a call on a buffer may come to, if the calls before it appended
`emitted` of the pieces. -/
inductive Resumed (pieces : List Bytes) (emitted : Bytes)
    (dst : Buffer) : Bool × Cursor × Buffer → Prop
  /-- The buffer is full and some bytes are left; the offset counts those
  that are appended by now. -/
  | unfinished (added : Bytes) : added.length = dst.room →
      emitted ++ added <+: pieces.flatten →
      (emitted ++ added).length < pieces.flatten.length → Resumed pieces emitted dst
      (false, { offset := (emitted ++ added).length }, dst.append added)
  /-- The last byte is appended, and the cursor is as new. -/
  | finished (added : Bytes) : added.length ≤ dst.room →
      emitted ++ added = pieces.flatten →
      Resumed pieces emitted dst (true, {}, dst.append added)

theorem write_resumed {c : Cursor} {pieces : List Bytes} {emitted : Bytes}
    (dst : Buffer) (hfront : emitted <+: pieces.flatten)
    (hoffset : c.offset = emitted.length) :
    Resumed pieces emitted dst (c.write pieces dst) := by
  obtain ⟨rest, hrest⟩ := hfront
  have hleft : pieces.flatten.drop c.offset = rest := by
    rw [hoffset, ← hrest, List.drop_left]
  rw [write_eq, hleft]
  split
  · next hfit => exact .finished rest hfit hrest
  · next hcut =>
    have hfull : (rest.take dst.room).length = dst.room :=
      List.length_take_of_le (by omega)
    have hcount : c.offset + dst.room = (emitted ++ rest.take dst.room).length := by
      rw [List.length_append, hfull, hoffset]
    rw [hcount]
    refine .unfinished _ hfull ?_ ?_
    · rw [← hrest, List.prefix_append_right_inj]
      exact List.take_prefix _ _
    · rw [← hrest, List.length_append, List.length_append, hfull]
      omega

end Cursor

/-- A cursor in use: it copies one sequence of pieces after another. -/
structure Copying where
  /-- the sequences that are not completely copied; the cursor
  belongs to the first of them -/
  sequences : List (List Bytes)
  cursor : Cursor := {}
  /-- what the calls for that sequence appended -/
  emitted : Bytes := []
  /-- what the calls for each sequence before it appended -/
  copied : List Bytes := []

namespace Copying

/-- Before the first call. -/
def start (sequences : List (List Bytes)) : Copying :=
  { sequences := sequences }

/-- Lends a buffer to a call for the sequence that is under way. -/
def lend (k : Copying) (dst : Buffer) : Copying :=
  match k.sequences with
  | [] => k
  | pieces :: later =>
    let (all, cursor, dst') := k.cursor.write pieces dst
    let emitted := k.emitted ++ dst'.bytes.drop dst.length
    if all then
      { sequences := later, cursor := cursor, copied := k.copied ++ [emitted] }
    else { k with cursor := cursor, emitted := emitted }

/-- Lends one buffer after another. -/
def after (k : Copying) (lent : List Buffer) : Copying :=
  lent.foldl lend k

/-- A sequence is under way: the calls for it appended its front, and the offset
is their count of bytes. -/
structure UnderWay (pieces : List Bytes) (later : List (List Bytes))
    (k : Copying) : Prop where
  sequences : k.sequences = pieces :: later
  offset : k.cursor.offset = k.emitted.length
  front : k.emitted <+: pieces.flatten

section Lending

variable {k : Copying} {pieces : List Bytes} {later : List (List Bytes)}

/-- A call completes its sequence or fills its buffer. -/
theorem UnderWay.lend (h : k.UnderWay pieces later) (dst : Buffer) :
    k.lend dst = { sequences := later, copied := k.copied ++ [pieces.flatten] }
      ∨ (k.lend dst).UnderWay pieces later ∧ (k.lend dst).copied = k.copied
        ∧ (k.lend dst).emitted.length = k.emitted.length + dst.room
        ∧ (k.lend dst).emitted.length < pieces.flatten.length := by
  have hcall := Cursor.write_resumed dst h.front h.offset
  unfold Copying.lend
  rw [h.sequences]
  simp only
  generalize k.cursor.write pieces dst = call at hcall ⊢
  cases hcall with
  | unfinished added hfull hfront hshort =>
    refine .inr ?_
    simp only [Buffer.drop_append, Bool.false_eq_true, if_false]
    refine ⟨⟨rfl, rfl, hfront⟩, trivial, ?_, hshort⟩
    rw [List.length_append, hfull]
  | finished added hfit hall =>
    refine .inl ?_
    simp only [Buffer.drop_append, if_true, hall]

/-- Buffers with room for what is left of a sequence complete it. -/
theorem UnderWay.completes (h : k.UnderWay pieces later) {lent : List Buffer}
    (hlent : lent ≠ [])
    (hroom : pieces.flatten.length ≤ k.emitted.length + (lent.map Buffer.room).sum) :
    ∃ used unused, lent = used ++ unused
      ∧ k.after used
        = { sequences := later, copied := k.copied ++ [pieces.flatten] } := by
  induction lent generalizing k with
  | nil => exact absurd rfl hlent
  | cons dst lent ih =>
    obtain hdone | ⟨hnext, hcopied, hcount, hshort⟩ := h.lend dst
    · exact ⟨[dst], lent, rfl, hdone⟩
    · rw [List.map_cons, List.sum_cons] at hroom
      have hmore : lent ≠ [] := by
        intro hnil
        rw [hnil, List.map_nil, List.sum_nil] at hroom
        omega
      obtain ⟨used, unused, hsplit, hafter⟩ := ih hnext hmore (by omega)
      rw [hcopied] at hafter
      exact ⟨dst :: used, unused, congrArg (dst :: ·) hsplit, hafter⟩

end Lending

/-- What holds of a cursor in use: each sequence before the one under way was
appended exactly, and of that one the front that the offset counts. -/
structure Stands (sequences : List (List Bytes)) (k : Copying) : Prop where
  copied : ∃ complete,
    sequences = complete ++ k.sequences ∧ k.copied = complete.map List.flatten
  offset : k.cursor.offset = k.emitted.length
  front : k.emitted <+: (k.sequences.headD []).flatten

section Standing

variable {sequences : List (List Bytes)} {k : Copying}

theorem stands_start (sequences : List (List Bytes)) :
    (start sequences).Stands sequences where
  copied := ⟨[], rfl, rfl⟩
  offset := rfl
  front := List.nil_prefix

theorem Stands.underWay {pieces : List Bytes} {later : List (List Bytes)}
    (h : k.Stands sequences) (hpieces : k.sequences = pieces :: later) :
    k.UnderWay pieces later where
  sequences := hpieces
  offset := h.offset
  front := by
    have hfront := h.front
    rwa [hpieces] at hfront

theorem Stands.lend (h : k.Stands sequences) (dst : Buffer) :
    (k.lend dst).Stands sequences := by
  obtain ⟨complete, hall, hcopied⟩ := h.copied
  cases hpieces : k.sequences with
  | nil =>
    have hsame : k.lend dst = k := by
      unfold Copying.lend
      rw [hpieces]
    rw [hsame]
    exact h
  | cons pieces later =>
    rw [hpieces] at hall
    obtain hdone | ⟨hnext, hkept, -⟩ := (h.underWay hpieces).lend dst
    · rw [hdone]
      refine ⟨⟨complete ++ [pieces], ?_, ?_⟩, rfl, List.nil_prefix⟩
      · rw [hall, List.append_assoc]
        rfl
      · rw [hcopied, List.map_append]
        rfl
    · refine ⟨⟨complete, ?_, hkept.trans hcopied⟩, hnext.offset, ?_⟩
      · rw [hnext.sequences]
        exact hall
      · rw [hnext.sequences]
        exact hnext.front

theorem Stands.after (h : k.Stands sequences) (lent : List Buffer) :
    (k.after lent).Stands sequences := by
  induction lent generalizing k with
  | nil => exact h
  | cons dst lent ih => exact ih (h.lend dst)

end Standing

/-- One cursor over any buffers: each sequence that was completed was appended
byte for byte, and of the one under way the front that the offset counts. Every
further call goes on right behind that front; it fills its buffer, or it appends
the last byte and leaves the cursor as new. Buffers with room for what is left
complete the sequence, and the next one starts at its beginning. -/
theorem resumed_exactly (sequences : List (List Bytes)) (lent : List Buffer) :
    let k := (start sequences).after lent
    k.Stands sequences ∧ ∀ pieces later, k.sequences = pieces :: later →
      (∀ dst, Cursor.Resumed pieces k.emitted dst (k.cursor.write pieces dst))
        ∧ ∀ more, more ≠ [] →
          pieces.flatten.length ≤ k.emitted.length + (more.map Buffer.room).sum →
          ∃ used unused, more = used ++ unused
            ∧ k.after used
              = { sequences := later, copied := k.copied ++ [pieces.flatten] } := by
  intro k
  have hstands : k.Stands sequences := (stands_start sequences).after lent
  refine ⟨hstands, fun pieces later hpieces => ?_⟩
  have hunder := hstands.underWay hpieces
  exact ⟨fun dst => Cursor.write_resumed dst hunder.front hunder.offset,
    fun more hmore hroom => hunder.completes hmore hroom⟩

/-- A field line with empty pieces in it, stopped on a seam, without
room, and within a piece. -/
theorem resumed_hostLine :
    let line := ["Host", "", ": ", "example", "\r\n", ""].map Bytes.ofString
    let k := (start [line, [[], []], [Bytes.crlf]]).after
      [Buffer.empty 4, Buffer.empty 0, Buffer.empty 3]
    k.emitted = Bytes.ofString "Host: e" ∧ k.cursor.offset = 7
      ∧ ∃ used unused, [Buffer.empty 5, Buffer.empty 5] = used ++ unused
        ∧ k.after used
          = { sequences := [[[], []], [Bytes.crlf]]
              copied := [Bytes.ofString "Host: example\r\n"] } := by
  intro line k
  have hrun := resumed_exactly [line, [[], []], [Bytes.crlf]]
    [Buffer.empty 4, Buffer.empty 0, Buffer.empty 3]
  have hstands : k.Stands [line, [[], []], [Bytes.crlf]] := hrun.1
  have hemitted : k.emitted = Bytes.ofString "Host: e" := by decide
  have hcount : k.cursor.offset = 7 := by
    rw [hstands.offset, hemitted]
    decide
  have hpieces : k.sequences = [line, [[], []], [Bytes.crlf]] := by decide
  have hwhole : k.copied ++ [line.flatten] = [Bytes.ofString "Host: example\r\n"] := by
    decide
  obtain ⟨used, unused, hsplit, hafter⟩ :=
    (hrun.2 line _ hpieces).2 [Buffer.empty 5, Buffer.empty 5] (by decide) (by decide)
  rw [hwhole] at hafter
  exact ⟨hemitted, hcount, used, unused, hsplit, hafter⟩

end Copying

end HttpWire
