import HttpWire.Source

/-!
# Output buffers

A message is written into the spare room of buffers that its caller lends. Writing
past the room is not impossible: a buffer then reserves more, and its `capacity`
says so ever after. That a call leaves `capacity` as it was is therefore the
statement that at no moment did it ask for more than it was given.
-/

namespace HttpWire

/-- A buffer: the bytes in it and how many it has reserved. -/
structure Buffer where
  bytes : Bytes
  capacity : Nat
  length_le : bytes.length ≤ capacity
  deriving DecidableEq

namespace Buffer

/-- The buffer with these bytes that reserves `capacity` bytes, or
more if it has to. -/
def holding (capacity : Nat) (bytes : Bytes) : Buffer :=
  ⟨bytes, max capacity bytes.length, Nat.le_max_right _ _⟩

/-- An empty buffer. -/
def empty (capacity : Nat) : Buffer :=
  holding capacity []

/-- How many bytes are in the buffer. -/
def length (b : Buffer) : Nat :=
  b.bytes.length

/-- How many bytes still fit. -/
def room (b : Buffer) : Nat :=
  b.capacity - b.length

/-- Puts other bytes in place of those from position `start` on. -/
def modifyFrom (b : Buffer) (start : Nat) (f : Bytes → Bytes) : Buffer :=
  holding b.capacity (b.bytes.take start ++ f (b.bytes.drop start))

/-- Adds bytes at the end. -/
def append (b : Buffer) (x : Bytes) : Buffer :=
  holding b.capacity (b.bytes ++ x)

/-- Cuts the buffer down to `n` bytes, or fills it up to `n` bytes with zeros. -/
def resize (b : Buffer) (n : Nat) : Buffer :=
  holding b.capacity (b.bytes.take n ++ List.replicate (n - b.length) 0)

/-- Keeps the first `n` bytes. -/
def truncate (b : Buffer) (n : Nat) : Buffer :=
  holding b.capacity (b.bytes.take n)

/-- Writes `x` over the bytes from position `start` on. -/
def put (b : Buffer) (start : Nat) (x : Bytes) : Buffer :=
  b.modifyFrom start (fun rest => x ++ rest.drop x.length)

/-- Copies the `n` bytes at `source` over those at `target`. -/
def copyWithin (b : Buffer) (source n target : Nat) : Buffer :=
  b.put target ((b.bytes.drop source).take n)

/-- Lends the `size` bytes from position `start` on to a source, filling the
buffer up with zeros to have them, and keeps what the source makes of them. -/
def lend {σ : Type} [Source σ] (b : Buffer) (start size : Nat)
    (s : σ) : ReadReport × Buffer × σ :=
  let grown := b.resize (start + size)
  let (report, slice, s) := Source.read s (grown.bytes.drop start)
  (report, grown.put start slice, s)

@[simp] theorem bytes_empty (capacity : Nat) : (empty capacity).bytes = [] :=
  rfl

@[simp] theorem bytes_append (b : Buffer) (x : Bytes) :
    (b.append x).bytes = b.bytes ++ x :=
  rfl

@[simp] theorem bytes_truncate (b : Buffer) (n : Nat) :
    (b.truncate n).bytes = b.bytes.take n :=
  rfl

@[simp] theorem bytes_put (b : Buffer) (start : Nat) (x : Bytes) :
    (b.put start x).bytes
      = b.bytes.take start ++ (x ++ (b.bytes.drop start).drop x.length) :=
  rfl

theorem length_append (b : Buffer) (x : Bytes) :
    (b.append x).length = b.length + x.length := by
  simp [append, length, holding]

theorem capacity_append (b : Buffer) (x : Bytes) :
    (b.append x).capacity = max b.capacity (b.length + x.length) := by
  simp [append, length, holding]

theorem length_truncate (b : Buffer) (n : Nat) :
    (b.truncate n).length = min n b.length := by
  simp [truncate, length, holding]

theorem capacity_truncate (b : Buffer) (n : Nat) :
    (b.truncate n).capacity = b.capacity := by
  have := b.length_le
  simp only [truncate, holding, List.length_take]
  omega

theorem length_resize (b : Buffer) (n : Nat) : (b.resize n).length = n := by
  simp only [resize, holding, length, List.length_append, List.length_take,
    List.length_replicate]
  omega

theorem capacity_resize (b : Buffer) (n : Nat) :
    (b.resize n).capacity = max b.capacity n := by
  have := length_resize b n
  simp only [resize, length, holding] at this ⊢
  rw [this]

/-- Changing the end of a buffer without changing its length reserves nothing. -/
theorem length_modifyFrom {b : Buffer} {start : Nat} {f : Bytes → Bytes}
    (h : (f (b.bytes.drop start)).length = b.length - start)
    (hstart : start ≤ b.length) :
    (b.modifyFrom start f).length = b.length
      ∧ (b.modifyFrom start f).capacity = b.capacity := by
  have hle := b.length_le
  simp only [modifyFrom, holding, length, List.length_append, List.length_take, h]
    at h hstart ⊢
  omega

theorem length_put {b : Buffer} {start : Nat} {x : Bytes}
    (h : start + x.length ≤ b.length) :
    (b.put start x).length = b.length ∧ (b.put start x).capacity = b.capacity := by
  refine length_modifyFrom ?_ (by omega)
  simp only [length] at h
  simp only [length, List.length_append, List.length_drop]
  omega

theorem length_copyWithin {b : Buffer} {source n target : Nat}
    (h : target + n ≤ b.length) :
    (b.copyWithin source n target).length = b.length
      ∧ (b.copyWithin source n target).capacity = b.capacity := by
  refine length_put ?_
  simp only [List.length_take, List.length_drop]
  omega

theorem length_lend {σ : Type} [Source σ] (b : Buffer) (start size : Nat) (s : σ) :
    (b.lend start size s).2.1.length = start + size
      ∧ (b.lend start size s).2.1.capacity = max b.capacity (start + size) := by
  have hslice := Source.length_read s ((b.resize (start + size)).bytes.drop start)
  have hgrown := length_resize b (start + size)
  have hcap := capacity_resize b (start + size)
  have hput :
      start + (Source.read s ((b.resize (start + size)).bytes.drop start)).2.1.length
      ≤ (b.resize (start + size)).length := by
    rw [hslice, List.length_drop]
    simp only [length] at hgrown ⊢
    omega
  have hkept := length_put hput
  exact ⟨hkept.1.trans hgrown, hkept.2.trans hcap⟩

end Buffer

end HttpWire
