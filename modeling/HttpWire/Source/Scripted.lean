import HttpWire.Source

/-!
# Bodies that follow a script

A source that answers reads and readiness as two lists say, honest or not,
and keeps the lengths of the slices it was lent. Past the end of the lists it
is at its end and ready.
-/

namespace HttpWire

/-- One entry of a script of reads. -/
inductive ScriptedRead
  /-- hands out what fits; the rest stays for the next read -/
  | data (piece : Bytes)
  /-- fills the slice and claims this many bytes -/
  | count (claimed : Nat)
  /-- fills the slice and claims this many bytes more than it has -/
  | beyond (excess : Nat)
  | pending
  | ended
  | failed (error : IoError)
  deriving DecidableEq, Repr

/-- A source that follows a script. -/
structure Scripted where
  reads : List ScriptedRead := []
  polls : List Readiness := []
  /-- the lengths of the slices lent so far, the last one first -/
  offered : List Nat := []
  deriving DecidableEq, Repr

namespace Scripted

/-- The byte that a slice is filled with. -/
def filler : UInt8 := 126

/-- Answers one read from the script. -/
def answer (slice : Bytes) : List ScriptedRead → ReadReport × Bytes × List ScriptedRead
  | [] => (.ended, slice, [])
  | .data piece :: rest =>
    let left := piece.drop slice.length
    (.data (min piece.length slice.length), copyFront piece slice,
      if left.isEmpty then rest else .data left :: rest)
  | .count claimed :: rest => (.data claimed, List.replicate slice.length filler, rest)
  | .beyond excess :: rest =>
    (.data (slice.length + excess), List.replicate slice.length filler, rest)
  | .pending :: rest => (.pending, slice, rest)
  | .ended :: rest => (.ended, slice, rest)
  | .failed e :: rest => (.failed e, slice, rest)

/-- Reads as the script says and notes the length of the slice. -/
def read (s : Scripted) (slice : Bytes) : ReadReport × Bytes × Scripted :=
  let (report, slice', reads) := answer slice s.reads
  (report, slice', { s with reads := reads, offered := slice.length :: s.offered })

/-- Answers a question for readiness as the script says. -/
def poll (s : Scripted) : Readiness × Scripted :=
  match s.polls with
  | [] => (.ready, s)
  | r :: rest => (r, { s with polls := rest })

instance : Source Scripted where
  read := read
  poll := poll
  length_read s slice := by
    show (answer slice s.reads).2.1.length = slice.length
    unfold answer
    split <;> simp [length_copyFront]

end Scripted

end HttpWire
