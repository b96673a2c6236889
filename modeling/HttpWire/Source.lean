import HttpWire.Bytes
import HttpWire.IoError

/-!
# Body sources

A source hands out the bytes of a body without ever blocking. It is lent a slice
of a buffer, may write into it, and reports how it went; apart from that it can be
asked whether a read would get anywhere. The class says nothing about honesty: a
source may claim more bytes than the slice has, or write into it and then report
that it wrote nothing. All it cannot do is change the length of what it was lent.
-/

namespace HttpWire

/-- What a read reports. -/
inductive ReadReport
  /-- so many bytes were written to the front of the slice -/
  | data (count : Nat)
  /-- nothing to hand out yet -/
  | pending
  /-- the body is at its end -/
  | ended
  | failed (error : IoError)
  deriving DecidableEq, Repr

/-- What a source answers when it is asked whether a read would get anywhere. -/
inductive Readiness
  | ready
  | pending
  | failed (error : IoError)
  deriving DecidableEq, Repr

/-- A source of body bytes with states of type `σ`. -/
class Source (σ : Type) where
  /-- Reads into a slice: the report, the slice as it is then, and
  the source as it is then. -/
  read : σ → Bytes → ReadReport × Bytes × σ
  /-- Asks for readiness. -/
  poll : σ → Readiness × σ
  length_read : ∀ s slice, (read s slice).2.1.length = slice.length

/-- Copies what fits of `data` to the front of a slice. -/
def copyFront (data slice : Bytes) : Bytes :=
  data.take slice.length ++ slice.drop data.length

theorem length_copyFront (data slice : Bytes) :
    (copyFront data slice).length = slice.length := by
  simp [copyFront]
  omega

end HttpWire
