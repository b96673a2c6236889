import HttpWire.Bytes
import HttpWire.IoError

/-!
# Transports

What a message is finally written to: something that accepts a front
part of the bytes it is offered, and can be told to flush. Both may have
to be tried again later.
-/

namespace HttpWire

/-- What a transport answers to bytes it is offered. -/
inductive WriteReport
  | accepted (count : Nat)
  | pending
  | failed (error : IoError)
  deriving DecidableEq, Repr

/-- What a transport answers to a flush. -/
inductive FlushReport
  | flushed
  | pending
  | failed (error : IoError)
  deriving DecidableEq, Repr

/-- A transport with states of type `τ`. It never accepts more than it is
offered. -/
class Transport (τ : Type) where
  write : τ → Bytes → WriteReport × τ
  flush : τ → FlushReport × τ
  accepted_le : ∀ t offered n, (write t offered).1 = .accepted n → n ≤ offered.length

end HttpWire
