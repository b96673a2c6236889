import HttpWire.IoError

/-!
# Why sending a message breaks off

Once bytes of a message are out, a failure leaves a truncated message behind.
Every cause is listed here with its text; none of them can be recovered from
on the same connection.
-/

namespace HttpWire

/-- The cause for which sending breaks off. -/
inductive Failure
  /-- the body ended before its declared length -/
  | shortBody (declared written : Nat)
  /-- a source claims to have filled more room than it was given -/
  | overread (reported offered : Nat)
  /-- body bytes were sent to a body that is gone -/
  | bodyGone
  /-- a chunk was sent to a queue that is closed or gone -/
  | queueClosed
  /-- an earlier failure already ended this message -/
  | aborted
  /-- nothing came of a body that twice said it was ready -/
  | noProgress (capacity : Nat)
  /-- a source or the transport failed -/
  | io (error : IoError)
  deriving DecidableEq, Repr

/-- The text of a failure. -/
def Failure.message : Failure → String
  | .shortBody declared written =>
    "body ended after " ++ toString written ++ " of " ++ toString declared
      ++ " declared bytes"
  | .overread reported offered =>
    "invalid body: body source reported " ++ toString reported ++ " bytes for a "
      ++ toString offered
      ++ " byte buffer"
  | .bodyGone => "invalid body: body receiver dropped"
  | .queueClosed =>
    "invalid body: chunk queue closed: send failed because receiver is gone"
  | .aborted => "encoder aborted by an earlier error"
  | .noProgress capacity =>
    "encoder made no progress with " ++ toString capacity
      ++ " bytes of output space while its body was ready"
  | .io error => "io error: " ++ error.message

end HttpWire
