/-!
# Input and output errors

Body sources and transports fail with an error of a kind, with or
without a text of its own.
-/

namespace HttpWire

/-- What kind of input or output failed. -/
inductive IoKind
  | notFound
  | permissionDenied
  | connectionReset
  | connectionAborted
  | brokenPipe
  | wouldBlock
  | invalidData
  | timedOut
  | writeZero
  | interrupted
  | unexpectedEnd
  | other
  deriving DecidableEq, Repr

/-- The text of an error that has none of its own. -/
def IoKind.describe : IoKind → String
  | .notFound => "entity not found"
  | .permissionDenied => "permission denied"
  | .connectionReset => "connection reset"
  | .connectionAborted => "connection aborted"
  | .brokenPipe => "broken pipe"
  | .wouldBlock => "operation would block"
  | .invalidData => "invalid data"
  | .timedOut => "timed out"
  | .writeZero => "write zero"
  | .interrupted => "operation interrupted"
  | .unexpectedEnd => "unexpected end of file"
  | .other => "other error"

/-- An input or output error. -/
structure IoError where
  kind : IoKind
  text : Option String := none
  deriving DecidableEq, Repr

/-- The text of an error: its own, or that of its kind. -/
def IoError.message (e : IoError) : String :=
  e.text.getD e.kind.describe

end HttpWire
