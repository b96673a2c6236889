import HttpWire.Grammar.Elements
import HttpWire.Message
import HttpWire.Rejection

/-!
# The plan of a message

Before a byte is written, a message is checked and the delimitation of its body
decided. The header fields decide it: a list of transfer codings that ends in
`chunked` means chunks, otherwise a length means that many bytes, otherwise there
is no body. The checks have a fixed order and the first that fails is the answer:
start line, all field names, all field values, transfer codings, codings beside a
length, lengths, and last whether the response may announce a body at all.
-/

namespace HttpWire

/-- How a body is delimited. -/
inductive Framing
  /-- by its length, which is not zero -/
  | length (n : Nat)
  /-- by the chunks it is made of -/
  | chunked
  /-- there is none -/
  | empty
  deriving DecidableEq, Repr

/-- A start line that can be written. -/
inductive CheckedLine
  | request (method target : Bytes)
  | response (status : Status) (reason : Bytes)
  deriving DecidableEq

/-- What decides the framing beside the message itself. -/
structure PlanOptions where
  /-- the fields of a response announce a body that is not sent, as
  in an answer to `HEAD` -/
  bodyIgnored : Bool := false
  deriving DecidableEq, Repr

/-- A checked message and the delimitation of its body. -/
structure Plan where
  startLine : CheckedLine
  headers : Headers
  framing : Framing
  /-- the transfer codings end in the chunked one -/
  chunked : Bool
  /-- the connection is to be closed after the message -/
  closesConnection : Bool
  /-- the announced length; zero without one and with chunks -/
  contentLength : Nat
  /-- the announced body is not sent -/
  bodyIgnored : Bool
  deriving DecidableEq

namespace Plan

/-- The name of the field that lists the transfer codings. -/
def transferEncoding : Bytes := Bytes.ofString "transfer-encoding"

/-- The name of the field that announces a length. -/
def contentLengthName : Bytes := Bytes.ofString "content-length"

/-- The name of the field that lists the options of the connection. -/
def connection : Bytes := Bytes.ofString "connection"

/-- The name of the chunked coding. -/
def chunkedCoding : Bytes := Bytes.ofString "chunked"

/-- The option that closes the connection. -/
def closeOption : Bytes := Bytes.ofString "close"

/-- Checks a start line. -/
def checkStartLine : StartLine → Except Rejection CheckedLine
  | .request method target =>
    match method with
    | none => .error .method
    | some method =>
      if !Grammar.isToken method then .error .method
      else
        match target with
        | none => .error .target
        | some target =>
          if !Grammar.isTarget target then .error .target
            else .ok (.request method target)
  | .response status none => .ok (.response status status.defaultReason)
  | .response status (some reason) =>
    if !Grammar.isReasonPhrase reason then .error .reason
      else .ok (.response status reason)

/-- Checks all names and then all values, so that a bad name wins
over a bad value. -/
def checkFields (hs : Headers) : Except Rejection Unit :=
  match hs.find? (fun h => !Grammar.isToken h.name) with
  | some h => .error (.fieldName h.name)
  | none =>
    match hs.find? (fun h => !Grammar.isFieldValue h.value) with
    | some h => .error (.fieldValue h.name)
    | none => .ok ()

/-- The transfer codings of all fields in order, as one list; an
empty element counts. -/
def codings (hs : Headers) : List Bytes :=
  (hs.valuesOf transferEncoding).flatMap Grammar.pieces

/-- Whether the message is chunked. The list of codings has to end in the chunked
one, which may be applied only once, and no element may be empty. -/
def checkCodings (hs : Headers) : Except Rejection Bool :=
  let codings := codings hs
  if codings.any (·.isEmpty) then .error .emptyCoding
  else
    match codings.getLast? with
    | none => .ok false
    | some final =>
      if !final.sameLetters chunkedCoding then .error .chunkedNotLast
      else if codings.countP (·.sameLetters chunkedCoding) ≠ 1 then
        .error .chunkedTwice
      else .ok true

/-- Agrees on one length: every value is read in turn and has to
equal those before it. -/
def agreeOnLength (previous : Option Nat) : List Bytes → Except Rejection (Option Nat)
  | [] => .ok previous
  | value :: more =>
    match Decimal.parse? value with
    | none => .error (.lengthNotDecimal value)
    | some n =>
      match previous with
      | none => agreeOnLength (some n) more
      | some first =>
        if first ≠ n then .error (.lengthConflict first n)
          else agreeOnLength (some first) more

/-- The announced length, zero without one. A chunked message announces none. -/
def checkLength (hs : Headers) (chunked : Bool) : Except Rejection Nat :=
  if chunked then
    (if hs.has contentLengthName then .error .chunkedWithLength else .ok 0)
  else (agreeOnLength none (hs.valuesOf contentLengthName)).map (·.getD 0)

/-- A response that never has a body may not announce one. -/
def checkStatus (line : CheckedLine) (hs : Headers) : Except Rejection Unit :=
  match line with
  | .request .. => .ok ()
  | .response status _ =>
    if status.forbidsFraming
        && (hs.has contentLengthName || hs.has transferEncoding) then
      .error (.framingForbidden status)
    else .ok ()

/-- The announced body is not sent: in a response with status 304, and in any
response if the options say so. -/
def ignoresBody (line : CheckedLine) (options : PlanOptions) : Bool :=
  match line with
  | .request .. => false
  | .response status _ => options.bodyIgnored || status.code == 304

/-- Some option of the connection is to close it. -/
def asksToClose (hs : Headers) : Bool :=
  ((hs.valuesOf connection).flatMap Grammar.elements).any (·.sameLetters closeOption)

/-- The framing that the checked fields come to. -/
def framingOf (ignored chunked : Bool) (length : Nat) : Framing :=
  if ignored then .empty
  else if chunked then .chunked
  else if length = 0 then .empty
  else .length length

/-- Checks a message and plans its framing. -/
def make (startLine : StartLine) (hs : Headers)
    (options : PlanOptions) : Except Rejection Plan := do
  let line ← checkStartLine startLine
  checkFields hs
  let chunked ← checkCodings hs
  let length ← checkLength hs chunked
  checkStatus line hs
  let ignored := ignoresBody line options
  return {
    startLine := line
    headers := hs
    framing := framingOf ignored chunked length
    chunked := chunked
    closesConnection := asksToClose hs
    contentLength := length
    bodyIgnored := ignored }

end Plan

/-- The plan of a message. -/
def Message.plan {σ : Type} (m : Message σ)
    (options : PlanOptions) : Except Rejection Plan :=
  Plan.make m.startLine m.headers options

end HttpWire
