import HttpWire.Status
import HttpWire.Text.Quoted

/-!
# Why a message or a chunk is refused

Everything that is checked before a byte is written has its cause here. `category`
is the coarse class that callers branch on and `message` the text they show.
-/

namespace HttpWire

/-- The cause for which a message or a chunk is refused. -/
inductive Rejection
  /-- the method is missing or no token -/
  | method
  /-- the request target is missing or not writable -/
  | target
  /-- the reason phrase has a control byte -/
  | reason
  /-- a field name is no token -/
  | fieldName (name : Bytes)
  /-- the value of the field with this name has a control byte -/
  | fieldValue (name : Bytes)
  /-- the list of transfer codings has an empty element -/
  | emptyCoding
  /-- the last transfer coding is not the chunked one -/
  | chunkedNotLast
  /-- the chunked coding is applied more than once -/
  | chunkedTwice
  /-- the body is announced both as chunked and with a length -/
  | chunkedWithLength
  /-- a length is no canonical decimal numeral -/
  | lengthNotDecimal (value : Bytes)
  /-- two lengths differ -/
  | lengthConflict (first second : Nat)
  /-- a response that cannot have a body announces one -/
  | framingForbidden (status : Status)
  /-- trailers on a chunk that is not the last one -/
  | trailersBeforeEnd
  /-- a trailer name is no token -/
  | trailerName
  /-- a trailer value has a control byte -/
  | trailerValue
  /-- a trailer that would change how the message is read -/
  | trailerForbidden (name : Bytes)
  /-- an extension name is no token -/
  | extensionName
  /-- an extension value is no token -/
  | extensionValue
  deriving DecidableEq

/-- The classes of rejections. -/
inductive Rejection.Category
  | method
  | target
  | reason
  | fieldName
  | fieldValue
  | field
  | chunkExtension
  deriving DecidableEq, Repr

namespace Rejection

/-- The class a cause belongs to. -/
def category : Rejection → Category
  | .method => .method
  | .target => .target
  | .reason => .reason
  | .fieldName _ | .trailerName => .fieldName
  | .fieldValue _ | .emptyCoding | .chunkedNotLast | .chunkedTwice
  | .lengthNotDecimal _ | .lengthConflict _ _ | .trailerValue => .fieldValue
  | .chunkedWithLength | .framingForbidden _ | .trailersBeforeEnd
  | .trailerForbidden _ => .field
  | .extensionName | .extensionValue => .chunkExtension

/-- What is said about every cause of a class. -/
def Category.heading : Category → String
  | .method => "invalid http method"
  | .target => "invalid http request path"
  | .reason => "invalid http reason phrase"
  | .fieldName => "invalid header name"
  | .fieldValue => "invalid header value"
  | .field => "invalid header field"
  | .chunkExtension => "invalid chunk extension"

/-- What is said about one cause beyond its class. -/
def detail : Rejection → Option String
  | .method | .target | .reason => none
  | .fieldName name => some (Text.quote name ++ " is not a token")
  | .fieldValue name =>
    some ("value of " ++ Text.decode name ++ " contains control characters")
  | .emptyCoding => some "transfer-encoding has an empty coding"
  | .chunkedNotLast => some "transfer-encoding must end with chunked"
  | .chunkedTwice => some "chunked transfer coding applied more than once"
  | .chunkedWithLength =>
    some "transfer-encoding chunked and content-length both present in headers"
  | .lengthNotDecimal value =>
    some ("content-length " ++ Text.quote value ++ " is not a decimal")
  | .lengthConflict first second =>
    some ("conflicting content-length values " ++ toString first ++ " and "
      ++ toString second)
  | .framingForbidden status =>
    some ("status " ++ status.describe ++ " must not carry body framing headers")
  | .trailersBeforeEnd => some "only the last chunk can carry trailers"
  | .trailerName => some "trailer name is not a token"
  | .trailerValue => some "trailer value contains control characters"
  | .trailerForbidden name => some (Text.decode name ++ " is not allowed as a trailer")
  | .extensionName => some "extension name is not a token"
  | .extensionValue => some "extension value is not a token"

/-- The text of a rejection. -/
def message (r : Rejection) : String :=
  match r.detail with
  | none => r.category.heading
  | some detail => r.category.heading ++ ": " ++ detail

end Rejection

end HttpWire
