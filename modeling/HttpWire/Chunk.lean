import HttpWire.Grammar
import HttpWire.Header
import HttpWire.Rejection

/-!
# Chunks

A chunk is the unit of a chunked body: data, extensions of its size line and, on
the last chunk only, trailer fields. A chunk without data is the last one. The two
builders check what they add, so that a chunk that could be built can be written.
-/

namespace HttpWire

/-- One extension of a size line: `;name` or `;name=value`. -/
structure Extension where
  name : Bytes
  value : Option Bytes
  deriving DecidableEq, Repr

/-- A chunk. -/
structure Chunk where
  data : Bytes
  extensions : List Extension := []
  trailers : Option Headers := none
  deriving DecidableEq, Repr

namespace Chunk

/-- The chunk without data, extensions and trailers. -/
def last : Chunk :=
  { data := [] }

/-- A chunk without data ends the body. -/
def isLast (c : Chunk) : Bool :=
  c.data.isEmpty

/-- The fields that no trailer may be: they say how the message is
framed or routed. -/
def forbiddenTrailers : List Bytes :=
  [Bytes.ofString "transfer-encoding", Bytes.ofString "content-length",
    Bytes.ofString "trailer", Bytes.ofString "host"]

/-- The field may not be a trailer. -/
def forbidsTrailer (h : Header) : Bool :=
  forbiddenTrailers.any h.isNamed

/-- Adds an extension; its name and value have to be tokens. -/
def withExtension (c : Chunk) (name : Bytes)
    (value : Option Bytes) : Except Rejection Chunk :=
  if !Grammar.isToken name then .error .extensionName
  else if !value.all Grammar.isToken then .error .extensionValue
  else .ok { c with extensions := c.extensions ++ [⟨name, value⟩] }

/-- Puts trailers on the last chunk in place of those it has. All names are
checked before any value, and the forbidden fields after both. -/
def withTrailers (c : Chunk) (trailers : Headers) : Except Rejection Chunk :=
  if !c.isLast then .error .trailersBeforeEnd
  else if !trailers.all (fun h => Grammar.isToken h.name) then .error .trailerName
  else if !trailers.all (fun h => Grammar.isFieldValue h.value) then
    .error .trailerValue
  else
    match trailers.find? forbidsTrailer with
    | some h => .error (.trailerForbidden h.name)
    | none => .ok { c with trailers := some trailers }

/-- One call on the builder of a chunk. -/
inductive Addition
  | extension (name : Bytes) (value : Option Bytes)
  | trailers (fields : Headers)
  deriving DecidableEq, Repr

/-- Makes one addition to a chunk. -/
def add (c : Chunk) : Addition → Except Rejection Chunk
  | .extension name value => c.withExtension name value
  | .trailers fields => c.withTrailers fields

/-- The chunk with this data and these additions, made in order; the first
refused one is the answer. -/
def build (data : Bytes) (additions : List Addition) : Except Rejection Chunk :=
  additions.foldlM add { data := data }

end Chunk

end HttpWire
