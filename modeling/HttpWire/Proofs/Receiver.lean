import HttpWire.Chunk
import HttpWire.Head
import HttpWire.Proofs.Numerals
import HttpWire.Proofs.Reading

/-!
# A receiver

The other side of the wire, as the standard describes it. A receiver knows
nothing of plans and encoders: it has the bytes, and of a response it knows
whether its body was asked for. It reads a start line, then fields up to a
blank line, and then as much of a body as status and fields announce: chunks
if there is a transfer coding, otherwise as many bytes as the first length
says, otherwise nothing.

It is as generous as it can be where a writer has no choice, so that what it gets
back is not there because it was asked for: sizes may have leading zeros and
capitals, and lines may hold any bytes but a line end. Every reader here is
stable, which is all that is needed for a truncated message to be recognised.
-/

namespace HttpWire

/-- A chunk as a receiver reads it. Only a chunk without data can have trailers. -/
structure ReceivedChunk where
  data : Bytes
  extensions : List Extension
  trailers : Headers
  deriving DecidableEq, Repr

/-- A body as it is received: as one byte string, or chunk by chunk. -/
inductive ReceivedBody
  | plain (data : Bytes)
  | chunked (chunks : List ReceivedChunk)
  deriving DecidableEq, Repr

/-- A message as a receiver reads it. -/
structure ReceivedMessage where
  startLine : CheckedLine
  headers : Headers
  body : ReceivedBody
  deriving DecidableEq

/-- The data of a body, without regard to how it was framed. -/
def ReceivedBody.data : ReceivedBody → Bytes
  | plain data => data
  | chunked chunks => chunks.flatMap ReceivedChunk.data

/-- The chunk that ends a body is the one without data. -/
def ReceivedChunk.isLast (c : ReceivedChunk) : Bool :=
  c.data.isEmpty

namespace Receiver

/-- What stands before and behind the first such byte. -/
def cutAt (sep : UInt8) : Bytes → Option (Bytes × Bytes)
  | [] => none
  | b :: rest =>
    if b = sep then some ([], rest)
    else
      match cutAt sep rest with
      | none => none
      | some (before, behind) => some (b :: before, behind)

/-- Reads a start line: three parts between two spaces, of which the first or
the last is the version. -/
def startLine? (line : Bytes) : Option CheckedLine :=
  match cutAt 32 line with
  | none => none
  | some (first, more) =>
    match cutAt 32 more with
    | none => none
    | some (second, third) =>
      if first = httpVersion then
        match (Numeral.value? 10 Numeral.decimalDigit? second).bind Status.ofNat? with
        | none => none
        | some status => some (.response status third)
      else if third = httpVersion then some (.request first second)
      else none

/-- Reads a field line: a name, a colon, a space and the value. -/
def field? (line : Bytes) : Option Header :=
  match cutAt 58 line with
  | some (name, 32 :: value) => some ⟨name, value⟩
  | _ => none

/-- Reads an extension: a name, and what follows its sign of equality. -/
def extension (x : Bytes) : Extension :=
  match cutAt 61 x with
  | none => ⟨x, none⟩
  | some (name, value) => ⟨name, some value⟩

/-- Reads a size line: the size in base 16, and extensions behind semicolons. -/
def sizeLine? (line : Bytes) : Option (Nat × List Extension) :=
  match line.splitOn 59 with
  | [] => none
  | size :: extensions =>
    match Numeral.value? 16 Numeral.hexDigit? size with
    | none => none
    | some n => some (n, extensions.map extension)

/-- Takes field lines up to a blank line. -/
def fields : Reader Headers := do
  let lines ← Reader.items Reader.line List.isEmpty
  Reader.accept (lines.dropLast.mapM field?)

/-- Takes a line end. -/
def lineEnd : Reader Unit := do
  let x ← Reader.take 2
  Reader.accept (if x = Bytes.crlf then some () else none)

/-- Takes a chunk; behind the size line of the last one come the trailers. -/
def chunk : Reader ReceivedChunk := do
  let line ← Reader.line
  let (size, extensions) ← Reader.accept (sizeLine? line)
  if size = 0 then
    let trailers ← fields
    return ⟨[], extensions, trailers⟩
  else
    let data ← Reader.take size
    lineEnd
    return ⟨data, extensions, []⟩

/-- The body that the fields announce is not there: behind a status of 304, and
if it was not asked for. -/
def lacksBody (ignored : Bool) : CheckedLine → Bool
  | .request .. => false
  | .response status _ => ignored || status.code == 304

/-- Takes a body, of which nothing is known but the status and the fields. -/
def body (ignored : Bool) (line : CheckedLine) (hs : Headers) : Reader ReceivedBody :=
  if lacksBody ignored line then return .plain []
  else if hs.has Plan.transferEncoding then do
    let chunks ← Reader.items chunk ReceivedChunk.isLast
    return .chunked chunks
  else
    match hs.valuesOf Plan.contentLengthName with
    | [] => return .plain []
    | value :: _ => do
      let n ← Reader.accept (Numeral.value? 10 Numeral.decimalDigit? value)
      let data ← Reader.take n
      return .plain data

/-- Takes a message; a response whose body was not asked for is known to be one. -/
def message (ignored : Bool) : Reader ReceivedMessage := do
  let line ← Reader.line
  let startLine ← Reader.accept (startLine? line)
  let headers ← fields
  let body ← body ignored startLine headers
  return ⟨startLine, headers, body⟩

/-! ## Every reader is stable -/

open Reader

theorem stable_fields : Stable fields :=
  (stable_items _ stable_line).bind (fun _ => stable_accept _)

theorem stable_lineEnd : Stable lineEnd :=
  (stable_take 2).bind (fun _ => stable_accept _)

theorem stable_chunk : Stable chunk := by
  refine stable_line.bind (fun line => (stable_accept _).bind ?_)
  rintro ⟨size, extensions⟩
  show Stable (if size = 0 then _ else _)
  split
  · exact stable_fields.bind (fun _ => stable_pure _)
  · exact (stable_take size).bind
      (fun _ => stable_lineEnd.bind (fun _ => stable_pure _))

theorem stable_body (ignored : Bool) (line : CheckedLine) (hs : Headers) :
    Stable (body ignored line hs) := by
  unfold body
  split
  · exact stable_pure _
  · split
    · exact (stable_items _ stable_chunk).bind (fun _ => stable_pure _)
    · split
      · exact stable_pure _
      · exact (stable_accept _).bind
          (fun n => (stable_take n).bind (fun _ => stable_pure _))

theorem stable_message (ignored : Bool) : Stable (message ignored) :=
  stable_line.bind (fun _ => (stable_accept _).bind (fun _ =>
    stable_fields.bind (fun _ => (stable_body _ _ _).bind (fun _ => stable_pure _))))

end Receiver

end HttpWire
