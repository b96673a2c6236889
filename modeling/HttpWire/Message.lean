import HttpWire.Header
import HttpWire.Status
import HttpWire.Target

/-!
# Messages before any check

A message as its owner builds it: a start line, header fields and perhaps a body.
Nothing is checked here; a request may still lack its method or its target, which
the plan of the message then refuses. The body is any type of source.
-/

namespace HttpWire

/-- The first line of a message, as far as it is given. -/
inductive StartLine
  /-- a request, whose method and target may still be missing -/
  | request (method target : Option Bytes)
  /-- a response, whose reason phrase stands in for the registered
  one if it is given -/
  | response (status : Status) (reason : Option Bytes)
  deriving DecidableEq

/-- The line begins a request. -/
def StartLine.isRequest : StartLine → Bool
  | .request .. => true
  | .response .. => false

/-- A message with a body of type `σ`. -/
structure Message (σ : Type) where
  startLine : StartLine
  headers : Headers := []
  body : Option σ := none

namespace Message

variable {σ : Type}

/-- A request without method, target, fields and body. -/
def request : Message σ :=
  { startLine := .request none none }

/-- A response with the registered reason phrase of its status. -/
def response (status : Status) : Message σ :=
  { startLine := .response status none }

/-- A request for a uri with the fields of a map. -/
def requestFor (method uri : String) (fields : Headers)
    (body : Option σ) : Message σ :=
  { startLine := .request (some (Bytes.ofString method)) (some (Target.ofUri uri))
    headers := fields.grouped
    body := body }

/-- A response with the fields of a map. -/
def responseWith (status : Status) (fields : Headers) (body : Option σ) : Message σ :=
  { startLine := .response status none, headers := fields.grouped, body := body }

/-- Sets the method of a request; a response stays as it is. -/
def setMethod (m : Message σ) (method : Bytes) : Message σ :=
  match m.startLine with
  | .request _ target => { m with startLine := .request (some method) target }
  | .response .. => m

/-- Sets the target of a request; a response stays as it is. -/
def setTarget (m : Message σ) (target : Bytes) : Message σ :=
  match m.startLine with
  | .request method _ => { m with startLine := .request method (some target) }
  | .response .. => m

/-- Sets the reason phrase of a response; a request stays as it is. -/
def setReason (m : Message σ) (reason : Bytes) : Message σ :=
  match m.startLine with
  | .request .. => m
  | .response status _ => { m with startLine := .response status (some reason) }

/-- Adds a field behind all others. -/
def addHeader (m : Message σ) (name value : Bytes) : Message σ :=
  { m with headers := m.headers.add name value }

/-- Gives the message a body, or takes it away. -/
def withBody (m : Message σ) (body : Option σ) : Message σ :=
  { m with body := body }

end Message

end HttpWire
