import HttpWire.Transport

/-!
# Transports that follow a script

A transport that answers writes and flushes as two lists say, and keeps
what it accepted and what was asked of it. Past the end of the lists it
accepts everything at once.
-/

namespace HttpWire

/-- One entry of a script of writes. -/
inductive ScriptedWrite
  /-- accepts so many bytes, or all if there are fewer -/
  | atMost (count : Nat)
  | pending
  | failed (error : IoError)
  deriving DecidableEq, Repr

/-- What was asked of a transport and how it answered. -/
inductive TransportEvent
  | write (offered : Nat) (report : WriteReport)
  | flush (report : FlushReport)
  deriving DecidableEq, Repr

/-- A transport that follows a script. -/
structure ScriptedTransport where
  writes : List ScriptedWrite := []
  flushes : List FlushReport := []
  /-- the accepted pieces, the last one first -/
  accepted : List Bytes := []
  /-- what was asked, the last event first -/
  events : List TransportEvent := []
  deriving DecidableEq, Repr

namespace ScriptedTransport

/-- Everything accepted so far. -/
def output (t : ScriptedTransport) : Bytes :=
  t.accepted.reverse.flatten

/-- The answer to the next write of `size` bytes and the rest of the script. -/
def nextWrite (size : Nat) : List ScriptedWrite → WriteReport × List ScriptedWrite
  | [] => (.accepted size, [])
  | .atMost count :: rest => (.accepted (min count size), rest)
  | .pending :: rest => (.pending, rest)
  | .failed e :: rest => (.failed e, rest)

/-- The bytes that an answer accepts. -/
def acceptedPart (offered : Bytes) : WriteReport → Bytes
  | .accepted count => offered.take count
  | .pending | .failed _ => []

/-- Answers a write as the script says. -/
def write (t : ScriptedTransport)
    (offered : Bytes) : WriteReport × ScriptedTransport :=
  let (report, writes) := nextWrite offered.length t.writes
  (report, { t with
    writes := writes
    accepted := acceptedPart offered report :: t.accepted
    events := .write offered.length report :: t.events })

/-- Answers a flush as the script says. -/
def flush (t : ScriptedTransport) : FlushReport × ScriptedTransport :=
  match t.flushes with
  | [] => (.flushed, { t with events := .flush .flushed :: t.events })
  | report :: rest =>
    (report, { t with flushes := rest, events := .flush report :: t.events })

theorem nextWrite_le (size : Nat) (script : List ScriptedWrite) (n : Nat)
    (h : (nextWrite size script).1 = .accepted n) : n ≤ size := by
  unfold nextWrite at h
  split at h <;> simp at h <;> omega

instance : Transport ScriptedTransport where
  write := write
  flush := flush
  accepted_le t offered n h := nextWrite_le offered.length t.writes n h

/-- The events not yet told, in order, and the transport with all of them told. -/
def takeEvents (t : ScriptedTransport) : List TransportEvent × ScriptedTransport :=
  (t.events.reverse, { t with events := [] })

end ScriptedTransport

end HttpWire
