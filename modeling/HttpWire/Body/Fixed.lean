import HttpWire.Supply

/-!
# Bodies of a declared length

Exactly the declared number of bytes is taken from the source, straight into the
output buffer. Every read is lent what is still missing, or what still fits if
that is less. A source that ends early cannot be made good on the wire, so it is a
failure and not padded.
-/

namespace HttpWire

/-- How far a body of a declared length has been written. -/
structure FixedBody where
  length : Nat
  written : Nat := 0
  deriving DecidableEq, Repr

namespace FixedBody

variable {σ : Type} [Source σ]

/-- All declared bytes are written. -/
def isDone (f : FixedBody) : Bool :=
  f.length - f.written == 0

/-- Reads from the source until the declared bytes are written, the room is used
up, or a read brings nothing. -/
def fill (f : FixedBody) (source : σ) (queue : Option ChunkQueue)
    (dst : Buffer) : Written FixedBody σ :=
  if f.length - f.written = 0 then ⟨.ok .done, f, ⟨some source, queue⟩, dst⟩
  else if dst.room = 0 then ⟨.ok .inProgress, f, ⟨some source, queue⟩, dst⟩
  else
    let size := min (f.length - f.written) dst.room
    match dst.lend dst.length size source with
    | (.data n, filled, source) =>
      if _h : size < n then
        ⟨.error (.overread n size), f, ⟨some source, queue⟩,
          filled.truncate dst.length⟩
      else if n = 0 then
        ⟨.ok .inProgress, f, ⟨some source, queue⟩, filled.truncate dst.length⟩
      else
        fill { f with written := f.written + n } source queue
          (filled.truncate (dst.length + n))
    | (.pending, filled, source) =>
      ⟨.ok .inProgress, f, ⟨some source, queue⟩, filled.truncate dst.length⟩
    | (.ended, filled, source) =>
      ⟨.error (.shortBody f.length f.written), f, ⟨some source, queue⟩,
        filled.truncate dst.length⟩
    | (.failed e, filled, source) =>
      ⟨.error (.io e), f, ⟨some source, queue⟩, filled.truncate dst.length⟩
termination_by f.length - f.written
decreasing_by omega

/-- Writes what there is and what fits. Without a source the body ends
before its first byte. -/
def write (f : FixedBody) (supply : Supply σ) (dst : Buffer) : Written FixedBody σ :=
  if f.isDone then ⟨.ok .done, f, supply, dst⟩
  else
    match supply.body with
    | none => ⟨.error (.shortBody f.length f.written), f, supply, dst⟩
    | some source => f.fill source supply.queue dst

/-- Ready as the source is, as long as bytes are missing. -/
def poll (f : FixedBody) (supply : Supply σ) : Readiness × Supply σ :=
  match supply.body with
  | none => (.ready, supply)
  | some source =>
    if f.isDone then (.ready, supply)
    else
      let (readiness, source) := Source.poll source
      (readiness, { supply with body := some source })

end FixedBody

end HttpWire
