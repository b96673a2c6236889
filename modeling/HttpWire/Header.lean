import HttpWire.Bytes

/-!
# Header fields

A header list keeps its fields in the order they were added and their bytes as
they were given, which is what goes out. Looking a field up compares names without
regard to the case of letters. `grouped` is the order that a map of fields has
instead: names in small letters, and all values of one name together.
-/

namespace HttpWire

/-- One header field. -/
structure Header where
  name : Bytes
  value : Bytes
  deriving DecidableEq, Repr

/-- The field has this name, whatever the case of the letters. -/
def Header.isNamed (h : Header) (name : Bytes) : Bool :=
  h.name.sameLetters name

/-- Header fields in the order they were added. -/
abbrev Headers := List Header

namespace Headers

/-- The values of every field with this name, in order. -/
def valuesOf (hs : Headers) (name : Bytes) : List Bytes :=
  (hs.filter (·.isNamed name)).map (·.value)

/-- Some field has this name. -/
def has (hs : Headers) (name : Bytes) : Bool :=
  hs.any (·.isNamed name)

/-- Adds a field behind all others. -/
def add (hs : Headers) (name value : Bytes) : Headers :=
  hs ++ [⟨name, value⟩]

/-- The fields as a map of fields lists them: names in small letters, in
the order in which each name came first, with all values of a name
together in their own order. -/
def grouped (hs : Headers) : Headers :=
  let lowered := hs.map (fun h => { h with name := h.name.lower })
  (lowered.map (·.name)).eraseDups.flatMap
    (fun name => lowered.filter (·.name == name))

end Headers

end HttpWire
