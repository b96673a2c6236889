import Mathlib.Data.List.Induction
import HttpWire.Proofs.ReadBack

/-!
# What can be built can be read

A chunk is built by additions, each of which is checked alone. Whether an addition
is made depends on nothing but itself and on whether the chunk has data, so the
additions that are made are the ones that are allowed, in any order, and the chunk
can be told from them: its extensions in the order in which they were added, and
the trailers that were put on it last (`Chunk.build_eq_ok_iff`).

What is allowed is just what the written form of a chunk can carry. A receiver
gets every chunk back that can be built, and the bytes behind it are left as they
are (`Chunk.read_of_build`), so two chunks that are written alike differ at most
in whether they have no trailers or an empty list of them (`Chunk.eq_of_wire`).
-/

namespace HttpWire

namespace Chunk

namespace Addition

/-- The addition may be made to a chunk with this data. -/
def Allowed (data : Bytes) : Addition → Prop
  | .extension name value => Plan.IsToken name ∧ ∀ x, value = some x → Plan.IsToken x
  | .trailers fields =>
    data = [] ∧ ∀ h ∈ fields, Plan.IsToken h.name ∧ Plan.IsText h.value
      ∧ h.name.lower
        ∉ ["transfer-encoding", "content-length", "trailer", "host"].map Bytes.ofString

/-- The extension that is added. -/
def extension? : Addition → Option Extension
  | .extension name value => some ⟨name, value⟩
  | .trailers _ => none

/-- The trailers that are put on. -/
def trailers? : Addition → Option Headers
  | .extension _ _ => none
  | .trailers fields => some fields

end Addition

/-- The chunk that is built of this data by these additions. -/
def built (data : Bytes) (additions : List Addition) : Chunk where
  data := data
  extensions := additions.filterMap Addition.extension?
  trailers := (additions.filterMap Addition.trailers?).getLast?

/-! ## One addition -/

theorem forbidsTrailer_iff {h : Header} :
    forbidsTrailer h = true ↔
    h.name.lower ∈ ["transfer-encoding", "content-length", "trailer", "host"].map
      Bytes.ofString := by
  have hsmall : ∀ name ∈ forbiddenTrailers, name.lower = name := by decide
  rw [forbidsTrailer, List.any_eq_true]
  constructor
  · rintro ⟨name, hname, hnamed⟩
    rw [Header.isNamed_iff, hsmall name hname] at hnamed
    rw [hnamed]
    exact hname
  · intro hmem
    exact ⟨h.name.lower, hmem, Header.isNamed_iff.mpr (Bytes.lower_lower h.name).symm⟩

theorem withExtension_eq_ok_iff {c c' : Chunk} {name : Bytes} {value : Option Bytes} :
    c.withExtension name value = .ok c' ↔
      (Addition.extension name value).Allowed c.data
        ∧ c' = { c with extensions := c.extensions ++ [⟨name, value⟩] } := by
  have hvalue : value.all Grammar.isToken = true ↔ ∀ x, value = some x →
      Plan.IsToken x := by
    cases value <;> simp [Plan.isToken_iff]
  rw [withExtension, Addition.Allowed, ← hvalue, ← Plan.isToken_iff]
  cases Grammar.isToken name <;> cases value.all Grammar.isToken <;> simp [eq_comm]

theorem withTrailers_eq_ok_iff {c c' : Chunk} {fields : Headers} :
    c.withTrailers fields = .ok c' ↔
      (Addition.trailers fields).Allowed c.data
        ∧ c' = { c with trailers := some fields } := by
  have hlast : c.isLast = true ↔ c.data = [] := List.isEmpty_iff
  have hnames : fields.all (fun h => Grammar.isToken h.name) = true ↔
      ∀ h ∈ fields, Plan.IsToken h.name := by
    simp only [List.all_eq_true, Plan.isToken_iff]
  have hvalues : fields.all (fun h => Grammar.isFieldValue h.value) = true ↔
      ∀ h ∈ fields, Plan.IsText h.value := by
    simp only [List.all_eq_true, Plan.isFieldValue_iff]
  have hfree : fields.find? forbidsTrailer = none ↔ ∀ h ∈ fields,
      h.name.lower ∉ ["transfer-encoding", "content-length", "trailer", "host"].map
          Bytes.ofString := by
    simp only [List.find?_eq_none, forbidsTrailer_iff]
  have hallowed : (Addition.trailers fields).Allowed c.data ↔
      c.isLast = true ∧ fields.all (fun h => Grammar.isToken h.name) = true
        ∧ fields.all (fun h => Grammar.isFieldValue h.value) = true
        ∧ fields.find? forbidsTrailer = none := by
    rw [hlast, hnames, hvalues, hfree]
    simp only [Addition.Allowed, forall_and]
  rw [hallowed, withTrailers]
  cases c.isLast with
  | false => simp
  | true =>
    cases fields.all (fun h => Grammar.isToken h.name) with
    | false => simp
    | true =>
      cases fields.all (fun h => Grammar.isFieldValue h.value) with
      | false => simp
      | true =>
        cases fields.find? forbidsTrailer with
        | none => simp [eq_comm]
        | some h => simp

/-! ## All additions -/

theorem add_eq_ok_iff {data : Bytes} {additions : List Addition}
    {addition : Addition} {c : Chunk} :
    (built data additions).add addition = .ok c ↔
      addition.Allowed data ∧ c = built data (additions ++ [addition]) := by
  cases addition with
  | extension name value =>
    rw [add, withExtension_eq_ok_iff]
    simp [built, Addition.extension?, Addition.trailers?]
  | trailers fields =>
    have hnone : Addition.extension? (.trailers fields) = none := rfl
    rw [add, withTrailers_eq_ok_iff]
    simp [built, List.filterMap_cons_none hnone, Addition.trailers?]

/-- A chunk is built exactly if every addition is allowed, and then
it is made of them. -/
theorem build_eq_ok_iff {data : Bytes} {additions : List Addition} {c : Chunk} :
    build data additions = .ok c ↔
      (∀ a ∈ additions, a.Allowed data) ∧ c = built data additions := by
  induction additions using List.reverseRecOn generalizing c with
  | nil => simp [build, built, pure, Except.pure, eq_comm]
  | append_singleton additions addition ih =>
    have hconcat : build data (additions ++ [addition]) = build data additions
        >>= (·.add addition) := by
      simp [build, List.foldlM_append]
    rw [hconcat, List.forall_mem_append, List.forall_mem_singleton, and_assoc,
      ← add_eq_ok_iff]
    constructor
    · intro h
      obtain ⟨before, hbefore, hadd⟩ := Plan.bind_eq_ok h
      obtain ⟨hall, rfl⟩ := ih.mp hbefore
      exact ⟨hall, hadd⟩
    · rintro ⟨hall, hadd⟩
      rw [ih.mpr ⟨hall, rfl⟩]
      exact hadd

theorem mem_extensions_built {data : Bytes} {additions : List Addition}
    {e : Extension} (he : e ∈ (built data additions).extensions) :
    .extension e.name e.value ∈ additions := by
  obtain ⟨addition, hmem, hsome⟩ := List.mem_filterMap.mp he
  cases addition with
  | extension name value =>
    cases hsome
    exact hmem
  | trailers fields => cases hsome

theorem mem_of_trailers_built {data : Bytes} {additions : List Addition}
    {fields : Headers} (h : (built data additions).trailers = some fields) :
    .trailers fields ∈ additions := by
  obtain ⟨addition, hmem, hsome⟩ := List.mem_filterMap.mp (List.mem_of_getLast? h)
  cases addition with
  | extension name value => cases hsome
  | trailers fields =>
    cases hsome
    exact hmem

/-! ## What a receiver makes of it -/

/-- A chunk that could be built has extensions of tokens, and trailers only if it
has no data and only such as may stand there; and a receiver gets from its bytes
just what was put in, and leaves what is behind them. -/
theorem read_of_build {data : Bytes} {additions : List Addition} {c : Chunk}
    (h : build data additions = .ok c) :
    (c.data = data ∧ c.extensions = additions.filterMap Addition.extension?
        ∧ c.trailers = (additions.filterMap Addition.trailers?).getLast?)
      ∧ (∀ e ∈ c.extensions,
        Plan.IsToken e.name ∧ ∀ x, e.value = some x → Plan.IsToken x)
      ∧ (∀ fields, c.trailers = some fields → c.data = []
        ∧ ∀ h ∈ fields, Plan.IsToken h.name ∧ Plan.IsText h.value
          ∧ h.name.lower ∉ ["transfer-encoding", "content-length", "trailer",
            "host"].map Bytes.ofString)
      ∧ ∀ rest, Receiver.chunk (c.wire ++ rest)
        = .complete ⟨c.data, c.extensions, c.trailers.getD []⟩ rest := by
  have hreads := (valid_of_build h).reads_chunk
  obtain ⟨hall, rfl⟩ := build_eq_ok_iff.mp h
  refine ⟨⟨rfl, rfl, rfl⟩, ?_, ?_, hreads⟩
  · intro e he
    exact hall _ (mem_extensions_built he)
  · intro fields hfields
    exact hall _ (mem_of_trailers_built hfields)

/-- A last chunk with two extensions, of which one has a value, and trailers
that were put on it twice. -/
def signedAdditions : List Addition :=
  [.trailers [], .extension (Bytes.ofString "sig") (some (Bytes.ofString "abc")),
    .trailers [⟨Bytes.ofString "Expires", Bytes.ofString "0"⟩],
      .extension (Bytes.ofString "last") none]

theorem read_of_build_signed :
    build [] signedAdditions = .ok (built [] signedAdditions)
      ∧ (built [] signedAdditions).wire
        = Bytes.ofString "0;sig=abc;last\r\nExpires: 0\r\n\r\n"
      ∧ ∀ rest, Receiver.chunk ((built [] signedAdditions).wire ++ rest) = .complete
        ⟨[], [⟨Bytes.ofString "sig", some (Bytes.ofString "abc")⟩,
          ⟨Bytes.ofString "last", none⟩],
          [⟨Bytes.ofString "Expires", Bytes.ofString "0"⟩]⟩ rest := by
  have hbuild : build [] signedAdditions = .ok (built [] signedAdditions) := by rfl
  exact ⟨hbuild, by decide +kernel, (read_of_build hbuild).2.2.2⟩

/-- Chunks that could be built and are written alike are alike,
whatever stands behind them. -/
theorem eq_of_wire {data data' : Bytes} {additions additions' : List Addition}
    {c c' : Chunk} {rest rest' : Bytes} (h : build data additions = .ok c)
    (h' : build data' additions' = .ok c')
    (hwire : c.wire ++ rest = c'.wire ++ rest') :
    c.data = c'.data ∧ c.extensions = c'.extensions
      ∧ c.trailers.getD [] = c'.trailers.getD [] ∧ rest = rest' := by
  have hread := (valid_of_build h).reads_chunk rest
  rw [hwire, (valid_of_build h').reads_chunk rest'] at hread
  simp only [Reading.complete.injEq, received, ReceivedChunk.mk.injEq] at hread
  obtain ⟨⟨hdata, hextensions, htrailers⟩, hrest⟩ := hread
  exact ⟨hdata.symm, hextensions.symm, htrailers.symm, hrest.symm⟩

end Chunk

end HttpWire
