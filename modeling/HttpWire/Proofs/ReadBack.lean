import HttpWire.Proofs.Bodies
import HttpWire.Proofs.Planning
import HttpWire.Proofs.Receiver

/-!
# What is written is read back

The wire of a planned message and its body is taken by a receiver for exactly
that message, and it takes no byte more (`Plan.reads_message`). The proof
follows the receiver. For each reader there is a wire that it reads back, and
the reason it stops where it should is always of the same kind: the byte it
looks for cannot stand in what comes before, since the alphabets exclude it.
Names have no colon, targets no space, extensions no semicolon and no equals
sign, and no line a carriage return.

Where the receiver decides about the body, the plan has decided before. The two do
not share a line of code, but both decide by the fields, and the rules for the
fields leave no room for two opinions.
-/

namespace HttpWire

open Reader

/-! ## Bytes that cannot occur -/

namespace Plan

theorem IsToken.not_mem {x : Bytes} {b : UInt8} (h : IsToken x)
    (hb : Grammar.isTokenByte b = false) :
    b ∉ x := by
  intro hmem
  rw [isTokenByte_iff.mpr (h.2 b hmem)] at hb
  cases hb

theorem IsTarget.not_mem {x : Bytes} {b : UInt8} (h : IsTarget x) (hb : ¬ 32 < b) :
    b ∉ x :=
  fun hmem => hb (h.2 b hmem).1

theorem IsText.not_mem_cr {x : Bytes} (h : IsText x) : 13 ∉ x :=
  fun hmem => absurd (h 13 hmem).1 (by decide)

end Plan

theorem Decimal.not_mem_digits {n : Nat} {b : UInt8} (hb : Grammar.isDigit b = false) :
    b ∉ Decimal.digits n := by
  intro hmem
  rw [Decimal.isDigit_of_mem_digits hmem] at hb
  cases hb

theorem Hex.not_mem_digits {n : Nat} {b : UInt8} (hb : Hex.isDigit b = false) :
    b ∉ Hex.digits n := by
  intro hmem
  rw [Hex.isDigit_of_mem_digits hmem] at hb
  cases hb

namespace Receiver

theorem cutAt_append {sep : UInt8} {x : Bytes} (y : Bytes) (h : sep ∉ x) :
    cutAt sep (x ++ sep :: y) = some (x, y) := by
  induction x with
  | nil => simp [cutAt]
  | cons b x ih =>
    rw [List.mem_cons, not_or] at h
    rw [List.cons_append, cutAt, if_neg (fun heq => h.1 heq.symm), ih h.2]

theorem cutAt_of_not_mem {sep : UInt8} {x : Bytes} (h : sep ∉ x) :
    cutAt sep x = none := by
  induction x with
  | nil => rfl
  | cons b x ih =>
    rw [List.mem_cons, not_or] at h
    rw [cutAt, if_neg (fun heq => h.1 heq.symm), ih h.2]

end Receiver

/-! ## Start lines -/

/-- The parts of the start line can be told apart again. -/
def CheckedLine.Writable : CheckedLine → Prop
  | .request method target => Plan.IsToken method ∧ Plan.IsTarget target
  | .response _ reason => Plan.IsText reason

/-- A start line without its line end. -/
def CheckedLine.text : CheckedLine → Bytes
  | .request method target => method ++ 32 :: (target ++ 32 :: httpVersion)
  | .response status reason => httpVersion ++ 32 :: (status.digits ++ 32 :: reason)

namespace CheckedLine

theorem flatten_pieces (line : CheckedLine) :
    line.pieces.flatten = line.text ++ Bytes.crlf := by
  cases line <;> simp [pieces, text, space]

theorem cr_not_mem_text {line : CheckedLine} (h : line.Writable) : 13 ∉ line.text := by
  have hversion : (13 : UInt8) ∉ httpVersion := by decide
  cases line with
  | request method target =>
    have hmethod := h.1.not_mem (b := 13) (by decide)
    have htarget := h.2.not_mem (b := 13) (by decide)
    simp [text, hmethod, htarget, hversion]
  | response status reason =>
    have hdigits := Decimal.not_mem_digits (n := status.code) (b := 13) (by decide)
    simp [text, Status.digits, hdigits, h.not_mem_cr, hversion]

theorem startLine?_text {line : CheckedLine} (h : line.Writable) :
    Receiver.startLine? line.text = some line := by
  cases line with
  | request method target =>
    have hversion : method ≠ httpVersion := by
      intro heq
      have hslash := h.1.not_mem (b := 47) (by decide)
      rw [heq] at hslash
      exact hslash (by decide)
    rw [Receiver.startLine?, text, Receiver.cutAt_append _ (h.1.not_mem (by decide))]
    simp only
    rw [Receiver.cutAt_append _ (h.2.not_mem (by decide))]
    simp only [if_neg hversion, if_true]
  | response status reason =>
    have hstatus : Status.ofNat? status.code = some status := by
      rw [Status.ofNat?, dif_pos status.three_digits]
    rw [Receiver.startLine?, text, Receiver.cutAt_append _ (by decide)]
    simp only [Status.digits]
    rw [Receiver.cutAt_append _ (Decimal.not_mem_digits (by decide))]
    simp only [Decimal.value_digits, Option.bind_some, hstatus, if_true]

end CheckedLine

/-! ## Fields -/

/-- The field can be told from its line. -/
def Header.Writable (h : Header) : Prop :=
  Plan.IsToken h.name ∧ Plan.IsText h.value

/-- A field line without its line end. -/
def Header.text (h : Header) : Bytes :=
  h.name ++ 58 :: 32 :: h.value

namespace Header

theorem trailerWire_eq (h : Header) : Chunk.trailerWire h = h.text ++ Bytes.crlf := by
  simp [Chunk.trailerWire, text]

theorem flatten_pieces (h : Header) : h.pieces.flatten = Chunk.trailerWire h := by
  simp [pieces, Chunk.trailerWire]

theorem text_ne_nil (h : Header) : h.text ≠ [] := by
  simp [text]

theorem cr_not_mem_text {h : Header} (hw : h.Writable) : 13 ∉ h.text := by
  have hname := hw.1.not_mem (b := 13) (by decide)
  simp [text, hname, hw.2.not_mem_cr]

theorem field?_text {h : Header} (hw : h.Writable) :
    Receiver.field? h.text = some h := by
  rw [Receiver.field?, text, Receiver.cutAt_append _ (hw.1.not_mem (by decide))]
  rfl

end Header

/-- Fields are read back up to the blank line behind them. -/
theorem Receiver.reads_fields {hs : Headers} (h : ∀ x ∈ hs, x.Writable) :
    Reads Receiver.fields (hs.flatMap Chunk.trailerWire ++ Bytes.crlf) hs := by
  have hlines : Reads (items line List.isEmpty)
      ((hs.map Header.text ++ [[]]).flatMap (· ++ Bytes.crlf))
          ((hs.map Header.text ++ [[]]).map id) := by
    refine reads_items (· ++ Bytes.crlf) id ?_ (reads_line (by simp)) rfl
    intro text htext
    obtain ⟨x, hx, rfl⟩ := List.mem_map.mp htext
    refine ⟨reads_line (Header.cr_not_mem_text (h x hx)), by simp [Bytes.crlf], ?_⟩
    exact List.isEmpty_eq_false_iff.mpr x.text_ne_nil
  have hwire : (hs.map Header.text ++ [[]]).flatMap (· ++ Bytes.crlf)
      = hs.flatMap Chunk.trailerWire ++ Bytes.crlf := by
    rw [List.flatMap_append, List.flatMap_singleton, List.flatMap_map, List.nil_append,
      show Chunk.trailerWire = fun x => x.text ++ Bytes.crlf
        from funext Header.trailerWire_eq]
  have hfields : ((hs.map Header.text ++ [[]]).map id).dropLast.mapM Receiver.field?
      = some hs := by
    rw [List.map_id, List.dropLast_concat]
    clear hlines hwire
    induction hs with
    | nil => rfl
    | cons x hs ih =>
      have hmore := ih (fun y hy => h y (List.mem_cons_of_mem _ hy))
      rw [List.map_cons, List.mapM_cons,
        Header.field?_text (h x (List.mem_cons_self ..)), hmore]
      rfl
  rw [hwire] at hlines
  exact hlines.bind_pure (reads_accept hfields)

/-! ## Chunks -/

namespace Chunk

/-- What the builders of a chunk guarantee: names and values that can be told
apart again, and trailers only on a last chunk. -/
structure Valid (c : Chunk) : Prop where
  extensions : ∀ e ∈ c.extensions, Plan.IsToken e.name ∧ ∀ value,
    e.value = some value → Plan.IsToken value
  trailers : ∀ hs, c.trailers = some hs → c.isLast = true ∧ ∀ h ∈ hs, h.Writable

theorem valid_add {c c' : Chunk} {addition : Addition} (hc : c.Valid)
    (h : c.add addition = .ok c') :
    c'.Valid := by
  cases addition with
  | extension name value =>
    simp only [add, withExtension] at h
    split at h
    · cases h
    · next hname =>
      split at h
      · cases h
      · next hvalue =>
        cases h
        simp only [Bool.not_eq_true, Bool.not_eq_false'] at hname hvalue
        refine ⟨fun e he => ?_, hc.trailers⟩
        rcases List.mem_append.mp he with he | he
        · exact hc.extensions e he
        · rw [List.mem_singleton.mp he]
          refine ⟨Plan.isToken_iff.mp hname, fun v hv => ?_⟩
          rw [show value = some v from hv] at hvalue
          exact Plan.isToken_iff.mp hvalue
  | trailers fields =>
    simp only [add, withTrailers] at h
    split at h
    · cases h
    · next hlast =>
      split at h
      · cases h
      · next hnames =>
        split at h
        · cases h
        · next hvalues =>
          simp only [Bool.not_eq_true, Bool.not_eq_false', List.all_eq_true]
            at hlast hnames hvalues
          split at h
          · cases h
          · cases h
            refine ⟨hc.extensions, fun hs hhs => ?_⟩
            cases hhs
            exact ⟨hlast, fun x hx =>
              ⟨Plan.isToken_iff.mp (hnames x hx),
                Plan.isFieldValue_iff.mp (hvalues x hx)⟩⟩

theorem valid_of_data (data : Bytes) : Valid { data := data } :=
  ⟨by simp, by simp⟩

/-- A chunk that could be built can be read back. -/
theorem valid_of_build {data : Bytes} {additions : List Addition} {c : Chunk}
    (h : build data additions = .ok c) : c.Valid := by
  have hfold : ∀ (additions : List Addition) (c c' : Chunk), c.Valid →
      additions.foldlM add c = .ok c' → c'.Valid := by
    intro additions
    induction additions with
    | nil =>
      intro c c' hc h
      cases h
      exact hc
    | cons addition additions ih =>
      intro c c' hc h
      rw [List.foldlM_cons] at h
      obtain ⟨next, hnext, h⟩ := Plan.bind_eq_ok h
      exact ih next c' (valid_add hc hnext) h
  exact hfold additions _ c (valid_of_data data) h

/-- The chunk as a receiver has it: no trailers and an empty list of them
are the same on the wire. -/
def received (c : Chunk) : ReceivedChunk :=
  ⟨c.data, c.extensions, c.trailers.getD []⟩

/-- An extension without the semicolon before it. -/
def extensionText (e : Extension) : Bytes :=
  e.name ++
    match e.value with
    | none => []
    | some value => 61 :: value

theorem extensionWire_eq (e : Extension) : extensionWire e = 59 :: extensionText e :=
  rfl

theorem extension_text {e : Extension}
    (h : Plan.IsToken e.name ∧ ∀ value, e.value = some value → Plan.IsToken value) :
    Receiver.extension (extensionText e) = e := by
  obtain ⟨name, value⟩ := e
  have hname := h.1.not_mem (b := 61) (by decide)
  cases value with
  | none =>
    rw [extensionText, List.append_nil, Receiver.extension,
      Receiver.cutAt_of_not_mem hname]
  | some value => rw [extensionText, Receiver.extension, Receiver.cutAt_append _ hname]

theorem not_mem_extensionText {e : Extension} {b : UInt8}
    (h : Plan.IsToken e.name ∧ ∀ value, e.value = some value → Plan.IsToken value)
    (hb : Grammar.isTokenByte b = false) (hne : b ≠ 61) : b ∉ extensionText e := by
  obtain ⟨name, value⟩ := e
  have hname := h.1.not_mem hb
  cases value with
  | none => simpa [extensionText] using hname
  | some value =>
    have hvalue := (h.2 value rfl).not_mem hb
    simpa [extensionText, hne, hvalue] using hname

/-- The size line of a chunk without its line end. -/
def sizeText (c : Chunk) : Bytes :=
  Hex.digits c.data.length ++ c.extensions.flatMap extensionWire

theorem sizeText_eq (c : Chunk) :
    c.sizeText = [59].intercalate
      (Hex.digits c.data.length :: c.extensions.map extensionText) := by
  have hmore : ∀ (x : Bytes) (es : List Extension),
      x ++ es.flatMap extensionWire
          = [59].intercalate (x :: es.map extensionText) := by
    intro x es
    induction es generalizing x with
    | nil => simp
    | cons e es ih =>
      rw [List.map_cons, List.intercalate_cons_cons, ← ih, List.flatMap_cons,
        extensionWire_eq]
      simp
  exact hmore _ _

theorem Valid.sizeLine?_text {c : Chunk} (h : c.Valid) :
    Receiver.sizeLine? c.sizeText = some (c.data.length, c.extensions) := by
  have hsplit : c.sizeText.splitOn 59
      = Hex.digits c.data.length :: c.extensions.map extensionText := by
    rw [sizeText_eq]
    refine List.splitOn_intercalate 59 ?_ (by simp)
    intro x hx
    rcases List.mem_cons.mp hx with rfl | hx
    · exact Hex.not_mem_digits (by decide)
    · obtain ⟨e, he, rfl⟩ := List.mem_map.mp hx
      exact not_mem_extensionText (h.extensions e he) (by decide) (by decide)
  have hextensions :
      (c.extensions.map extensionText).map Receiver.extension = c.extensions := by
    rw [List.map_map]
    refine (List.map_congr_left (fun e he => ?_)).trans (List.map_id _)
    exact extension_text (h.extensions e he)
  rw [Receiver.sizeLine?, hsplit]
  simp only [Hex.value_digits, hextensions]

theorem Valid.cr_not_mem_sizeText {c : Chunk} (h : c.Valid) : 13 ∉ c.sizeText := by
  intro hmem
  rcases List.mem_append.mp hmem with hmem | hmem
  · exact Hex.not_mem_digits (by decide) hmem
  · obtain ⟨e, he, hmem⟩ := List.mem_flatMap.mp hmem
    rw [extensionWire_eq, List.mem_cons] at hmem
    rcases hmem with hmem | hmem
    · exact absurd hmem (by decide)
    · exact not_mem_extensionText (h.extensions e he) (by decide) (by decide) hmem

theorem Valid.reads_chunk {c : Chunk} (h : c.Valid) :
    Reads Receiver.chunk c.wire c.received := by
  have hline : c.sizeLine = c.sizeText ++ Bytes.crlf := rfl
  have hsize := reads_line h.cr_not_mem_sizeText
  have haccept : Reads (accept (Receiver.sizeLine? c.sizeText)) []
      (c.data.length, c.extensions) :=
    reads_accept h.sizeLine?_text
  have hend : Reads Receiver.lineEnd Bytes.crlf () :=
    (reads_take Bytes.crlf).bind_pure (reads_accept rfl)
  unfold wire pieces
  split
  · next hlast =>
    have hdata : c.data = [] := List.isEmpty_iff.mp hlast
    have htrailers : ∀ x ∈ c.trailers.getD [], x.Writable := by
      cases ht : c.trailers with
      | none => simp
      | some hs => exact (h.trailers hs ht).2
    rw [List.flatten_singleton, hline, List.append_assoc]
    refine hsize.bind ?_
    have hrest := Receiver.reads_fields htrailers
    rw [← List.nil_append (_ ++ Bytes.crlf)]
    refine haccept.bind ?_
    show Reads (if c.data.length = 0 then _ else _) _ _
    rw [if_pos (by rw [hdata]; rfl)]
    refine hrest.bind_pure ?_
    rw [received, hdata]
    exact reads_pure _
  · next hnot =>
    have hdata : ¬ c.data.length = 0 := by
      intro hnil
      exact hnot (List.isEmpty_iff.mpr (List.eq_nil_of_length_eq_zero hnil))
    have hnone : c.trailers = none := by
      cases ht : c.trailers with
      | none => rfl
      | some hs => exact absurd (h.trailers hs ht).1 hnot
    rw [List.flatten_cons, List.flatten_cons, List.flatten_singleton, hline]
    refine hsize.bind ?_
    rw [← List.nil_append (c.data ++ Bytes.crlf)]
    refine haccept.bind ?_
    show Reads (if c.data.length = 0 then _ else _) _ _
    rw [if_neg hdata]
    refine (reads_take c.data).bind (hend.bind_pure ?_)
    rw [received, hnone]
    exact reads_pure _

/-- A whole body of chunks is read back. -/
theorem Ended.reads_chunks {cs : List Chunk} (hended : Ended cs)
    (hvalid : ∀ c ∈ cs, c.Valid) :
    Reads (items Receiver.chunk ReceivedChunk.isLast) (cs.flatMap wire)
      (cs.map received) := by
  obtain ⟨before, final, rfl, hopen, hlast⟩ := hended
  refine reads_items wire received ?_ ?_ hlast
  · intro c hc
    refine ⟨(hvalid c (List.mem_append_left _ hc)).reads_chunk, ?_, hopen c hc⟩
    exact List.length_pos_iff.mp c.length_wire_pos
  · exact (hvalid final (by simp)).reads_chunk

end Chunk

/-! ## Bodies and messages -/

/-- A body as it goes over the wire. -/
inductive WireBody
  | plain (data : Bytes)
  | chunked (chunks : List Chunk)

/-- The bytes of a body as it is sent. -/
def WireBody.wire : WireBody → Bytes
  | plain data => data
  | chunked chunks => chunks.flatMap Chunk.wire

/-- What a receiver takes a body for. -/
def WireBody.received : WireBody → ReceivedBody
  | plain data => .plain data
  | chunked chunks => .chunked (chunks.map Chunk.received)

namespace Plan

/-- The body is one that the framing of the plan can delimit. -/
def Carries (p : Plan) : WireBody → Prop
  | .plain data => p.framing = .empty ∧ data = [] ∨ p.framing = .length data.length
  | .chunked cs => p.framing = .chunked ∧ Chunk.Ended cs ∧ ∀ c ∈ cs, c.Valid

theorem flatten_headLines (p : Plan) :
    p.headWire = p.startLine.text ++ Bytes.crlf
      ++ (p.headers.flatMap Chunk.trailerWire ++ Bytes.crlf) := by
  have hfields : (p.headers.map Header.pieces).flatten.flatten
      = p.headers.flatMap Chunk.trailerWire := by
    rw [List.flatMap_def]
    induction p.headers with
    | nil => rfl
    | cons h hs ih =>
      simp only [List.map_cons, List.flatten_cons, List.flatten_append, ih,
        Header.flatten_pieces]
  simp only [headWire, headLines, List.cons_append, List.flatten_cons,
    List.flatten_append, CheckedLine.flatten_pieces, hfields, List.flatten_nil,
    List.append_nil]

theorem writable_default (status : Status) : IsText status.defaultReason := by
  have hall : Status.registered.all
      (fun entry => Grammar.isFieldValue (Bytes.ofString entry.2)) = true := by
    decide +kernel
  rw [List.all_eq_true] at hall
  rw [Status.defaultReason, Status.phrase?]
  cases hfind : Status.registered.find? (fun entry => entry.1 == status.code) with
  | none =>
    intro b hb
    cases hb
  | some entry =>
    exact isFieldValue_iff.mp (hall entry (List.mem_of_find?_eq_some hfind))

variable {startLine : StartLine} {hs : Headers} {options : PlanOptions} {p : Plan}

theorem writable_written (h : make startLine hs options = .ok p) :
    startLine.written.Writable := by
  cases startLine with
  | request m t =>
    obtain ⟨x, rfl, hmethod⟩ := holds_of_make h .method m t rfl
    obtain ⟨y, rfl, htarget⟩ := holds_of_make h .target (some x) t rfl
    exact ⟨hmethod, htarget⟩
  | response status r =>
    cases r with
    | none => exact writable_default status
    | some x => exact holds_of_make h .reason status x rfl

theorem lacksBody_eq (h : Planned startLine hs options p) :
    Receiver.lacksBody options.bodyIgnored startLine.written = p.bodyIgnored := by
  rw [Bool.eq_iff_iff, h.ignored, ← ignoresBody_iff]
  rfl

/-- The receiver finds the body that the plan has delimited. -/
theorem reads_body {b : WireBody} (h : Planned startLine hs options p)
    (hb : p.Carries b) :
    Reads (Receiver.body options.bodyIgnored startLine.written hs) b.wire
      b.received := by
  have hframing := h.framing
  have hempty : p.framing = .empty → b = .plain [] := by
    intro heq
    cases b with
    | plain data =>
      rcases hb with ⟨-, rfl⟩ | hb
      · rfl
      · rw [heq] at hb
        cases hb
    | chunked cs =>
      have hchunks := hb.1
      rw [heq] at hchunks
      cases hchunks
  unfold Receiver.body
  rw [lacksBody_eq h]
  split
  · next hignored =>
    rw [if_pos hignored] at hframing
    rw [hempty hframing]
    exact reads_pure _
  · next hignored =>
    rw [if_neg hignored] at hframing
    split
    · next hcodings =>
      have hchunked : p.chunked = true := h.chunked.mpr (has_iff.mp hcodings)
      rw [if_pos hchunked] at hframing
      cases b with
      | plain data => rcases hb with hb | hb <;> simp [hframing] at hb
      | chunked cs => exact (hb.2.1.reads_chunks hb.2.2).bind_pure (reads_pure _)
    · next hcodings =>
      have hchunked : ¬ p.chunked = true :=
        fun hc => hcodings (has_iff.mpr (h.chunked.mp hc))
      rw [if_neg hchunked] at hframing
      split
      · next hnone =>
        rw [h.no_length hnone, if_pos rfl] at hframing
        rw [hempty hframing]
        exact reads_pure _
      · next value more hsome =>
        obtain ⟨hvalue, -⟩ :=
          h.length value (by rw [hsome]; exact List.mem_cons_self ..)
        have hlength :
            b.received = .plain b.wire ∧ b.wire.length = p.contentLength := by
          split at hframing
          · next hzero =>
            rw [hempty hframing, hzero]
            exact ⟨rfl, rfl⟩
          · cases b with
            | plain data =>
              rcases hb with hb | hb
              · have hnot := hb.1
                rw [hframing] at hnot
                cases hnot
              · rw [hframing] at hb
                exact ⟨rfl, (Framing.length.inj hb).symm⟩
            | chunked cs =>
              have hnot := hb.1
              rw [hframing] at hnot
              cases hnot
        have hnumber :=
          reads_accept (o := Numeral.value? 10 Numeral.decimalDigit? value)
          (by rw [hvalue]; exact Decimal.value_digits _)
        have hdata := reads_take b.wire
        rw [hlength.2] at hdata
        rw [hlength.1, ← List.nil_append b.wire]
        exact hnumber.bind (hdata.bind_pure (reads_pure _))

/-- A receiver takes the wire of a planned message for that message,
whatever stands behind it. -/
theorem reads_message {b : WireBody} (h : make startLine hs options = .ok p)
    (hb : p.Carries b) :
    Reads (Receiver.message options.bodyIgnored) (p.headWire ++ b.wire)
      ⟨startLine.written, hs, b.received⟩ := by
  have hplanned := planned_make h
  have hwritable := writable_written h
  have hfields : ∀ x ∈ hs, x.Writable :=
    fun x hx => ⟨holds_of_make h .fieldNames x hx, holds_of_make h .fieldValues x hx⟩
  have hline := reads_accept (CheckedLine.startLine?_text hwritable)
  rw [flatten_headLines, hplanned.startLine, hplanned.headers, List.append_assoc]
  refine (reads_line (CheckedLine.cr_not_mem_text hwritable)).bind ?_
  rw [← List.nil_append (_ ++ b.wire)]
  refine hline.bind ?_
  refine (Receiver.reads_fields hfields).bind ?_
  exact (reads_body hplanned hb).bind_pure (reads_pure _)

end Plan

end HttpWire
