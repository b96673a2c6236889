import Mathlib.Data.List.Forall2
import Mathlib.Data.List.Perm.Basic
import HttpWire.Chunk.Queue
import HttpWire.Proofs.Planning

/-!
# The arrangement of the fields does not matter

A message may be written with its field names in any case, with its fields in any
order that keeps the values of one name in theirs, and with a list spread over
several fields or joined into one (`Headers.Restated`). All of these mean the
same, and planning treats them so: the outcome is the same plan but for the fields
that are written, or a refusal of the same class (`Message.outcome_restated`). A
message made from a map of fields is a case of it, since such a map makes the
names small and puts the values of one name together.

The checks look at the fields in different ways and stop at the first fault, so
they need not stop at the same field. But what they find does not depend on more
than `Headers.Alike` lists, and this is kept by each restatement.
-/

namespace HttpWire

/-- What planning comes to, apart from the bytes that are written. -/
structure Outcome where
  framing : Framing
  contentLength : Nat
  chunked : Bool
  closesConnection : Bool
  bodyIgnored : Bool
  hasBody : Bool
  hasQueue : Bool
  deriving DecidableEq

namespace Message

variable {σ : Type}

/-- The outcome of planning a message to which this queue is lent, or
the class of its refusal. -/
def outcome (m : Message σ) (queue : Option ChunkQueue) (options : PlanOptions) :
    Except Rejection.Category Outcome :=
  match m.plan options with
  | .ok p => .ok
    { framing := p.framing, contentLength := p.contentLength, chunked := p.chunked
      closesConnection := p.closesConnection, bodyIgnored := p.bodyIgnored
      hasBody := m.body.isSome, hasQueue := queue.isSome }
  | .error cause => .error cause.category

/-- Adds fields one after another. -/
def addHeaders (m : Message σ) (fields : Headers) : Message σ :=
  fields.foldl (fun m h => m.addHeader h.name h.value) m

theorem addHeaders_eq (m : Message σ) (fields : Headers) :
    m.addHeaders fields = { m with headers := m.headers ++ fields } := by
  induction fields generalizing m with
  | nil => simp [addHeaders]
  | cons h fields ih =>
    show (m.addHeader h.name h.value).addHeaders fields = _
    rw [ih]
    simp [addHeader, Headers.add]

end Message

namespace Headers

/-- The same fields with the letters of their names in another case. -/
def Recased (hs hs' : Headers) : Prop :=
  List.Forall₂ (fun h h' => h.name.lower = h'.name.lower ∧ h.value = h'.value) hs hs'

/-- The same fields in another order that is the same among the
fields of any one name. -/
def Reordered (hs hs' : Headers) : Prop :=
  hs.Perm hs' ∧ ∀ name, hs.filter (·.isNamed name) = hs'.filter (·.isNamed name)

/-- One field in the place of all that have this name, with their values joined by
commas. It stands where one of them stood. -/
def Joined (name : Bytes) (hs hs' : Headers) : Prop :=
  ∃ before h after, hs = before ++ h :: after ∧ h.isNamed name = true
    ∧ hs' = before.filter (fun h => !h.isNamed name)
      ++ ⟨h.name, [44].intercalate (hs.valuesOf name)⟩
        :: after.filter (fun h => !h.isNamed name)

/-- Fields that mean the same. -/
inductive Restated : Headers → Headers → Prop
  | recased {hs hs' : Headers} : Recased hs hs' → Restated hs hs'
  | reordered {hs hs' : Headers} : Reordered hs hs' → Restated hs hs'
  | joined {hs hs' : Headers} {name : Bytes} : name = Plan.transferEncoding
    ∨ name = Plan.connection → Joined name hs hs' → Restated hs hs'
  | trans {hs hs' hs'' : Headers} : Restated hs hs' → Restated hs' hs'' →
      Restated hs hs''

/-- What planning reads of the fields. -/
structure Alike (hs hs' : Headers) : Prop where
  names : (∀ h ∈ hs, Plan.IsToken h.name) ↔ ∀ h ∈ hs', Plan.IsToken h.name
  values : (∀ h ∈ hs, Plan.IsText h.value) ↔ ∀ h ∈ hs', Plan.IsText h.value
  encoded : hs.valuesOf Plan.transferEncoding = [] ↔
    hs'.valuesOf Plan.transferEncoding = []
  codings : Plan.listedCodings hs = Plan.listedCodings hs'
  lengths : hs.valuesOf Plan.contentLengthName = hs'.valuesOf Plan.contentLengthName
  closes : Plan.asksToClose hs = Plan.asksToClose hs'

end Headers

/-! ## Planning reads no more than that -/

namespace Plan

variable {hs hs' : Headers} {line : StartLine} {options : PlanOptions} {p q : Plan}

/-- Fields that are alike keep the same rules. -/
theorem holds_congr (h : hs.Alike hs') (r : Rule) :
    r.Holds line hs ↔ r.Holds line hs' := by
  cases r with
  | method | target | reason => exact Iff.rfl
  | fieldNames => exact h.names
  | fieldValues => exact h.values
  | codings => simp only [Rule.Holds, ne_eq, h.encoded, h.codings]
  | oneFraming | length | bodiless => simp only [Rule.Holds, h.encoded, h.lengths]

theorem contentLength_congr (h : hs.Alike hs') (hp : Planned line hs options p)
    (hq : Planned line hs' options q) : p.contentLength = q.contentLength := by
  cases hlengths : hs.valuesOf contentLengthName with
  | nil => rw [hp.no_length hlengths, hq.no_length (h.lengths ▸ hlengths)]
  | cons value more =>
    obtain ⟨hvalue, hlt⟩ := hp.length value (by simp [hlengths])
    obtain ⟨hvalue', hlt'⟩ := hq.length value (by simp [← h.lengths, hlengths])
    have hparse := Decimal.parse?_eq_some_iff.mpr ⟨hlt, hvalue⟩
    rw [Decimal.parse?_eq_some_iff.mpr ⟨hlt', hvalue'⟩] at hparse
    exact (Option.some.inj hparse).symm

/-- Only one plan belongs to fields that are alike, but for the fields
themselves. -/
theorem planned_congr (h : hs.Alike hs') (hp : Planned line hs options p)
    (hq : Planned line hs' options q) :
    p.framing = q.framing ∧ p.contentLength = q.contentLength ∧ p.chunked = q.chunked
      ∧ p.closesConnection = q.closesConnection ∧ p.bodyIgnored = q.bodyIgnored := by
  have hlength := contentLength_congr h hp hq
  have hchunked : p.chunked = q.chunked := by
    rw [Bool.eq_iff_iff, hp.chunked, hq.chunked, ne_eq, h.encoded]
  have hignored : p.bodyIgnored = q.bodyIgnored := by
    rw [Bool.eq_iff_iff, hp.ignored, hq.ignored]
  have hcloses : p.closesConnection = q.closesConnection := by
    rw [Bool.eq_iff_iff, hp.closes, hq.closes, ← asksToClose_iff,
      ← asksToClose_iff, h.closes]
  exact ⟨by rw [hp.framing, hq.framing, hlength, hchunked, hignored], hlength,
    hchunked, hcloses, hignored⟩

end Plan

theorem Message.outcome_congr {σ : Type} {m m' : Message σ}
    (queue : Option ChunkQueue) (options : PlanOptions)
    (hline : m.startLine = m'.startLine) (hbody : m.body = m'.body)
    (h : m.headers.Alike m'.headers) :
    m.outcome queue options = m'.outcome queue options := by
  have hholds : Plan.Rule.Holds m.startLine m.headers
      = Plan.Rule.Holds m'.startLine m'.headers := by
    rw [hline]
    exact funext fun r => propext (Plan.holds_congr h r)
  have hanswers := Plan.answers_make m.startLine m.headers options
  rw [hholds] at hanswers
  rcases hanswers.unique (Plan.answers_make m'.startLine m'.headers options) with
    ⟨p, q, hp, hq⟩ | ⟨cause, cause', hp, hq, hcause⟩
  · have hplanned := Plan.planned_make hp
    rw [hline] at hplanned
    obtain ⟨hframing, hlength, hchunked, hcloses, hignored⟩ :=
      Plan.planned_congr h hplanned (Plan.planned_make hq)
    simp only [outcome, plan, hp, hq, hframing, hlength, hchunked, hcloses,
      hignored, hbody]
  · simp only [outcome, plan, hp, hq, hcause]

/-! ## Every restatement keeps it -/

namespace Headers

variable {hs hs' : Headers} {name : Bytes}

/-- Fields are alike if every name has the same values. -/
theorem alike_of_valuesOf
    (hnames : (∀ h ∈ hs, Plan.IsToken h.name) ↔ ∀ h ∈ hs', Plan.IsToken h.name)
    (htexts : (∀ h ∈ hs, Plan.IsText h.value) ↔ ∀ h ∈ hs', Plan.IsText h.value)
    (hvalues : ∀ name, hs.valuesOf name = hs'.valuesOf name) : hs.Alike hs' where
  names := hnames
  values := htexts
  encoded := by rw [hvalues]
  codings := by rw [Plan.listedCodings, hvalues, Plan.listedCodings]
  lengths := hvalues _
  closes := by rw [Plan.asksToClose, hvalues, Plan.asksToClose]

theorem Recased.alike (h : hs.Recased hs') : hs.Alike hs' := by
  refine alike_of_valuesOf ?_ ?_ ?_
  · induction h with
    | nil => rfl
    | cons hfield _ ih =>
      simp only [List.forall_mem_cons, Plan.isToken_congr hfield.1, ih]
  · induction h with
    | nil => rfl
    | cons hfield _ ih => simp only [List.forall_mem_cons, hfield.2, ih]
  · intro name
    induction h with
    | nil => rfl
    | @cons f f' hs hs' hfield _ ih =>
      have hnamed : f.isNamed name = f'.isNamed name := by
        rw [Header.isNamed, Header.isNamed, Bytes.sameLetters,
          Bytes.sameLetters, hfield.1]
      simp only [valuesOf] at ih
      simp only [valuesOf, List.filter_cons, hnamed]
      split
      · rw [List.map_cons, List.map_cons, ih, hfield.2]
      · exact ih

theorem Reordered.alike (h : hs.Reordered hs') : hs.Alike hs' :=
  alike_of_valuesOf (by simp only [h.1.mem_iff]) (by simp only [h.1.mem_iff])
    (fun name => by rw [valuesOf, h.2, valuesOf])

/-! ### Joining -/

/-- Cutting a joined list is cutting its parts. -/
theorem pieces_intercalate {values : List Bytes} (h : values ≠ []) :
    Grammar.pieces ([44].intercalate values) = values.flatMap Grammar.pieces := by
  have hpieces : ∀ x y : Bytes,
      Grammar.pieces (x ++ 44 :: y) = Grammar.pieces x ++ Grammar.pieces y := by
    intro x y
    simp only [Grammar.pieces, Plan.splitAtCommas_eq, List.splitOn_eq_splitOnP]
    rw [List.splitOnP_append_cons x y (by simp), List.map_append]
  induction values with
  | nil => exact absurd rfl h
  | cons value more ih =>
    cases more with
    | nil => simp [List.intercalate]
    | cons next more =>
      rw [List.intercalate_cons_cons, List.append_assoc, List.singleton_append,
        hpieces, ih (by simp)]
      rfl

theorem elements_intercalate {values : List Bytes} (h : values ≠ []) :
    Grammar.elements ([44].intercalate values) = values.flatMap Grammar.elements := by
  rw [Grammar.elements, pieces_intercalate h, List.filter_flatMap]
  rfl

theorem isText_intercalate (values : List Bytes) :
    Plan.IsText ([44].intercalate values) ↔ ∀ value ∈ values, Plan.IsText value := by
  have happend : ∀ x y : Bytes, Plan.IsText (x ++ y) ↔ Plan.IsText x ∧ Plan.IsText y :=
    fun x y => List.forall_mem_append
  have hcomma : Plan.IsText [44] := by
    simp [Plan.IsText]
  induction values with
  | nil => simp [List.intercalate, Plan.IsText]
  | cons value more ih =>
    cases more with
    | nil => simp [List.intercalate]
    | cons next more =>
      rw [List.intercalate_cons_cons, happend, happend, List.forall_mem_cons]
      exact ⟨fun h => ⟨h.1.1, ih.mp h.2⟩, fun h => ⟨⟨h.1, hcomma⟩, ih.mpr h.2⟩⟩

namespace Joined

theorem valuesOf_ne_nil (h : Joined name hs hs') : hs.valuesOf name ≠ [] := by
  obtain ⟨before, f, after, rfl, hnamed, -⟩ := h
  simp [valuesOf, hnamed]

theorem valuesOf_self (h : Joined name hs hs') :
    hs'.valuesOf name = [[44].intercalate (hs.valuesOf name)] := by
  obtain ⟨before, f, after, -, hnamed, rfl⟩ := h
  have hnone : ∀ l : Headers,
      (l.filter (fun h => !h.isNamed name)).filter (·.isNamed name) = [] := by
    intro l
    simp [List.filter_filter]
  have hsame : (⟨f.name, [44].intercalate (hs.valuesOf name)⟩ : Header).isNamed name
      = true := hnamed
  rw [valuesOf, List.filter_append, List.filter_cons, if_pos hsame, hnone, hnone]
  rfl

/-- The fields of other names stay. -/
theorem valuesOf_other (h : Joined name hs hs') {other : Bytes}
    (hother : name.lower ≠ other.lower) :
    hs.valuesOf other = hs'.valuesOf other := by
  obtain ⟨before, f, after, rfl, hnamed, rfl⟩ := h
  have hnot : ∀ {x : Header}, x.isNamed name = true → x.isNamed other = false := by
    intro x hx
    rw [← Bool.not_eq_true, Header.isNamed_iff, Header.isNamed_iff.mp hx]
    exact hother
  have hkeep :
      ∀ l : Headers, (l.filter (fun h => !h.isNamed name)).filter (·.isNamed other)
      = l.filter (·.isNamed other) := by
    intro l
    rw [List.filter_filter]
    refine List.filter_congr fun x _ => ?_
    cases hx : x.isNamed name with
    | true => simp [hnot hx]
    | false => simp
  have hjoined : ∀ value, (⟨f.name, value⟩ : Header).isNamed other = false :=
    fun _ => hnot hnamed
  simp [valuesOf, hnot hnamed, hjoined, hkeep]

/-- The fields that are gone are of the name that is left. -/
theorem names_iff (h : Joined name hs hs') :
    (∀ h ∈ hs, Plan.IsToken h.name) ↔ ∀ h ∈ hs', Plan.IsToken h.name := by
  obtain ⟨before, f, after, rfl, hnamed, rfl⟩ := h
  have hall : ∀ l : Headers, Plan.IsToken f.name →
      ((∀ h ∈ l, Plan.IsToken h.name) ↔ ∀ h ∈ l.filter (fun h => !h.isNamed name),
          Plan.IsToken h.name) := by
    intro l hf
    refine ⟨fun hl h hh => hl h (List.mem_of_mem_filter hh), fun hl h hh => ?_⟩
    by_cases hgone : h.isNamed name = true
    · rw [Header.isNamed_iff, ← Header.isNamed_iff.mp hnamed] at hgone
      exact (Plan.isToken_congr hgone).mpr hf
    · exact hl h (List.mem_filter.mpr ⟨hh, by simpa using hgone⟩)
  simp only [List.forall_mem_append, List.forall_mem_cons]
  constructor
  · rintro ⟨hbefore, hf, hafter⟩
    exact ⟨(hall before hf).mp hbefore, hf, (hall after hf).mp hafter⟩
  · rintro ⟨hbefore, hf, hafter⟩
    exact ⟨(hall before hf).mpr hbefore, hf, (hall after hf).mpr hafter⟩

theorem values_iff (h : Joined name hs hs') :
    (∀ h ∈ hs, Plan.IsText h.value) ↔ ∀ h ∈ hs', Plan.IsText h.value := by
  -- a value is that of a field with the name or of one of the others
  have hsplit : ∀ l : Headers, (∀ h ∈ l, Plan.IsText h.value) ↔
      (∀ value ∈ l.valuesOf name, Plan.IsText value)
        ∧ ∀ h ∈ l.filter (fun h => !h.isNamed name), Plan.IsText h.value := by
    intro l
    simp only [valuesOf, List.forall_mem_map, List.mem_filter,
      Bool.not_eq_true', and_imp]
    constructor
    · exact fun hl => ⟨fun h hh _ => hl h hh, fun h hh _ => hl h hh⟩
    · rintro ⟨hnamed, hother⟩ h hh
      cases hcase : h.isNamed name with
      | true => exact hnamed h hh hcase
      | false => exact hother h hh hcase
  have hrest : hs'.filter (fun h => !h.isNamed name)
      = hs.filter (fun h => !h.isNamed name) := by
    obtain ⟨before, f, after, rfl, hnamed, rfl⟩ := h
    have hjoined : ∀ value, (⟨f.name, value⟩ : Header).isNamed name = true :=
      fun _ => hnamed
    simp [hnamed, hjoined]
  rw [hsplit hs, hsplit hs', h.valuesOf_self, hrest, List.forall_mem_singleton,
    isText_intercalate]

theorem alike (h : Joined name hs hs')
    (hname : name = Plan.transferEncoding ∨ name = Plan.connection) :
    hs.Alike hs' := by
  have hlengths : name.lower ≠ Plan.contentLengthName.lower := by
    rcases hname with rfl | rfl <;> decide
  have hself : ∀ f : Bytes → List Bytes,
      (∀ {values : List Bytes}, values ≠ [] →
      f ([44].intercalate values) = values.flatMap f) →
      (hs.valuesOf name).flatMap f = (hs'.valuesOf name).flatMap f := by
    intro f hf
    rw [h.valuesOf_self, List.flatMap_singleton, hf h.valuesOf_ne_nil]
  refine ⟨h.names_iff, h.values_iff, ?_, ?_, h.valuesOf_other hlengths, ?_⟩
  · rcases hname with rfl | rfl
    · simp [h.valuesOf_ne_nil, h.valuesOf_self]
    · rw [h.valuesOf_other (by decide)]
  · rw [← Plan.codings_eq, ← Plan.codings_eq, Plan.codings, Plan.codings]
    rcases hname with rfl | rfl
    · exact hself _ pieces_intercalate
    · rw [h.valuesOf_other (by decide)]
  · rw [Plan.asksToClose, Plan.asksToClose]
    rcases hname with rfl | rfl
    · rw [h.valuesOf_other (by decide)]
    · rw [hself _ elements_intercalate]

end Joined

theorem Restated.alike (h : hs.Restated hs') : hs.Alike hs' := by
  induction h with
  | recased h => exact h.alike
  | reordered h => exact h.alike
  | joined hname h => exact h.alike hname
  | trans _ _ ih ih' =>
    exact ⟨ih.names.trans ih'.names, ih.values.trans ih'.values,
      ih.encoded.trans ih'.encoded, ih.codings.trans ih'.codings,
      ih.lengths.trans ih'.lengths, ih.closes.trans ih'.closes⟩

/-! ### Grouping -/

/-- A group that only one key has is found once if the key is there. -/
theorem flatMap_eraseDups {α β : Type} [BEq α] [LawfulBEq α] {f : α → List β} {key : α}
    (h : ∀ a, a ≠ key → f a = []) (keys : List α) :
    keys.eraseDups.flatMap f = if keys.contains key then f key else [] := by
  cases keys with
  | nil => rfl
  | cons a keys =>
    rw [List.eraseDups_cons, List.flatMap_cons, flatMap_eraseDups h]
    by_cases ha : a = key
    · subst ha
      simp
    · have hkey : key ≠ a := fun heq => ha heq.symm
      simp [h a ha, hkey]
termination_by keys.length
decreasing_by
  exact Nat.lt_succ_of_le (List.length_filter_le _ _)

/-- An order that is the same among the fields of any one name is a reordering. -/
theorem reordered_of_filter
    (h : ∀ name, hs.filter (·.isNamed name) = hs'.filter (·.isNamed name)) :
    hs.Reordered hs' := by
  refine ⟨List.perm_iff_count.mpr fun f => ?_, h⟩
  have hcount : ∀ l : Headers, (l.filter (·.isNamed f.name)).count f = l.count f :=
    fun l => List.count_filter (Header.isNamed_iff.mpr rfl)
  rw [← hcount hs, h, hcount]

/-- A map of fields restates them. -/
theorem restated_grouped (hs : Headers) : hs.Restated hs.grouped := by
  generalize hlowered : hs.map (fun h => { h with name := h.name.lower }) = lowered
  have hcase : hs.Recased lowered := by
    rw [← hlowered, Recased, List.forall₂_map_right_iff]
    exact List.forall₂_same.mpr fun h _ => ⟨(Bytes.lower_lower h.name).symm, rfl⟩
  have hsmall : ∀ h ∈ lowered, h.name.lower = h.name := by
    intro h hh
    rw [← hlowered] at hh
    obtain ⟨f, -, rfl⟩ := List.mem_map.mp hh
    exact Bytes.lower_lower f.name
  refine (Restated.recased hcase).trans
    (.reordered (reordered_of_filter fun name => ?_))
  have hgroup : ∀ key, (lowered.filter (·.name == key)).filter (·.isNamed name)
      = if key = name.lower then lowered.filter (·.isNamed name) else [] := by
    intro key
    rw [List.filter_filter]
    split
    · next hkey =>
      refine List.filter_congr fun h hh => ?_
      cases hnamed : h.isNamed name with
      | true => simp [hkey, ← Header.isNamed_iff.mp hnamed, hsmall h hh]
      | false => simp
    · next hkey =>
      refine List.filter_eq_nil_iff.mpr fun h hh => ?_
      simp only [Bool.and_eq_true, Header.isNamed_iff, hsmall h hh, beq_iff_eq]
      exact fun hboth => hkey (hboth.2.symm.trans hboth.1)
  simp only [grouped, hlowered, List.filter_flatMap, hgroup]
  rw [flatMap_eraseDups (fun key hkey => if_neg hkey), if_pos rfl]
  split
  · rfl
  · next hnone =>
    refine List.filter_eq_nil_iff.mpr fun h hh hnamed => hnone ?_
    rw [Header.isNamed_iff, hsmall h hh] at hnamed
    simpa [← hnamed] using ⟨h, hh, rfl⟩

end Headers

/-- The outcome of planning does not depend on how the fields are arranged. A
message made from a map of fields, which arranges them in its own way, is planned
as one to which they are added one by one. -/
theorem Message.outcome_restated {σ : Type} (queue : Option ChunkQueue)
    (options : PlanOptions) :
    (∀ (m : Message σ) (hs : Headers), m.headers.Restated hs →
        ({ m with headers := hs }).outcome queue options = m.outcome queue options)
      ∧ (∀ (method uri : String) (fields : Headers) (body : Option σ),
        (requestFor method uri fields body).outcome queue options
          = ((((request.setMethod (Bytes.ofString method)).setTarget
              (Target.ofUri uri)).addHeaders fields).withBody body).outcome
            queue options)
      ∧ ∀ (status : Status) (fields : Headers) (body : Option σ),
        (responseWith status fields body).outcome queue options
          = (((response status).addHeaders fields).withBody body).outcome
            queue options := by
  have hrestated : ∀ (m : Message σ) (hs : Headers), m.headers.Restated hs →
      ({ m with headers := hs }).outcome queue options = m.outcome queue options := by
    intro m hs h
    have hsame :
        m.outcome queue options = { m with headers := hs }.outcome queue options :=
      outcome_congr queue options rfl rfl h.alike
    exact hsame.symm
  refine ⟨hrestated, fun method uri fields body => ?_, fun status fields body => ?_⟩
  · rw [addHeaders_eq]
    exact hrestated ⟨.request (some (Bytes.ofString method)) (some (Target.ofUri uri)),
      fields, body⟩ fields.grouped (Headers.restated_grouped fields)
  · rw [addHeaders_eq]
    exact hrestated ⟨.response status none, fields, body⟩ fields.grouped
      (Headers.restated_grouped fields)

namespace Headers

/-- Codings over two fields, with another field between them. -/
def spreadCodings : Headers :=
  [⟨Bytes.ofString "Transfer-Encoding", Bytes.ofString "gzip"⟩,
    ⟨Bytes.ofString "Host", Bytes.ofString "a"⟩,
    ⟨Bytes.ofString "transfer-encoding", Bytes.ofString " chunked"⟩]

/-- The same codings in one field, by the side of a field renamed and moved. -/
def oneField : Headers :=
  [⟨Bytes.ofString "TRANSFER-ENCODING", Bytes.ofString "gzip, chunked"⟩,
    ⟨Bytes.ofString "host", Bytes.ofString "a"⟩]

theorem restated_oneField : spreadCodings.Restated oneField := by
  let host : Header := ⟨Bytes.ofString "Host", Bytes.ofString "a"⟩
  let both : Header :=
    ⟨Bytes.ofString "transfer-encoding", Bytes.ofString "gzip, chunked"⟩
  have hjoined : spreadCodings.Restated [host, both] :=
    .joined (.inl rfl)
      ⟨spreadCodings.take 2, ⟨both.name, Bytes.ofString " chunked"⟩, [], by decide⟩
  have hswapped : Restated [host, both] [both, host] := by
    refine .reordered ⟨.swap both host [], fun name => ?_⟩
    cases hhost : host.isNamed name with
    | false => simp [List.filter_cons, hhost]
    | true =>
      have hboth : both.isNamed name = false := by
        rw [← Bool.not_eq_true, Header.isNamed_iff, ← Header.isNamed_iff.mp hhost]
        decide
      simp [hhost, hboth]
  have hcase : Restated [both, host] oneField :=
    .recased (.cons (by decide) (.cons (by decide) .nil))
  exact hjoined.trans (hswapped.trans hcase)

end Headers

/-- A response with these codings. -/
def Message.recoded : Message Bytes :=
  { startLine := .response ⟨200, by decide⟩ none, headers := Headers.spreadCodings }

theorem Message.outcome_restated_recoded :
    recoded.headers.Restated Headers.oneField
      ∧ ({ recoded with headers := Headers.oneField }).outcome none {}
        = recoded.outcome none {}
      ∧ recoded.outcome none {} = .ok
        { framing := .chunked, contentLength := 0, chunked := true
          closesConnection := false, bodyIgnored := false
          hasBody := false, hasQueue := false } :=
  ⟨Headers.restated_oneField,
    (outcome_restated none {}).1 recoded Headers.oneField Headers.restated_oneField, by
      decide +kernel⟩

end HttpWire
