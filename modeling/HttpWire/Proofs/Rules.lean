import Mathlib.Data.List.TakeWhile
import HttpWire.Plan

/-!
# The rules a plan is made by

A message is planned exactly if it keeps nine rules, and if it does not, the first
one it breaks is the answer. `Rule.Holds` says what each rule asks of a message,
without regard to how it is checked: alphabets are spelled out byte by byte, lists
are cut by `List.splitOn`, and a length is a number of which every value is the
numeral. What is left of a list element when it is trimmed is `IsTrimmed`, by
`trim_eq_iff`. `Planned` is the plan that the rules leave no choice about.

A check answers for some of the rules if it passes exactly when they are kept and
otherwise refuses the message for the first broken one (`Answers`). A later check
only runs when the earlier ones have passed, so answers compose (`Answers.bind`),
and the order of the whole is the order of its parts. That the checks do answer
for their rules is `Planning.lean`'s job.
-/

namespace HttpWire

/-- The start line that is sent: what is missing from a request is left empty, and
a response without a reason phrase gets the registered one. -/
def StartLine.written : StartLine → CheckedLine
  | .request method target => .request (method.getD []) (target.getD [])
  | .response status reason => .response status (reason.getD status.defaultReason)

theorem Header.isNamed_iff {h : Header} {name : Bytes} :
    h.isNamed name = true ↔ h.name.lower = name.lower := by
  simp [isNamed, Bytes.sameLetters]

theorem Bytes.small_of_capital {b : UInt8} (h : 65 ≤ b ∧ b ≤ 90) :
    97 ≤ b + 32 ∧ b + 32 ≤ 122 := by
  simp only [UInt8.le_iff_toNat_le, UInt8.toNat_add, UInt8.reduceToNat] at h ⊢
  omega

theorem Bytes.lower_lower (x : Bytes) : x.lower.lower = x.lower := by
  have hbyte : ∀ b : UInt8, lowerByte (lowerByte b) = lowerByte b := by
    intro b
    simp only [lowerByte]
    split
    · next hcapital =>
      have hsmall : ¬ (65 ≤ b + 32 ∧ b + 32 ≤ 90) := fun h =>
        absurd (UInt8.le_trans (small_of_capital hcapital).1 h.2) (by decide)
      rw [if_neg hsmall]
    · rfl
  simp [lower, hbyte]

namespace Plan

/-- A letter, a digit or one of the fifteen marks that may stand in a token. -/
def IsTokenByte (b : UInt8) : Prop :=
  (48 ≤ b ∧ b ≤ 57) ∨ (65 ≤ b ∧ b ≤ 90) ∨ (97 ≤ b ∧ b ≤ 122)
    ∨ b ∈ [33, 35, 36, 37, 38, 39, 42, 43, 45, 46, 94, 95, 96, 124, 126]

/-- A byte string of token bytes, at least one. -/
def IsToken (x : Bytes) : Prop :=
  x ≠ [] ∧ ∀ b ∈ x, IsTokenByte b

/-- A byte string without blanks and control bytes, of at least one byte. -/
def IsTarget (x : Bytes) : Prop :=
  x ≠ [] ∧ ∀ b ∈ x, 32 < b ∧ b ≠ 127

/-- A byte string without control bytes other than the tab. -/
def IsText (x : Bytes) : Prop :=
  ∀ b ∈ x, (32 ≤ b ∨ b = 9) ∧ b ≠ 127

/-- A byte that is trimmed: the blank, the tab, and the three that
break a line or a page. -/
def IsBlank (b : UInt8) : Prop :=
  b = 32 ∨ b = 9 ∨ b = 10 ∨ b = 12 ∨ b = 13

/-- One byte string is the other one without the blanks before and behind it. -/
structure IsTrimmed (x y : Bytes) : Prop where
  inside :
    ∃ before behind, x = before ++ y ++ behind ∧ ∀ b ∈ before ++ behind, IsBlank b
  begins : ∀ b ∈ y.head?, ¬ IsBlank b
  ends : ∀ b ∈ y.getLast?, ¬ IsBlank b

/-- The transfer codings that all fields together list, in order, each without the
blanks around it (`trim_eq_iff`). -/
def listedCodings (hs : Headers) : List Bytes :=
  (hs.valuesOf transferEncoding).flatMap
    (fun value => (value.splitOn 44).map Grammar.trim)

/-- The rules that a message has to keep to be planned. -/
inductive Rule
  | method
  | target
  | reason
  | fieldNames
  | fieldValues
  | codings
  | oneFraming
  | length
  | bodiless
  deriving DecidableEq

namespace Rule

/-- The rules in the order in which they are checked. -/
def inOrder : List Rule :=
  [method, target, reason, fieldNames, fieldValues, codings, oneFraming,
    length, bodiless]

/-- The class of causes for which a message that breaks the rule is refused. -/
def category : Rule → Rejection.Category
  | method => .method
  | target => .target
  | reason => .reason
  | fieldNames => .fieldName
  | fieldValues => .fieldValue
  | codings => .fieldValue
  | oneFraming => .field
  | length => .fieldValue
  | bodiless => .field

/-- What a rule asks of a message with this start line and these fields. -/
def Holds (startLine : StartLine) (hs : Headers) : Rule → Prop
  | method => ∀ m t, startLine = .request m t → ∃ x, m = some x ∧ IsToken x
  | target => ∀ m t, startLine = .request m t → ∃ x, t = some x ∧ IsTarget x
  | reason => ∀ status x, startLine = .response status (some x) → IsText x
  | fieldNames => ∀ h ∈ hs, IsToken h.name
  | fieldValues => ∀ h ∈ hs, IsText h.value
  | codings =>
    hs.valuesOf transferEncoding ≠ [] →
      (∀ c ∈ listedCodings hs, c ≠ [])
        ∧ ∃ before final, listedCodings hs = before ++ [final]
          ∧ final.sameLetters chunkedCoding = true
          ∧ ∀ c ∈ before, c.sameLetters chunkedCoding = false
  | oneFraming =>
    hs.valuesOf transferEncoding = [] ∨ hs.valuesOf contentLengthName = []
  | length =>
    hs.valuesOf transferEncoding = [] →
      ∃ n, n < UInt64.size ∧ ∀ value ∈ hs.valuesOf contentLengthName,
        value = Decimal.digits n
  | bodiless =>
    ∀ status r, startLine = .response status r →
      status.code < 200 ∨ status.code = 204 →
      hs.valuesOf contentLengthName = [] ∧ hs.valuesOf transferEncoding = []

/-- The rule is broken and every rule before it is kept. -/
def IsFirstBroken (holds : Rule → Prop) (rules : List Rule) (r : Rule) : Prop :=
  ∃ before after, rules = before ++ r :: after ∧ (∀ r' ∈ before, holds r') ∧ ¬ holds r

end Rule

/-- The plan that belongs to a message. -/
structure Planned (line : StartLine) (hs : Headers) (options : PlanOptions)
    (p : Plan) : Prop where
  startLine : p.startLine = line.written
  headers : p.headers = hs
  chunked : p.chunked = true ↔ hs.valuesOf transferEncoding ≠ []
  no_length : hs.valuesOf contentLengthName = [] → p.contentLength = 0
  length : ∀ value ∈ hs.valuesOf contentLengthName,
    value = Decimal.digits p.contentLength ∧ p.contentLength < UInt64.size
  closes : p.closesConnection = true ↔
    ∃ value ∈ hs.valuesOf connection, ∃ option ∈ value.splitOn 44,
      (Grammar.trim option).sameLetters closeOption = true
  ignored : p.bodyIgnored = true ↔
    ∃ status reason, line = .response status reason
      ∧ (options.bodyIgnored = true ∨ status.code = 304)
  framing : p.framing =
    if p.bodyIgnored then .empty
    else if p.chunked then .chunked
    else if p.contentLength = 0 then .empty
    else .length p.contentLength

/-! ## What the alphabets and lists say -/

theorem isTokenByte_iff {b : UInt8} :
    Grammar.isTokenByte b = true ↔ IsTokenByte b := by
  have hmarks : Grammar.tokenMarks
      = [33, 35, 36, 37, 38, 39, 42, 43, 45, 46, 94, 95, 96, 124, 126] := by decide
  simp only [Grammar.isTokenByte, Grammar.isAlphanumeric, Grammar.isDigit,
    IsTokenByte, hmarks, Bool.or_eq_true, Bool.and_eq_true, decide_eq_true_eq,
    List.contains_iff_mem, or_assoc]

theorem isToken_iff {x : Bytes} : Grammar.isToken x = true ↔ IsToken x := by
  simp [Grammar.isToken, IsToken, isTokenByte_iff]

theorem isToken_lower (x : Bytes) : IsToken x.lower ↔ IsToken x := by
  have hbyte : ∀ b : UInt8,
      Grammar.isTokenByte (Bytes.lowerByte b) = Grammar.isTokenByte b := by
    intro b
    simp only [Bytes.lowerByte]
    split
    · next hcapital =>
      simp [Grammar.isTokenByte, Grammar.isAlphanumeric, hcapital,
        Bytes.small_of_capital hcapital]
    · rfl
  simp [IsToken, Bytes.lower, ← isTokenByte_iff, hbyte]

/-- Whether a name is a token does not depend on the case of its letters. -/
theorem isToken_congr {x y : Bytes} (h : x.lower = y.lower) :
    IsToken x ↔ IsToken y := by
  rw [← isToken_lower x, h, isToken_lower]

theorem isTarget_iff {x : Bytes} : Grammar.isTarget x = true ↔ IsTarget x := by
  simp [Grammar.isTarget, IsTarget]

theorem isFieldValue_iff {x : Bytes} : Grammar.isFieldValue x = true ↔ IsText x := by
  have hbyte : ∀ b : UInt8, (!Grammar.isForbiddenControl b) = true ↔
      (32 ≤ b ∨ b = 9) ∧ b ≠ 127 := by
    intro b
    simp only [Grammar.isForbiddenControl, Bool.not_eq_true', Bool.or_eq_false_iff,
      Bool.and_eq_false_iff, decide_eq_false_iff_not, bne_eq_false_iff_eq,
      beq_eq_false_iff_ne, UInt8.not_lt]
  simp only [Grammar.isFieldValue, List.all_eq_true, hbyte]
  rfl

theorem isBlank_iff {b : UInt8} : Grammar.isBlank b = true ↔ IsBlank b := by
  simp [Grammar.isBlank, IsBlank, or_assoc]

/-- Dropping blanks stops at a byte string that does not begin with one. -/
theorem dropWhile_isBlank {before y : Bytes} (hbefore : ∀ b ∈ before, IsBlank b)
    (hy : ∀ b ∈ y.head?, ¬ IsBlank b) :
    (before ++ y).dropWhile Grammar.isBlank = y := by
  rw [List.dropWhile_append_of_pos (fun b hb => isBlank_iff.mpr (hbefore b hb))]
  cases y with
  | nil => rfl
  | cons c y =>
    have hc : ¬ Grammar.isBlank c = true :=
      fun hblank => hy c rfl (isBlank_iff.mp hblank)
    exact List.dropWhile_cons_of_neg hc

/-- What dropping blanks leaves does not begin with one. -/
theorem not_isBlank_dropWhile {x : Bytes} :
    ∀ b ∈ (x.dropWhile Grammar.isBlank).head?, ¬ IsBlank b := by
  intro b hb hblank
  have hstop := List.head?_dropWhile_not Grammar.isBlank x
  rw [Option.mem_def.mp hb] at hstop
  exact absurd (isBlank_iff.mpr hblank) (by simp [hstop])

theorem isTrimmed_trim (x : Bytes) : IsTrimmed x (Grammar.trim x) := by
  -- the blanks in front go first, and then those behind what is left
  obtain ⟨left, hleft⟩ : ∃ left, left = x.dropWhile Grammar.isBlank := ⟨_, rfl⟩
  have hfront : x = x.takeWhile Grammar.isBlank ++ left := by
    rw [hleft, List.takeWhile_append_dropWhile]
  have hback :
      left = Grammar.trim x ++ (left.reverse.takeWhile Grammar.isBlank).reverse := by
    rw [Grammar.trim, ← hleft, ← List.reverse_append, List.takeWhile_append_dropWhile,
      List.reverse_reverse]
  refine ⟨⟨x.takeWhile Grammar.isBlank,
    (left.reverse.takeWhile Grammar.isBlank).reverse, ?_, ?_⟩, ?_, ?_⟩
  · rw [List.append_assoc, ← hback]
    exact hfront
  · intro b hb
    refine isBlank_iff.mp ?_
    rcases List.mem_append.mp hb with hb | hb
    · exact List.mem_takeWhile_imp hb
    · exact List.mem_takeWhile_imp (List.mem_reverse.mp hb)
  · intro b hb
    have hhead : b ∈ left.head? := by
      rw [hback, List.head?_append, Option.mem_def.mp hb]
      rfl
    rw [hleft] at hhead
    exact not_isBlank_dropWhile b hhead
  · intro b hb
    rw [Grammar.trim, List.getLast?_reverse] at hb
    exact not_isBlank_dropWhile b hb

/-- Trimming takes all blanks before and behind away and nothing else. -/
theorem trim_eq_iff {x y : Bytes} : Grammar.trim x = y ↔ IsTrimmed x y := by
  constructor
  · intro h
    rw [← h]
    exact isTrimmed_trim x
  · intro ⟨⟨before, behind, hx, hblank⟩, hbegins, hends⟩
    have hbefore : ∀ b ∈ before, IsBlank b :=
      fun b hb => hblank b (List.mem_append_left _ hb)
    have hbehind : ∀ b ∈ behind.reverse, IsBlank b := fun b hb =>
      hblank b (List.mem_append_right _ (List.mem_reverse.mp hb))
    rcases y with _ | ⟨c, y⟩
    · -- nothing but blanks: the first pass takes them all
      have hall : x.dropWhile Grammar.isBlank = [] := by
        rw [hx, List.append_nil, ← List.append_nil (before ++ behind)]
        exact dropWhile_isBlank hblank hbegins
      rw [Grammar.trim, hall]
      rfl
    · have hfront : x.dropWhile Grammar.isBlank = (c :: y) ++ behind := by
        rw [hx, List.append_assoc]
        exact dropWhile_isBlank hbefore (fun b hb => hbegins b hb)
      rw [Grammar.trim, hfront, List.reverse_append,
        dropWhile_isBlank hbehind (by rwa [List.head?_reverse]), List.reverse_reverse]

theorem splitAtCommas_eq (x : Bytes) : Grammar.splitAtCommas x = x.splitOn 44 := by
  induction x with
  | nil => simp [Grammar.splitAtCommas, List.splitOn_eq_splitOnP]
  | cons b x ih =>
    rw [Grammar.splitAtCommas, ih, List.splitOn_cons_eq_if_modifyHead]
    simp only [beq_iff_eq]
    split
    · rfl
    · cases hx : x.splitOn 44 with
      | nil => exact absurd hx (List.splitOn_ne_nil 44 x)
      | cons piece more => rfl

theorem codings_eq (hs : Headers) : codings hs = listedCodings hs := by
  have hpieces : Grammar.pieces = fun value =>
      (value.splitOn 44).map Grammar.trim := by
    funext value
    rw [Grammar.pieces, splitAtCommas_eq]
  rw [codings, listedCodings, hpieces]

theorem listedCodings_ne_nil {hs : Headers} (h : hs.valuesOf transferEncoding ≠ []) :
    listedCodings hs ≠ [] := by
  rw [listedCodings]
  cases hvalues : hs.valuesOf transferEncoding with
  | nil => exact absurd hvalues h
  | cons value more =>
    intro hnil
    rw [List.flatMap_cons, List.append_eq_nil_iff, List.map_eq_nil_iff] at hnil
    exact List.splitOn_ne_nil 44 value hnil.1

theorem has_iff {hs : Headers} {name : Bytes} :
    hs.has name = true ↔ hs.valuesOf name ≠ [] := by
  simp [Headers.has, Headers.valuesOf, List.filter_eq_nil_iff]

theorem has_eq_false_iff {hs : Headers} {name : Bytes} :
    hs.has name = false ↔ hs.valuesOf name = [] := by
  rw [← Bool.not_eq_true, has_iff, Decidable.not_not]

/-! ## Answering for rules -/

variable {α β : Type} {holds : Rule → Prop}

/-- A check passes if these rules are kept, and otherwise refuses the message
for the first broken one. -/
def Answers (holds : Rule → Prop) (rules : List Rule) : Except Rejection α → Prop
  | .ok _ => ∀ r ∈ rules, holds r
  | .error cause => ∃ r, Rule.IsFirstBroken holds rules r ∧ cause.category = r.category

theorem Answers.bind (rules more : List Rule) {x : Except Rejection α}
    {f : α → Except Rejection β} (hx : Answers holds rules x)
    (hf : ∀ a, x = .ok a → Answers holds more (f a)) :
    Answers holds (rules ++ more) (x >>= f) := by
  cases x with
  | error cause =>
    obtain ⟨r, ⟨before, after, heq, hkept, hbroken⟩, hcause⟩ := hx
    refine ⟨r, ⟨before, after ++ more, ?_, hkept, hbroken⟩, hcause⟩
    rw [heq, List.append_assoc, List.cons_append]
  | ok a =>
    have hmore := hf a rfl
    show Answers holds (rules ++ more) (f a)
    cases hfa : f a with
    | error cause =>
      rw [hfa] at hmore
      obtain ⟨r, ⟨before, after, heq, hkept, hbroken⟩, hcause⟩ := hmore
      refine ⟨r, ⟨rules ++ before, after, ?_, ?_, hbroken⟩, hcause⟩
      · rw [heq, List.append_assoc]
      · intro r' hr'
        rcases List.mem_append.mp hr' with hr' | hr'
        · exact hx r' hr'
        · exact hkept r' hr'
    | ok b =>
      rw [hfa] at hmore
      intro r hr
      rcases List.mem_append.mp hr with hr | hr
      · exact hx r hr
      · exact hmore r hr

theorem answers_error {rules after : List Rule} {r : Rule} {cause : Rejection}
    (before : List Rule) (hrules : rules = before ++ r :: after)
    (hkept : ∀ r' ∈ before, holds r') (hbroken : ¬ holds r)
    (hcause : cause.category = r.category) :
    Answers holds rules (.error cause : Except Rejection α) :=
  ⟨r, ⟨before, after, hrules, hkept, hbroken⟩, hcause⟩

/-- Only one rule can be the first that is broken. -/
theorem Rule.IsFirstBroken.unique {rules : List Rule} {r r' : Rule}
    (h : IsFirstBroken holds rules r) (h' : IsFirstBroken holds rules r') :
    r = r' := by
  obtain ⟨before, after, heq, hkept, hbroken⟩ := h
  obtain ⟨before', after', heq', hkept', hbroken'⟩ := h'
  rw [heq] at heq'
  rcases List.append_eq_append_iff.mp heq' with ⟨more, hmore, hcons⟩
    | ⟨more, hmore, hcons⟩
  · cases more with
    | nil =>
      cases hcons
      rfl
    | cons x more =>
      cases hcons
      exact absurd (hkept' r (by simp [hmore])) hbroken
  · cases more with
    | nil =>
      cases hcons
      rfl
    | cons x more =>
      cases hcons
      exact absurd (hkept r' (by simp [hmore])) hbroken'

theorem Rule.IsFirstBroken.not_all {rules : List Rule} {r : Rule}
    (h : IsFirstBroken holds rules r) :
    ¬ ∀ r ∈ rules, holds r := by
  obtain ⟨before, after, rfl, -, hbroken⟩ := h
  exact fun hall => hbroken (hall r (by simp))

/-- Two checks that answer for the same rules both pass, or both refuse
for causes of one class. -/
theorem Answers.unique {rules : List Rule} {x : Except Rejection α}
    {y : Except Rejection β} (hx : Answers holds rules x)
    (hy : Answers holds rules y) :
    (∃ a b, x = .ok a ∧ y = .ok b)
      ∨ ∃ cause cause',
        x = .error cause ∧ y = .error cause' ∧ cause.category = cause'.category := by
  cases x with
  | ok a =>
    cases y with
    | ok b => exact .inl ⟨a, b, rfl, rfl⟩
    | error cause =>
      obtain ⟨r, hr, -⟩ := hy
      exact absurd hx hr.not_all
  | error cause =>
    obtain ⟨r, hr, hcause⟩ := hx
    cases y with
    | ok b => exact absurd hy hr.not_all
    | error cause' =>
      obtain ⟨r', hr', hcause'⟩ := hy
      exact .inr ⟨cause, cause', rfl, rfl, by rw [hcause, hcause', hr.unique hr']⟩

theorem bind_eq_ok {x : Except Rejection α} {f : α → Except Rejection β} {b : β}
    (h : x >>= f = .ok b) : ∃ a, x = .ok a ∧ f a = .ok b := by
  cases x with
  | error cause => cases h
  | ok a => exact ⟨a, rfl, h⟩

end Plan

end HttpWire
