import HttpWire.Proofs.Numerals
import HttpWire.Proofs.Rules

/-!
# The checks answer for their rules

The checks of a plan are loops and searches over the fields of a message;
here each of them is shown to answer for its rules, and planning for all
of them in their order.

Two of the loops carry a state. The codings are one list over all fields, of which
the last is looked at and the chunked ones are counted; being last and counted
once is being last and nowhere else (`countP_concat_eq_one`). The lengths are read
one after another against the first of them, and what the loop knows is the length
the values so far agree on (`agreeOnLength_spec`).
-/

namespace HttpWire

namespace Plan

/-! ## Each check -/

section Checks

variable (startLine : StartLine) (hs : Headers)

theorem checkStartLine_ok {line : CheckedLine}
    (h : checkStartLine startLine = .ok line) :
    line = startLine.written := by
  cases startLine with
  | request m t =>
    cases m with
    | none => cases h
    | some m =>
      simp only [checkStartLine] at h
      split at h
      · cases h
      · cases t with
        | none => cases h
        | some t =>
          simp only at h
          split at h <;> cases h
          rfl
  | response status r =>
    cases r with
    | none =>
      cases h
      rfl
    | some r =>
      simp only [checkStartLine] at h
      split at h <;> cases h
      rfl

theorem answers_checkStartLine :
    Answers (Rule.Holds startLine hs) [.method, .target, .reason]
      (checkStartLine startLine) := by
  cases startLine with
  | request m t =>
    have hreason : Rule.Holds (.request m t) hs .reason := by
      intro status x h
      cases h
    cases m with
    | none =>
      refine answers_error [] rfl (by simp) ?_ rfl
      intro h
      obtain ⟨x, hx, -⟩ := h none t rfl
      cases hx
    | some m =>
      simp only [checkStartLine]
      split
      · next hm =>
        refine answers_error [] rfl (by simp) ?_ rfl
        intro h
        obtain ⟨x, hx, htoken⟩ := h (some m) t rfl
        cases hx
        rw [isToken_iff.mpr htoken] at hm
        cases hm
      · next hm =>
        simp only [Bool.not_eq_true, Bool.not_eq_false'] at hm
        have hmethod : Rule.Holds (.request (some m) t) hs .method := by
          intro m' t' h
          cases h
          exact ⟨m, rfl, isToken_iff.mp hm⟩
        cases t with
        | none =>
          refine answers_error [.method] rfl (by simpa using hmethod) ?_ rfl
          intro h
          obtain ⟨x, hx, -⟩ := h (some m) none rfl
          cases hx
        | some t =>
          simp only
          split
          · next ht =>
            refine answers_error [.method] rfl (by simpa using hmethod) ?_ rfl
            intro h
            obtain ⟨x, hx, htarget⟩ := h (some m) (some t) rfl
            cases hx
            rw [isTarget_iff.mpr htarget] at ht
            cases ht
          · next ht =>
            simp only [Bool.not_eq_true, Bool.not_eq_false'] at ht
            have htarget : Rule.Holds (.request (some m) (some t)) hs .target := by
              intro m' t' h
              cases h
              exact ⟨t, rfl, isTarget_iff.mp ht⟩
            exact List.forall_mem_cons.mpr ⟨hmethod, by simpa using ⟨htarget, hreason⟩⟩
  | response status r =>
    have hmethod : Rule.Holds (.response status r) hs .method := by
      intro m t h
      cases h
    have htarget : Rule.Holds (.response status r) hs .target := by
      intro m t h
      cases h
    have hall : Rule.Holds (.response status r) hs .reason →
        ∀ r' ∈ [Rule.method, .target, .reason],
            Rule.Holds (.response status r) hs r' := by
      intro hreason
      exact List.forall_mem_cons.mpr ⟨hmethod, by simpa using ⟨htarget, hreason⟩⟩
    cases r with
    | none =>
      refine hall ?_
      intro status' x h
      cases h
    | some x =>
      rw [checkStartLine, Grammar.isReasonPhrase]
      cases hx : Grammar.isFieldValue x with
      | false =>
        refine answers_error [.method, .target] rfl
          (by simpa using ⟨hmethod, htarget⟩) ?_ rfl
        intro h
        rw [isFieldValue_iff.mpr (h status x rfl)] at hx
        cases hx
      | true =>
        refine hall ?_
        intro status' x' h
        cases h
        exact isFieldValue_iff.mp hx

theorem answers_checkFields :
    Answers (Rule.Holds startLine hs) [.fieldNames, .fieldValues]
      (checkFields hs) := by
  unfold checkFields
  split
  · next h hfind =>
    refine answers_error [] rfl (by simp) ?_ rfl
    intro hnames
    have hbad := List.find?_some hfind
    simp only [isToken_iff.mpr (hnames h (List.mem_of_find?_eq_some hfind)),
      Bool.not_true] at hbad
    cases hbad
  · next hfind =>
    have hnames : Rule.Holds startLine hs .fieldNames := by
      intro h hh
      have hgood := List.find?_eq_none.mp hfind h hh
      simp only [Bool.not_eq_true, Bool.not_eq_false'] at hgood
      exact isToken_iff.mp hgood
    split
    · next h hfind' =>
      refine answers_error [.fieldNames] rfl (by simpa using hnames) ?_ rfl
      intro hvalues
      have hbad := List.find?_some hfind'
      simp only [isFieldValue_iff.mpr (hvalues h (List.mem_of_find?_eq_some hfind')),
        Bool.not_true] at hbad
      cases hbad
    · next hfind' =>
      refine List.forall_mem_cons.mpr ⟨hnames, List.forall_mem_singleton.mpr ?_⟩
      · intro h hh
        have hgood := List.find?_eq_none.mp hfind' h hh
        simp only [Bool.not_eq_true, Bool.not_eq_false'] at hgood
        exact isFieldValue_iff.mp hgood

theorem checkCodings_ok {chunked : Bool} (h : checkCodings hs = .ok chunked) :
    chunked = true ↔ hs.valuesOf transferEncoding ≠ [] := by
  simp only [checkCodings, codings_eq] at h
  split at h
  · cases h
  · cases hlast : (listedCodings hs).getLast? with
    | none =>
      rw [hlast] at h
      cases h
      rw [List.getLast?_eq_none_iff] at hlast
      constructor
      · intro hfalse
        cases hfalse
      · intro hne
        exact absurd hlast (listedCodings_ne_nil hne)
    | some final =>
      rw [hlast] at h
      simp only at h
      split at h
      · cases h
      · split at h
        · cases h
        · cases h
          refine ⟨fun _ hnil => ?_, fun _ => rfl⟩
          rw [listedCodings, hnil] at hlast
          cases hlast

/-- Applied once and last is the same as counted once and last. -/
theorem countP_concat_eq_one (p : Bytes → Bool) (before : List Bytes) {final : Bytes}
    (hfinal : p final = true) :
    (before ++ [final]).countP p = 1 ↔ ∀ c ∈ before, p c = false := by
  rw [List.countP_append, List.countP_singleton, if_pos hfinal, Nat.add_eq_right,
    List.countP_eq_zero]
  simp

theorem answers_checkCodings :
    Answers (Rule.Holds startLine hs) [.codings] (checkCodings hs) := by
  simp only [checkCodings, codings_eq]
  split
  · next hany =>
    rw [List.any_eq_true] at hany
    obtain ⟨c, hc, hempty⟩ := hany
    refine answers_error [] rfl (by simp) ?_ rfl
    intro h
    have hne : hs.valuesOf transferEncoding ≠ [] := by
      intro hnil
      rw [listedCodings, hnil] at hc
      cases hc
    exact (h hne).1 c hc (List.isEmpty_iff.mp hempty)
  · next hany =>
    simp only [Bool.not_eq_true, List.any_eq_false, List.isEmpty_iff] at hany
    cases hlast : (listedCodings hs).getLast? with
    | none =>
      intro r hr
      rw [List.mem_singleton.mp hr]
      intro hne
      rw [List.getLast?_eq_none_iff] at hlast
      exact absurd hlast (listedCodings_ne_nil hne)
    | some final =>
      obtain ⟨before, hbefore⟩ := List.getLast?_eq_some_iff.mp hlast
      have hne : hs.valuesOf transferEncoding ≠ [] := by
        intro hnil
        rw [listedCodings, hnil] at hlast
        cases hlast
      -- what the rule says of its own last coding it says of the
      -- one that was found
      have hrule : Rule.Holds startLine hs .codings →
          final.sameLetters chunkedCoding = true
            ∧ ∀ c ∈ before, c.sameLetters chunkedCoding = false := by
        intro h
        obtain ⟨before', final', heq, hfinal, honce⟩ := (h hne).2
        obtain ⟨rfl, hone⟩ := List.append_inj' (hbefore.symm.trans heq) rfl
        cases hone
        exact ⟨hfinal, honce⟩
      simp only
      split
      · next hfinal =>
        refine answers_error [] rfl (by simp) ?_ rfl
        intro h
        rw [(hrule h).1] at hfinal
        cases hfinal
      · next hfinal =>
        simp only [Bool.not_eq_true, Bool.not_eq_false'] at hfinal
        have hcount := countP_concat_eq_one (·.sameLetters chunkedCoding) before hfinal
        rw [← hbefore] at hcount
        split
        · next hmany =>
          refine answers_error [] rfl (by simp) ?_ rfl
          intro h
          exact hmany (hcount.mpr (hrule h).2)
        · next hone =>
          intro r hr
          rw [List.mem_singleton.mp hr]
          intro _
          refine ⟨hany, before, final, hbefore, hfinal, hcount.mp ?_⟩
          exact Decidable.not_not.mp hone

/-- Every value is the numeral of this length, and so was the one before them. -/
def AgreeOn (previous : Option Nat) (values : List Bytes) (n : Nat) : Prop :=
  n < Decimal.limit ∧ (∀ m, previous = some m → m = n) ∧ ∀ value ∈ values,
    value = Decimal.digits n

theorem agreeOnLength_cons {previous : Option Nat} {value : Bytes}
    {more : List Bytes} {n : Nat} (hparse : Decimal.parse? value = some n)
    (hsame : ∀ m, previous = some m → m = n) :
    agreeOnLength previous (value :: more) = agreeOnLength (some n) more := by
  rw [agreeOnLength, hparse]
  cases previous with
  | none => rfl
  | some first =>
    have heq := hsame first rfl
    subst heq
    exact if_neg (fun hne => hne rfl)

/-- Reading the lengths one by one finds the length they agree on, or
the first disagreement. -/
theorem agreeOnLength_spec (previous : Option Nat) (values : List Bytes)
    (hprevious : ∀ m, previous = some m → m < Decimal.limit) :
    match agreeOnLength previous values with
    | .ok none => previous = none ∧ values = []
    | .ok (some n) => AgreeOn previous values n
    | .error cause =>
      cause.category = .fieldValue ∧ ∀ n, ¬ AgreeOn previous values n := by
  induction values generalizing previous with
  | nil =>
    rw [agreeOnLength]
    cases previous with
    | none => exact ⟨rfl, rfl⟩
    | some m =>
      refine ⟨hprevious m rfl, fun m' h => ?_, by simp⟩
      cases h
      rfl
  | cons value more ih =>
    cases hparse : Decimal.parse? value with
    | none =>
      rw [agreeOnLength, hparse]
      refine ⟨rfl, fun n h => ?_⟩
      have hvalue := h.2.2 value (List.mem_cons_self ..)
      rw [Decimal.parse?_eq_some_iff.mpr ⟨h.1, hvalue⟩] at hparse
      cases hparse
    | some n =>
      obtain ⟨hlt, hvalue⟩ := Decimal.parse?_eq_some_iff.mp hparse
      by_cases hsame : ∀ m, previous = some m → m = n
      · -- behind this value the others have to agree on its length
        have hagree : ∀ k, AgreeOn (some n) more k ↔
            AgreeOn previous (value :: more) k := by
          intro k
          constructor
          · rintro ⟨hk, hn, hmore⟩
            have hnk := hn n rfl
            refine ⟨hk, fun m hm => (hsame m hm).trans hnk, fun v hv => ?_⟩
            rcases List.mem_cons.mp hv with rfl | hv
            · rw [hvalue, hnk]
            · exact hmore v hv
          · rintro ⟨hk, -, hmore⟩
            have hfirst := hmore value (List.mem_cons_self ..)
            rw [Decimal.parse?_eq_some_iff.mpr ⟨hk, hfirst⟩] at hparse
            cases hparse
            exact ⟨hk, fun m hm => by cases hm; rfl, fun v hv =>
              hmore v (List.mem_cons_of_mem _ hv)⟩
        have hrest := ih (some n) (fun m hm => by cases hm; exact hlt)
        rw [agreeOnLength_cons hparse hsame]
        cases hmore : agreeOnLength (some n) more with
        | error cause =>
          rw [hmore] at hrest
          exact ⟨hrest.1, fun k h => hrest.2 k ((hagree k).mpr h)⟩
        | ok found =>
          rw [hmore] at hrest
          cases found with
          | none => cases hrest.1
          | some k => exact (hagree k).mp hrest
      · cases previous with
        | none => exact absurd (by simp) hsame
        | some first =>
          have hne : first ≠ n := fun heq => hsame (fun m hm => by cases hm; exact heq)
          rw [agreeOnLength, hparse]
          simp only [if_pos hne]
          refine ⟨rfl, fun k h => hne ?_⟩
          have hfirst := h.2.2 value (List.mem_cons_self ..)
          rw [Decimal.parse?_eq_some_iff.mpr ⟨h.1, hfirst⟩] at hparse
          cases hparse
          exact h.2.1 first rfl

theorem checkLength_ok {chunked : Bool} {length : Nat}
    (h : checkLength hs chunked = .ok length) :
    (hs.valuesOf contentLengthName = [] → length = 0)
      ∧ ∀ value ∈ hs.valuesOf contentLengthName,
        value = Decimal.digits length ∧ length < Decimal.limit := by
  rw [checkLength] at h
  split at h
  · split at h
    · cases h
    · next hhas =>
      cases h
      rw [Bool.not_eq_true, has_eq_false_iff] at hhas
      rw [hhas]
      exact ⟨fun _ => rfl, by simp⟩
  · have hspec := agreeOnLength_spec none (hs.valuesOf contentLengthName) (by simp)
    cases hfound : agreeOnLength none (hs.valuesOf contentLengthName) with
    | error cause =>
      rw [hfound] at h
      cases h
    | ok found =>
      rw [hfound] at h hspec
      cases h
      cases found with
      | none =>
        rw [hspec.2]
        exact ⟨fun _ => rfl, by simp⟩
      | some n =>
        refine ⟨fun hnil => ?_, fun value hv => ⟨hspec.2.2 value hv, hspec.1⟩⟩
        rw [hnil] at hfound
        cases hfound

theorem answers_checkLength {chunked : Bool}
    (hchunked : chunked = true ↔ hs.valuesOf transferEncoding ≠ []) :
    Answers (Rule.Holds startLine hs) [.oneFraming, .length]
      (checkLength hs chunked) := by
  rw [checkLength]
  cases chunked with
  | true =>
    have hcodings := hchunked.mp rfl
    simp only [if_true]
    split
    · next hhas =>
      refine answers_error [] rfl (by simp) ?_ rfl
      intro h
      rcases h with h | h
      · exact hcodings h
      · exact has_iff.mp hhas h
    · next hhas =>
      rw [Bool.not_eq_true, has_eq_false_iff] at hhas
      refine List.forall_mem_cons.mpr ⟨.inr hhas, List.forall_mem_singleton.mpr ?_⟩
      exact fun hnil => absurd hnil hcodings
  | false =>
    have hcodings : hs.valuesOf transferEncoding = [] := by
      cases hvalues : hs.valuesOf transferEncoding with
      | nil => rfl
      | cons value more => exact absurd (hchunked.mpr (by simp [hvalues])) (by simp)
    have hone : Rule.Holds startLine hs .oneFraming := .inl hcodings
    have hspec := agreeOnLength_spec none (hs.valuesOf contentLengthName) (by simp)
    simp only [Bool.false_eq_true, if_false]
    cases hfound : agreeOnLength none (hs.valuesOf contentLengthName) with
    | error cause =>
      rw [hfound] at hspec
      refine answers_error [.oneFraming] rfl (by simpa using hone) ?_ hspec.1
      intro h
      obtain ⟨n, hn, hvalues⟩ := h hcodings
      exact hspec.2 n ⟨hn, by simp, hvalues⟩
    | ok found =>
      rw [hfound] at hspec
      refine List.forall_mem_cons.mpr ⟨hone, List.forall_mem_singleton.mpr fun _ => ?_⟩
      cases found with
      | none =>
        rw [hspec.2]
        exact ⟨0, by decide, by simp⟩
      | some n => exact ⟨n, hspec.1, hspec.2.2⟩

theorem answers_checkStatus :
    Answers (Rule.Holds startLine hs) [.bodiless]
      (checkStatus startLine.written hs) := by
  cases startLine with
  | request m t =>
    intro r hr
    rw [List.mem_singleton.mp hr]
    intro status r h
    cases h
  | response status reason =>
    have hforbids : status.forbidsFraming = true ↔
        status.code < 200 ∨ status.code = 204 := by
      simp [Status.forbidsFraming, Status.isInformational]
    simp only [StartLine.written, checkStatus]
    split
    · next hframed =>
      rw [Bool.and_eq_true, Bool.or_eq_true, has_iff, has_iff] at hframed
      refine answers_error [] rfl (by simp) ?_ rfl
      intro h
      obtain ⟨hlength, hcodings⟩ := h status reason rfl (hforbids.mp hframed.1)
      rcases hframed.2 with hhas | hhas
      · exact hhas hlength
      · exact hhas hcodings
    · next hframed =>
      rw [Bool.and_eq_true, Bool.or_eq_true, has_iff, has_iff] at hframed
      intro r hr
      rw [List.mem_singleton.mp hr]
      intro status' reason' h hcode
      cases h
      have hnone := fun hhas => hframed ⟨hforbids.mpr hcode, hhas⟩
      exact ⟨Decidable.not_not.mp (fun hhas => hnone (.inl hhas)),
        Decidable.not_not.mp (fun hhas => hnone (.inr hhas))⟩

end Checks

/-! ## The whole of planning -/

theorem asksToClose_iff {hs : Headers} : asksToClose hs = true ↔
    ∃ value ∈ hs.valuesOf connection, ∃ option ∈ value.splitOn 44,
      (Grammar.trim option).sameLetters closeOption = true := by
  have hempty : ∀ x : Bytes, x.sameLetters closeOption = true →
      (!x.isEmpty) = true := by
    intro x hx
    cases x with
    | nil => cases hx
    | cons b x => rfl
  simp only [asksToClose, Grammar.elements, Grammar.pieces, splitAtCommas_eq,
    List.any_eq_true, List.mem_flatMap, List.mem_filter, List.mem_map]
  constructor
  · rintro ⟨-, ⟨value, hvalue, ⟨option, hoption, rfl⟩, -⟩, hclose⟩
    exact ⟨value, hvalue, option, hoption, hclose⟩
  · rintro ⟨value, hvalue, option, hoption, hclose⟩
    exact ⟨_, ⟨value, hvalue, ⟨option, hoption, rfl⟩, hempty _ hclose⟩, hclose⟩

theorem ignoresBody_iff {line : StartLine} {options : PlanOptions} :
    ignoresBody line.written options = true ↔
      ∃ status reason, line = .response status reason
        ∧ (options.bodyIgnored = true ∨ status.code = 304) := by
  cases line with
  | request m t => simp [StartLine.written, ignoresBody]
  | response status reason =>
    simp only [StartLine.written, ignoresBody, Bool.or_eq_true, beq_iff_eq]
    constructor
    · exact fun h => ⟨status, reason, rfl, h⟩
    · rintro ⟨status', reason', h, hignored⟩
      cases h
      exact hignored

theorem answers_make (startLine : StartLine) (hs : Headers) (options : PlanOptions) :
    Answers (Rule.Holds startLine hs) Rule.inOrder (make startLine hs options) := by
  refine Answers.bind [.method, .target, .reason] _
    (answers_checkStartLine startLine hs) ?_
  intro line hline
  refine Answers.bind [.fieldNames, .fieldValues] _
    (answers_checkFields startLine hs) ?_
  intro _ _
  refine Answers.bind [.codings] _ (answers_checkCodings startLine hs) ?_
  intro chunked hchunked
  refine Answers.bind [.oneFraming, .length] _
    (answers_checkLength startLine hs (checkCodings_ok hs hchunked)) ?_
  intro length _
  refine Answers.bind [.bodiless] [] ?_ ?_
  · rw [checkStartLine_ok startLine hline]
    exact answers_checkStatus startLine hs
  · intro _ _ r hr
    cases hr

theorem planned_make {startLine : StartLine} {hs : Headers} {options : PlanOptions}
    {p : Plan} (h : make startLine hs options = .ok p) :
    Planned startLine hs options p := by
  obtain ⟨line, hline, h⟩ := bind_eq_ok h
  obtain ⟨-, -, h⟩ := bind_eq_ok h
  obtain ⟨chunked, hchunked, h⟩ := bind_eq_ok h
  obtain ⟨length, hlength, h⟩ := bind_eq_ok h
  obtain ⟨-, -, h⟩ := bind_eq_ok h
  cases h
  have hwritten := checkStartLine_ok startLine hline
  subst hwritten
  obtain ⟨hnone, hsome⟩ := checkLength_ok hs hlength
  exact {
    startLine := rfl
    headers := rfl
    chunked := checkCodings_ok hs hchunked
    no_length := hnone
    length := hsome
    closes := asksToClose_iff
    ignored := ignoresBody_iff
    framing := rfl }

theorem holds_of_make {startLine : StartLine} {hs : Headers} {options : PlanOptions}
    {p : Plan} (h : make startLine hs options = .ok p) (r : Rule) :
    Rule.Holds startLine hs r := by
  have hanswers := answers_make startLine hs options
  rw [h] at hanswers
  exact hanswers r (by cases r <;> decide)

end Plan

/-- Planning decides the rules in their order. A message is planned exactly if it
keeps them all, and the plan is the one that belongs to it; otherwise the cause is
of the class of the first broken rule. -/
theorem Message.plan_spec {σ : Type} (m : Message σ) (options : PlanOptions) :
    ((∃ p, m.plan options = .ok p) ↔ ∀ r, Plan.Rule.Holds m.startLine m.headers r)
      ∧ (∀ p, m.plan options = .ok p → Plan.Planned m.startLine m.headers options p)
      ∧ (∀ cause, m.plan options = .error cause →
        ∃ r, Plan.Rule.IsFirstBroken (Plan.Rule.Holds m.startLine m.headers)
            Plan.Rule.inOrder r
          ∧ cause.category = r.category)
      ∧ ∀ r, Plan.Rule.IsFirstBroken (Plan.Rule.Holds m.startLine m.headers)
          Plan.Rule.inOrder r →
        ∃ cause, m.plan options = .error cause ∧ cause.category = r.category := by
  have hanswers := Plan.answers_make m.startLine m.headers options
  refine ⟨⟨?_, ?_⟩, fun p => Plan.planned_make, ?_, ?_⟩
  · rintro ⟨p, hp⟩ r
    exact Plan.holds_of_make hp r
  · intro hall
    cases hplan : m.plan options with
    | ok p => exact ⟨p, rfl⟩
    | error cause =>
      rw [Message.plan] at hplan
      rw [hplan] at hanswers
      obtain ⟨r, ⟨-, -, -, -, hbroken⟩, -⟩ := hanswers
      exact absurd (hall r) hbroken
  · intro cause hcause
    rw [Message.plan] at hcause
    rw [hcause] at hanswers
    exact hanswers
  · intro r hr
    cases hplan : m.plan options with
    | ok p =>
      obtain ⟨-, -, -, -, hbroken⟩ := hr
      exact absurd (Plan.holds_of_make hplan r) hbroken
    | error cause =>
      rw [Message.plan] at hplan
      rw [hplan] at hanswers
      obtain ⟨r', hr', hcause⟩ := hanswers
      rw [hr.unique hr']
      exact ⟨cause, rfl, hcause⟩

end HttpWire
