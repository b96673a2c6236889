import HttpWire.Bytes

/-!
# Reading off the front

A reader takes one item off the front of a byte string, or says that the
bytes end too early, or that nothing can be made of them. The three answers
are kept apart because the difference between the last two is what makes a
truncated message recognisable.

Two properties are proved of every reader here and carried through composition.
`Stable`: an answer that was given does not change when more bytes come. `Reads`:
one particular byte string is taken for one particular item, whatever stands
behind it. Together they settle every cut: what is read as an item when it is all
there is incomplete when any of it is missing (`Reads.incomplete`).
-/

namespace HttpWire

/-- What reading off the front of a byte string comes to. -/
inductive Reading (α : Type)
  /-- an item, and the bytes behind it -/
  | complete (a : α) (rest : Bytes)
  /-- the bytes end before the item does -/
  | incomplete
  /-- these bytes begin no item -/
  | malformed
  deriving DecidableEq, Repr

/-- A reader takes something off the front of a byte string. -/
def Reader (α : Type) : Type :=
  Bytes → Reading α

namespace Reader

variable {α β γ : Type}

/-- Reads on behind an item. -/
def andThen (r : Reader α) (f : α → Reader β) : Reader β := fun x =>
  match r x with
  | .complete a rest => f a rest
  | .incomplete => .incomplete
  | .malformed => .malformed

instance : Monad Reader where
  pure a := fun x => .complete a x
  bind := andThen

/-- Goes on with the item if there is one. -/
def accept : Option α → Reader α
  | some a => pure a
  | none => fun _ => .malformed

/-- Takes so many bytes. -/
def take (n : Nat) : Reader Bytes := fun x =>
  if x.length < n then .incomplete else .complete (x.take n) (x.drop n)

/-- Takes a line off the front; the line ends at the first line end,
which is no part of it. -/
def lineOf : Bytes → Reading Bytes
  | b :: c :: rest =>
    if b = 13 ∧ c = 10 then .complete [] rest
    else
      match lineOf (c :: rest) with
      | .complete more rest => .complete (b :: more) rest
      | .incomplete => .incomplete
      | .malformed => .malformed
  | _ => .incomplete

/-- Takes a line without its end. -/
def line : Reader Bytes := lineOf

/-- Takes items up to the first that is a last one. An item that
takes no bytes is refused. -/
def itemsOf (r : Reader α) (isLast : α → Bool) (x : Bytes) : Reading (List α) :=
  match r x with
  | .incomplete => .incomplete
  | .malformed => .malformed
  | .complete a rest =>
    if isLast a then .complete [a] rest
    else if _h : rest.length < x.length then
      match itemsOf r isLast rest with
      | .complete more rest => .complete (a :: more) rest
      | .incomplete => .incomplete
      | .malformed => .malformed
    else .malformed
termination_by x.length

/-- Takes items up to the first that is a last one. -/
def items (r : Reader α) (isLast : α → Bool) : Reader (List α) :=
  itemsOf r isLast

/-! ## Stability -/

/-- What was read stays read when more bytes come, and what was
refused stays refused. -/
structure Stable (r : Reader α) : Prop where
  complete : ∀ {x rest : Bytes} {a : α} (y : Bytes),
    r x = .complete a rest → r (x ++ y) = .complete a (rest ++ y)
  malformed : ∀ {x : Bytes} (y : Bytes), r x = .malformed → r (x ++ y) = .malformed

theorem bind_eq (r : Reader α) (f : α → Reader β) (x : Bytes) :
    (r >>= f) x =
      match r x with
      | .complete a rest => f a rest
      | .incomplete => .incomplete
      | .malformed => .malformed :=
  rfl

theorem stable_pure (a : α) : Stable (pure a) where
  complete y h := by
    cases h
    rfl
  malformed y h := by cases h

theorem Stable.bind {r : Reader α} {f : α → Reader β} (hr : Stable r)
    (hf : ∀ a, Stable (f a)) :
    Stable (r >>= f) where
  complete y h := by
    rw [bind_eq] at h ⊢
    split at h
    · next a rest ha =>
      rw [hr.complete y ha]
      exact (hf a).complete y h
    · cases h
    · cases h
  malformed y h := by
    rw [bind_eq] at h ⊢
    split at h
    · next a rest ha =>
      rw [hr.complete y ha]
      exact (hf a).malformed y h
    · cases h
    · next ha => rw [hr.malformed y ha]

theorem stable_accept (o : Option α) : Stable (accept o) := by
  cases o with
  | some a => exact stable_pure a
  | none =>
    constructor
    · intro x rest a y h
      cases h
    · intro x y _
      rfl

theorem stable_take (n : Nat) : Stable (take n) where
  complete y h := by
    unfold take at h ⊢
    split at h
    · cases h
    · next hlen =>
      cases h
      rw [if_neg (by rw [List.length_append]; omega), List.take_append_of_le_length
        (by omega), List.drop_append_of_le_length (by omega)]
  malformed y h := by
    unfold take at h
    split at h <;> cases h

theorem lineOf_append {x rest l : Bytes} (y : Bytes)
    (h : lineOf x = .complete l rest) :
    lineOf (x ++ y) = .complete l (rest ++ y) := by
  fun_induction lineOf x generalizing l with
  | case1 b c rest' hend =>
    cases h
    rw [List.cons_append, List.cons_append, lineOf, if_pos hend]
  | case2 b c rest' hend more rest'' hmore ih =>
    cases h
    rw [List.cons_append, List.cons_append, lineOf, if_neg hend,
      ← List.cons_append, ih hmore]
  | case3 b c rest' hend hmore ih => cases h
  | case4 b c rest' hend hmore ih => cases h
  | case5 x hshort => cases h

theorem lineOf_ne_malformed (x : Bytes) : lineOf x ≠ .malformed := by
  fun_induction lineOf x with
  | case1 b c rest hend => intro h; cases h
  | case2 b c rest hend more rest' hmore ih => intro h; cases h
  | case3 b c rest hend hmore ih => intro h; cases h
  | case4 b c rest hend hmore ih => exact absurd hmore ih
  | case5 x hshort => intro h; cases h

theorem stable_line : Stable line where
  complete y h := lineOf_append y h
  malformed _ h := absurd h (lineOf_ne_malformed _)

theorem itemsOf_append {r : Reader α} {isLast : α → Bool} (hr : Stable r)
    {x rest : Bytes} {as : List α} (y : Bytes)
    (h : itemsOf r isLast x = .complete as rest) :
    itemsOf r isLast (x ++ y) = .complete as (rest ++ y) := by
  fun_induction itemsOf r isLast x generalizing as with
  | case1 x hx => cases h
  | case2 x hx => cases h
  | case3 x a rest' hx hlast =>
    cases h
    rw [itemsOf, hr.complete y hx]
    simp only [hlast, if_true]
  | case4 x a rest' hx hlast hlen more rest'' hmore ih =>
    cases h
    have hlen' : (rest' ++ y).length < (x ++ y).length := by
      rw [List.length_append, List.length_append]
      omega
    rw [itemsOf, hr.complete y hx]
    simp only [hlast, Bool.false_eq_true, if_false]
    rw [dif_pos hlen', ih hmore]
  | case5 x a rest' hx hlast hlen hmore ih => cases h
  | case6 x a rest' hx hlast hlen hmore ih => cases h
  | case7 x a rest' hx hlast hlen => cases h

theorem itemsOf_append_of_malformed {r : Reader α} {isLast : α → Bool}
    (hr : Stable r) {x : Bytes} (y : Bytes) (h : itemsOf r isLast x = .malformed) :
    itemsOf r isLast (x ++ y) = .malformed := by
  fun_induction itemsOf r isLast x with
  | case1 x hx => cases h
  | case2 x hx => rw [itemsOf, hr.malformed y hx]
  | case3 x a rest' hx hlast => cases h
  | case4 x a rest' hx hlast hlen more rest'' hmore ih => cases h
  | case5 x a rest' hx hlast hlen hmore ih => cases h
  | case6 x a rest' hx hlast hlen hmore ih =>
    have hlen' : (rest' ++ y).length < (x ++ y).length := by
      rw [List.length_append, List.length_append]
      omega
    rw [itemsOf, hr.complete y hx]
    simp only [hlast, Bool.false_eq_true, if_false]
    rw [dif_pos hlen', ih hmore]
  | case7 x a rest' hx hlast hlen =>
    have hlen' : ¬ (rest' ++ y).length < (x ++ y).length := by
      rw [List.length_append, List.length_append]
      omega
    rw [itemsOf, hr.complete y hx]
    simp only [hlast, Bool.false_eq_true, if_false]
    rw [dif_neg hlen']

theorem stable_items {r : Reader α} (isLast : α → Bool) (hr : Stable r) :
    Stable (items r isLast) where
  complete y h := itemsOf_append hr y h
  malformed y h := itemsOf_append_of_malformed hr y h

/-! ## Reading back -/

/-- The reader takes `wire` for the item `a`, whatever stands behind it. -/
def Reads (r : Reader α) (wire : Bytes) (a : α) : Prop :=
  ∀ rest, r (wire ++ rest) = .complete a rest

theorem reads_pure (a : α) : Reads (pure a) [] a :=
  fun _ => rfl

theorem Reads.bind {r : Reader α} {f : α → Reader β} {wire more : Bytes} {a : α}
    {b : β} (hr : Reads r wire a) (hf : Reads (f a) more b) :
    Reads (r >>= f) (wire ++ more) b := by
  intro rest
  rw [bind_eq, List.append_assoc, hr (more ++ rest)]
  exact hf rest

/-- A step that only looks at the item adds nothing to the bytes. -/
theorem Reads.bind_pure {r : Reader α} {f : α → Reader β} {wire : Bytes} {a : α}
    {b : β} (hr : Reads r wire a) (hf : Reads (f a) [] b) :
    Reads (r >>= f) wire b := by
  have h := hr.bind hf
  rwa [List.append_nil] at h

theorem reads_accept {o : Option α} {a : α} (h : o = some a) :
    Reads (accept o) [] a := by
  rw [h]
  exact reads_pure a

theorem reads_take (x : Bytes) : Reads (take x.length) x x := by
  intro rest
  rw [take, if_neg (by rw [List.length_append]; omega), List.take_left, List.drop_left]

theorem reads_line {l : Bytes} (h : 13 ∉ l) : Reads line (l ++ Bytes.crlf) l := by
  intro rest
  show lineOf _ = _
  induction l with
  | nil => rfl
  | cons b l ih =>
    rw [List.mem_cons, not_or] at h
    have hb : ¬ b = 13 := fun heq => h.1 heq.symm
    have hmore := ih h.2
    cases l with
    | nil =>
      show lineOf (b :: 13 :: 10 :: rest) = _
      rw [lineOf, if_neg (fun hend => hb hend.1)]
      rfl
    | cons c l =>
      simp only [List.cons_append] at hmore ⊢
      rw [lineOf, if_neg (fun hend => hb hend.1), hmore]

/-- Items are read back one after another, up to the last one. -/
theorem reads_items {r : Reader α} {isLast : α → Bool} (wire : γ → Bytes)
    (item : γ → α) {before : List γ} {final : γ}
    (hbefore : ∀ c ∈ before,
      Reads r (wire c) (item c) ∧ wire c ≠ [] ∧ isLast (item c) = false)
    (hfinal : Reads r (wire final) (item final)) (hlast : isLast (item final) = true) :
    Reads (items r isLast) ((before ++ [final]).flatMap wire)
      ((before ++ [final]).map item) := by
  intro rest
  show itemsOf r isLast _ = _
  induction before with
  | nil =>
    rw [List.nil_append, List.flatMap_singleton, itemsOf, hfinal rest]
    simp only [hlast, if_true]
    rfl
  | cons c before ih =>
    obtain ⟨hreads, hne, hnot⟩ := hbefore c (List.mem_cons_self ..)
    have hmore := ih (fun c hc => hbefore c (List.mem_cons_of_mem _ hc))
    have hpos : 0 < (wire c).length := List.length_pos_iff.mpr hne
    rw [List.cons_append, List.flatMap_cons, List.append_assoc, itemsOf, hreads]
    simp only [hnot, Bool.false_eq_true, if_false]
    rw [dif_pos (by simp only [List.length_append]; omega), hmore]
    rfl

/-- What is read when it is all there is incomplete when its end is missing. -/
theorem Reads.incomplete {r : Reader α} (hr : Stable r) {x y wire : Bytes} {a : α}
    (h : Reads r wire a) (heq : x ++ y = wire) (hy : y ≠ []) : r x = .incomplete := by
  have hwhole : r (x ++ y) = .complete a [] := by
    rw [heq]
    have h' := h []
    rwa [List.append_nil] at h'
  cases hx : r x with
  | incomplete => rfl
  | malformed =>
    rw [hr.malformed y hx] at hwhole
    cases hwhole
  | complete b rest =>
    rw [hr.complete y hx] at hwhole
    simp only [Reading.complete.injEq, List.append_eq_nil_iff] at hwhole
    exact absurd hwhole.2.2 hy

end Reader

end HttpWire
