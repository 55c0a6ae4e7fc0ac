import Bytecode.Proofs.Iteration

set_option autoImplicit false

/-!
# The elements of a sequence

The elements of a text are its characters, those of a tuple its items, and those of a range the
numbers `start + i * step` that lie strictly before `stop`, counted over unbounded integers.  A
cursor comes to these by steps of its own: by positions in the bytes of the text, and by sums of
64-bit integers that are cut off at `stop`.

Main statements: `Cursor.exhibits_left`, a cursor yields what is left to it and then nothing more,
and `Value.yields_elements`, iteration, length and truth of a sequence agree with its elements.
-/

namespace Bytecode

/-! ## What a cursor yields -/

namespace Cursor

/-- The elements that are left. -/
def left (c : Cursor) : List Value :=
  c.trail.map (·.1)

/-- The cursor after as many attempts to advance it; at the end it stays where it is. -/
def after : Nat → Cursor → Cursor
  | 0, c => c
  | k + 1, c =>
    match c.advance with
    | some (_, rest) => rest.after k
    | none => c.after k

/-- Advanced again and again, the cursor gives these elements in order, and then nothing. -/
def Exhibits (c : Cursor) (elements : List Value) : Prop :=
  ∀ k, (c.after k).advance.map (·.1) = elements[k]?

theorem trail_after (k : Nat) (c : Cursor) : (c.after k).trail = c.trail.drop k := by
  induction k generalizing c with
  | zero => rfl
  | succ k ih =>
    unfold after
    cases advanced : c.advance with
    | none => rw [ih, trail_of_none advanced, List.drop_nil, List.drop_nil]
    | some next => rw [ih, trail_of_some advanced, List.drop_succ_cons]

theorem left_after (k : Nat) (c : Cursor) : (c.after k).left = c.left.drop k := by
  rw [left, left, trail_after, List.map_drop]

theorem head?_trail (c : Cursor) : c.trail.head? = c.advance := by
  cases advanced : c.advance with
  | none => rw [trail_of_none advanced, List.head?_nil]
  | some next => rw [trail_of_some advanced, List.head?_cons]

theorem exhibits_left (c : Cursor) : c.Exhibits c.left := by
  intro k
  rw [← head?_trail, trail_after, List.head?_drop, left, List.getElem?_map]

theorem left_of_none {c : Cursor} (h : c.advance = none) : c.left = [] := by
  rw [left, trail_of_none h, List.map_nil]

theorem left_of_some {c rest : Cursor} {item : Value} (h : c.advance = some (item, rest)) :
    c.left = item :: rest.left := by
  rw [left, trail_of_some h, List.map_cons, left]

/-! ## What is left of a sequence -/

theorem left_items (before items : List Value) :
    (Cursor.items (before ++ items) before.length).left = items := by
  induction items generalizing before with
  | nil => exact left_of_none (by simp [advance])
  | cons item items ih =>
    have hadvance : (Cursor.items (before ++ item :: items) before.length).advance =
        some (item, .items (before ++ item :: items) (before.length + 1)) := by
      simp [advance]
    have hrest := ih (before ++ [item])
    rw [List.append_assoc, List.singleton_append, List.length_append] at hrest
    rw [left_of_some hadvance]
    exact congrArg (item :: ·) hrest

theorem left_chars (before chars : List Char) :
    (Cursor.chars (String.ofList (before ++ chars)) (String.utf8Len before)).left =
      chars.map fun c => .str (String.singleton c) := by
  induction chars generalizing before with
  | nil =>
    refine left_of_none ?_
    rw [advance, String.get?_of_valid, List.head?_nil, Option.map_none]
  | cons c chars ih =>
    have hadvance : (Cursor.chars (String.ofList (before ++ c :: chars))
        (String.utf8Len before)).advance = some (.str (String.singleton c),
          .chars (String.ofList (before ++ c :: chars)) (String.utf8Len before + c.utf8Size)) := by
      rw [advance, String.get?_of_valid, List.head?_cons, Option.map_some]
    have hrest := ih (before ++ [c])
    rw [List.append_assoc, List.singleton_append, String.utf8Len_append, String.utf8Len_cons,
      String.utf8Len_nil, Nat.zero_add] at hrest
    rw [left_of_some hadvance]
    exact congrArg (.str (String.singleton c) :: ·) hrest

theorem left_range (next stop step : Int64) :
    ∃ ns : List Int64, (Cursor.range next stop step).left = ns.map .int ∧
      ∀ i, ns[i]?.map Int64.toInt = (Range.mk next stop step).number? i := by
  generalize hbound : (Cursor.range next stop step).bound = bound
  induction bound using Nat.strong_induction_on generalizing next with
  | _ bound ih =>
    by_cases before : isBefore next stop step
    · have hadvance : (Cursor.range next stop step).advance =
          some (.int next, .range (successor next stop step) stop step) := if_pos before
      subst hbound
      obtain ⟨ns, hleft, numbers⟩ := ih _ (bound_range_lt before) (successor next stop step) rfl
      refine ⟨next :: ns, ?_, fun i => ?_⟩
      · rw [left_of_some hadvance, hleft, List.map_cons]
      · cases i with
        | zero =>
          have hbefore := isBefore_iff.1 before
          simp [Range.number?, hbefore]
        | succ i =>
          rw [List.getElem?_cons_succ, numbers, number?_successor]
    · have hadvance : (Cursor.range next stop step).advance = none := if_neg before
      refine ⟨[], left_of_none hadvance, fun i => ?_⟩
      have hpast : ¬ Range.Before (next.toInt + i * step.toInt) stop.toInt step.toInt :=
        fun hbefore => before (isBefore_iff.2 hbefore.of_add_mul)
      simp [Range.number?, hpast]

end Cursor

/-! ## Sequences -/

namespace Value

/-- The elements of a text, a tuple or a range in their order. -/
inductive HasElements : Value → List Value → Prop where
  | str (text : String) :
      HasElements (.str text) (text.toList.map fun c => .str (String.singleton c))
  | tuple (items : List Value) : HasElements (.tuple items) items
  | range {r : Range} {ns : List Int64} (numbers : ∀ i, ns[i]?.map Int64.toInt = r.number? i) :
      HasElements (.range r) (ns.map .int)

/-- The cursor over a sequence has all of its elements left. -/
theorem exists_iterate_eq {v : Value} (h : v.kind = .str ∨ v.kind = .tuple ∨ v.kind = .range) :
    ∃ c, v.iterate = .ok c ∧ v.HasElements c.left := by
  cases v with
  | str text =>
    have hleft := Cursor.left_chars [] text.toList
    rw [List.nil_append, String.ofList_toList] at hleft
    refine ⟨.chars text 0, rfl, ?_⟩
    rw [show (0 : Nat) = String.utf8Len [] from rfl, hleft]
    exact .str text
  | tuple items =>
    have hleft := Cursor.left_items [] items
    refine ⟨.items items 0, rfl, ?_⟩
    rw [show (0 : Nat) = ([] : List Value).length from rfl, ← List.nil_append items, hleft]
    exact .tuple items
  | range r =>
    obtain ⟨ns, hleft, numbers⟩ := Cursor.left_range r.start r.stop r.step
    refine ⟨.range r.start r.stop r.step, rfl, ?_⟩
    rw [hleft]
    exact .range numbers
  | _ => simp [kind] at h

/-- A range has the length of the list of its numbers. -/
theorem length_eq_of_numbers {r : Range} {ns : List Int64}
    (numbers : ∀ i, ns[i]?.map Int64.toInt = r.number? i) : ns.length = r.length := by
  have hlt : ∀ i, i < ns.length ↔ i < r.length := by
    intro i
    rw [Range.lt_length_iff, ← numbers, Option.isSome_map]
    simp
  have hle := hlt r.length
  have hge := hlt ns.length
  omega

namespace HasElements

variable {v : Value} {elements : List Value}

theorem length?_eq (h : v.HasElements elements) : Builtin.length? v = some elements.length := by
  cases h with
  | str text => rw [List.length_map, String.length_toList, Builtin.length?]
  | tuple items => rfl
  | range numbers => rw [List.length_map, length_eq_of_numbers numbers, Builtin.length?]

theorem isTruthy_iff (h : v.HasElements elements) : v.isTruthy ↔ elements.length ≠ 0 := by
  cases h with
  | str text => simp [isTruthy]
  | tuple items => simp [isTruthy]
  | range numbers => simp [isTruthy, Range.isEmpty, ← length_eq_of_numbers numbers]

/-- The number of elements is given where it is a 64-bit integer, and nothing is written. -/
theorem len_call_eq (h : v.HasElements elements) (sink : Sink) :
    Builtin.len.call [v] sink =
      match Text.toInt64? elements.length with
      | some n => .ok (.int n) sink
      | Option.none => .error .lengthTooLarge sink := by
  have hwritten : Builtin.len.written [v] = [] := rfl
  rw [Builtin.call_of_written_eq_nil hwritten, Builtin.result, Builtin.lenResult, h.length?_eq]
  dsimp only
  cases Text.toInt64? elements.length <;> rfl

end HasElements

/-- A cursor over a text, a tuple or a range yields its elements in order and then nothing; a cursor
that has been advanced is iterated from where it stands.  The number of elements is the length of a
range, which fits in 64 bits; it is the result of `len` if it is a 64-bit integer, and a fault
otherwise; and a sequence is true exactly when it has elements. -/
theorem yields_elements (v : Value) (h : v.kind = .str ∨ v.kind = .tuple ∨ v.kind = .range) :
    ∃ (elements : List Value) (c : Cursor),
      v.HasElements elements ∧ v.iterate = .ok c ∧ c.Exhibits elements ∧
      (∀ k, (Value.iterator (c.after k)).iterate = .ok (c.after k) ∧
        (c.after k).Exhibits (elements.drop k)) ∧
      (∀ r, v = .range r → r.length = elements.length ∧ r.length < UInt64.size) ∧
      (∀ sink,
        (elements.length ≤ Int64.maxValue.toInt →
          ∃ n : Int64, n.toInt = elements.length ∧ Builtin.len.call [v] sink = .ok (.int n) sink) ∧
        (Int64.maxValue.toInt < elements.length →
          ∃ fault, Builtin.len.call [v] sink = .error fault sink ∧
            fault.category = .arithmeticError)) ∧
      (v.isTruthy ↔ elements.length ≠ 0) := by
  obtain ⟨c, iterates, has⟩ := exists_iterate_eq h
  refine ⟨c.left, c, has, iterates, c.exhibits_left, fun k => ⟨rfl, ?_⟩, ?_, fun sink => ⟨?_, ?_⟩,
    has.isTruthy_iff⟩
  · rw [← Cursor.left_after]
    exact (c.after k).exhibits_left
  · rintro r rfl
    have hlength := has.length?_eq
    exact ⟨Option.some.inj hlength, r.length_lt⟩
  · intro hle
    have hfits : Text.toInt64? c.left.length = some (Int64.ofInt c.left.length) :=
      if_pos ⟨by rw [Int64.toInt_minValue]; omega, hle⟩
    refine ⟨_, Text.toInt_of_toInt64? hfits, ?_⟩
    rw [has.len_call_eq, hfits]
  · intro hlt
    have hlarge : Text.toInt64? c.left.length = Option.none :=
      if_neg fun bounds => Int.not_le.2 hlt bounds.2
    refine ⟨.lengthTooLarge, ?_, rfl⟩
    rw [has.len_call_eq, hlarge]

/-- The step is so wide that the second number is next to zero, and the next but one would leave the
64-bit integers. -/
theorem yields_elements_wideRange :
    let v : Value := .range ⟨Int64.minValue, Int64.maxValue, Int64.maxValue⟩
    v.kind = .range ∧ ∃ (elements : List Value) (c : Cursor),
      v.HasElements elements ∧ v.iterate = .ok c ∧ c.Exhibits elements ∧ elements.length = 3 ∧
        v.isTruthy := by
  intro v
  have hkind : v.kind = .str ∨ v.kind = .tuple ∨ v.kind = .range := .inr (.inr rfl)
  obtain ⟨elements, c, has, iterates, yields, -, hlength, -, htruthy⟩ := yields_elements v hkind
  have hthree : elements.length = 3 := (hlength _ rfl).1.symm.trans (by decide)
  exact ⟨rfl, elements, c, has, iterates, yields, hthree, htruthy.2 (by omega)⟩

end Value

end Bytecode
