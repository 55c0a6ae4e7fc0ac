import Bytecode.Operator.Apply

set_option autoImplicit false

/-!
# Booleans as integers

The numeric view of a boolean is an integer, so no comparator and no arithmetic tells `True` from
`1`.  The one place where the kinds of operands are looked at instead is the repetition of texts and
tuples: a boolean is not a repeat count there.

Main statement: `Value.promotion_keeps_outcome`.
-/

namespace Bytecode

/-- Both computations give the same value, or both fail for causes of the same category. -/
inductive SameOutcome : Except Fault Value → Except Fault Value → Prop where
  | ok (v : Value) : SameOutcome (.ok v) (.ok v)
  | error {fault fault' : Fault} (category : fault.category = fault'.category) :
      SameOutcome (.error fault) (.error fault')

theorem SameOutcome.refl (result : Except Fault Value) : SameOutcome result result := by
  cases result with
  | ok v => exact .ok v
  | error fault => exact .error rfl

theorem SameOutcome.trans {first second third : Except Fault Value} (h : SameOutcome first second)
    (h' : SameOutcome second third) : SameOutcome first third := by
  cases h with
  | ok v => exact h'
  | error category =>
    cases h' with
    | error category' => exact .error (category.trans category')

namespace Value

/-- The value with an integer in place of a boolean. -/
def promoted : Value → Value
  | bool b => int (boolToInt b)
  | v => v

/-! ## Comparators -/

theorem equals_promoted_left (l r : Value) : l.promoted.equals r = l.equals r := by
  cases l with
  | bool b => cases r <;> rfl
  | _ => rfl

theorem equals_promoted_right (l r : Value) : l.equals r.promoted = l.equals r := by
  cases r with
  | bool b => cases l <;> rfl
  | _ => rfl

theorem order?_promoted_left (l r : Value) : l.promoted.order? r = l.order? r := by
  cases l with
  | bool b => cases r <;> rfl
  | _ => rfl

theorem order?_promoted_right (l r : Value) : l.order? r.promoted = l.order? r := by
  cases r with
  | bool b => cases l <;> rfl
  | _ => rfl

end Value

/-- Equality and order are all that a comparator sees of its operands. -/
theorem Comparator.sameOutcome_of_eq (c : Comparator) {l r l' r' : Value}
    (hequals : l'.equals r' = l.equals r) (horder : l'.order? r' = l.order? r) :
    SameOutcome (c.apply l r) (c.apply l' r') := by
  unfold apply
  rw [hequals, horder]
  cases c with
  | eq => exact .ok _
  | ne => exact .ok _
  | lt | le | gt | ge =>
    cases l.order? r with
    | some order => exact .ok _
    | none => exact .error rfl

/-! ## Binary operators -/

namespace Operator

/-- A text or a tuple is multiplied by a boolean. -/
def RepeatsByBool (op : Operator) (l r : Value) : Prop :=
  op = multiply ∧ ((l.kind = .bool ∧ (r.kind = .str ∨ r.kind = .tuple)) ∨
    ((l.kind = .str ∨ l.kind = .tuple) ∧ r.kind = .bool))

theorem apply_of_repeatsByBool {op : Operator} {l r : Value} (h : op.RepeatsByBool l r) :
    op.apply l r = .error (unsupported op.symbol l r) := by
  obtain ⟨rfl, ⟨hl, hr⟩ | ⟨hl, hr⟩⟩ := h
  · cases l <;> simp only [Value.kind, reduceCtorEq] at hl
    cases r <;> simp [Value.kind] at hr <;> rfl
  · cases r <;> simp only [Value.kind, reduceCtorEq] at hr
    cases l <;> simp [Value.kind] at hl <;> rfl

theorem repeatsByBool_of_promoted {op : Operator} {l r : Value}
    (h : op.RepeatsByBool l.promoted r) : op.RepeatsByBool l r := by
  cases l with
  | bool b =>
    obtain ⟨-, ⟨hl, -⟩ | ⟨hl | hl, -⟩⟩ := h <;> cases hl
  | _ => exact h

theorem sameOutcome_promoted_left {op : Operator} {l r : Value} (h : ¬ op.RepeatsByBool l r) :
    SameOutcome (op.apply l r) (op.apply l.promoted r) := by
  cases l with
  | bool b =>
    cases r with
    | bool _ | int _ | float _ => exact .refl _
    | str text =>
      cases op with
      | multiply => exact absurd ⟨rfl, .inl ⟨rfl, .inl rfl⟩⟩ h
      | add | subtract => exact .error rfl
    | tuple items =>
      cases op with
      | multiply => exact absurd ⟨rfl, .inl ⟨rfl, .inr rfl⟩⟩ h
      | add | subtract => exact .error rfl
    | _ => cases op <;> exact .error rfl
  | _ => exact .refl _

theorem sameOutcome_promoted_right {op : Operator} {l r : Value} (h : ¬ op.RepeatsByBool l r) :
    SameOutcome (op.apply l r) (op.apply l r.promoted) := by
  cases r with
  | bool b =>
    cases l with
    | bool _ | int _ | float _ => exact .refl _
    | str text =>
      cases op with
      | multiply => exact absurd ⟨rfl, .inr ⟨.inl rfl, rfl⟩⟩ h
      | add | subtract => exact .error rfl
    | tuple items =>
      cases op with
      | multiply => exact absurd ⟨rfl, .inr ⟨.inr rfl, rfl⟩⟩ h
      | add | subtract => exact .error rfl
    | _ => cases op <;> exact .error rfl
  | _ => exact .refl _

end Operator

/-- Integers in place of boolean operands, of one or of both, change no comparison, and no operation
other than the product of a text or a tuple with a boolean, which is not supported. -/
theorem Value.promotion_keeps_outcome {l r l' r' : Value} (hl : l' = l ∨ l' = l.promoted)
    (hr : r' = r ∨ r' = r.promoted) :
    (∀ c : Comparator, SameOutcome (c.apply l r) (c.apply l' r')) ∧
      ∀ op : Operator,
        (¬ op.RepeatsByBool l r → SameOutcome (op.apply l r) (op.apply l' r')) ∧
        (op.RepeatsByBool l r → op.apply l r = .error (unsupported op.symbol l r)) := by
  constructor
  · intro c
    apply c.sameOutcome_of_eq
    · rcases hl with rfl | rfl <;> rcases hr with rfl | rfl <;>
        simp only [equals_promoted_left, equals_promoted_right]
    · rcases hl with rfl | rfl <;> rcases hr with rfl | rfl <;>
        simp only [order?_promoted_left, order?_promoted_right]
  · intro op
    refine ⟨fun h => ?_, op.apply_of_repeatsByBool⟩
    have hleft : SameOutcome (op.apply l r) (op.apply l' r) := by
      rcases hl with rfl | rfl
      · exact .refl _
      · exact op.sameOutcome_promoted_left h
    have h' : ¬ op.RepeatsByBool l' r := by
      rcases hl with rfl | rfl
      · exact h
      · exact fun h' => h (op.repeatsByBool_of_promoted h')
    rcases hr with rfl | rfl
    · exact hleft
    · exact hleft.trans (op.sameOutcome_promoted_right h')

/-- Two booleans are added as integers are. -/
theorem Value.promotion_keeps_outcome_addBool :
    let t : Value := .bool true
    (t.promoted = .int 1) ∧ ¬ Operator.add.RepeatsByBool t t ∧
      SameOutcome (Operator.add.apply t t) (Operator.add.apply t.promoted t.promoted) := by
  intro t
  have single : ¬ Operator.add.RepeatsByBool t t := fun h => Operator.noConfusion h.1
  exact ⟨rfl, single, ((promotion_keeps_outcome (.inr rfl) (.inr rfl)).2 .add).1 single⟩

/-- A text is repeated once, but not `True` times. -/
theorem Operator.not_sameOutcome_str_bool :
    ¬ SameOutcome (multiply.apply (.str "a") (.bool true))
      (multiply.apply (.str "a") (Value.bool true).promoted) := by
  have hbool : multiply.apply (.str "a") (.bool true) =
      .error (.unsupportedOperator "*" .str .bool) := rfl
  have hint : multiply.apply (.str "a") (Value.bool true).promoted = .ok (.str "a") := by
    rfl
  rw [hbool, hint]
  rintro ⟨⟩

end Bytecode
