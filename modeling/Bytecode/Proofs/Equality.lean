import Bytecode.Operator.Apply

set_option autoImplicit false

/-!
# Equality without floats

Equality is computed by three rules: numbers by value, tuples item by item, and all else by
structure.  Where no float is involved it comes down to one: two values are equal if they are the
same when every boolean outside of code and cursors is read as an integer.

Main statements: `Value.same_iff_eq`, sameness of values without floats is identity, and
`Value.equals_iff`.
-/

namespace Bytecode

/-! ## Values without floats -/

mutual

/-- There is no float in the value, however deep. -/
def Value.isFloatFree : Value → Bool
  | .float _ => false
  | .tuple items => Value.allFloatFree items
  | .code c | .function c => Code.isFloatFree c
  | .iterator c => Cursor.isFloatFree c
  | _ => true
termination_by structural v => v

def Value.allFloatFree : List Value → Bool
  | [] => true
  | v :: rest => Value.isFloatFree v && Value.allFloatFree rest
termination_by structural vs => vs

def Cursor.isFloatFree : Cursor → Bool
  | .items items _ => Value.allFloatFree items
  | _ => true
termination_by structural c => c

def Code.isFloatFree : Code → Bool
  | ⟨_, _, _, instructions, _⟩ => Instruction.allFloatFree instructions
termination_by structural c => c

def Instruction.isFloatFree : Instruction → Bool
  | ⟨_, _, _, argval⟩ => Value.optionFloatFree argval
termination_by structural i => i

def Instruction.allFloatFree : List Instruction → Bool
  | [] => true
  | i :: rest => Instruction.isFloatFree i && Instruction.allFloatFree rest
termination_by structural is => is

def Value.optionFloatFree : Option Value → Bool
  | Option.none => true
  | some v => Value.isFloatFree v
termination_by structural v => v

end

/-! ## Sameness -/

mutual

theorem Value.same_iff_eq : ∀ {a b : Value}, a.isFloatFree → (a.same b ↔ a = b)
  | .float x, b, h => Bool.noConfusion h
  | .tuple as, b, h => by
    cases b with
    | tuple bs => rw [Value.same, Value.sameAll_iff_eq h, Value.tuple.injEq]
    | _ => simp [Value.same]
  | .code c, b, h => by
    cases b with
    | code d => rw [Value.same, Code.same_iff_eq h, Value.code.injEq]
    | _ => simp [Value.same]
  | .function c, b, h => by
    cases b with
    | function d => rw [Value.same, Code.same_iff_eq h, Value.function.injEq]
    | _ => simp [Value.same]
  | .iterator c, b, h => by
    cases b with
    | iterator d => rw [Value.same, Cursor.same_iff_eq h, Value.iterator.injEq]
    | _ => simp [Value.same]
  | .none, b, _ | .null, b, _ | .bool _, b, _ | .int _, b, _ | .str _, b, _ | .range _, b, _
  | .builtin _, b, _ => by
    cases b <;> simp [Value.same]
termination_by structural a => a

theorem Value.sameAll_iff_eq :
    ∀ {as bs : List Value}, Value.allFloatFree as → (Value.sameAll as bs ↔ as = bs)
  | [], bs, _ => by cases bs <;> simp [Value.sameAll]
  | a :: as, bs, h => by
    rw [Value.allFloatFree, Bool.and_eq_true] at h
    cases bs with
    | nil => simp [Value.sameAll]
    | cons b bs =>
      rw [Value.sameAll, Bool.and_eq_true, Value.same_iff_eq h.1, Value.sameAll_iff_eq h.2,
        List.cons.injEq]
termination_by structural as => as

theorem Cursor.same_iff_eq : ∀ {a b : Cursor}, a.isFloatFree → (a.same b ↔ a = b)
  | .items as pos, b, h => by
    cases b with
    | items bs pos' =>
      rw [Cursor.same, Bool.and_eq_true, Value.sameAll_iff_eq h, beq_iff_eq, Cursor.items.injEq]
    | _ => simp [Cursor.same]
  | .range .., b, _ | .chars .., b, _ => by
    cases b <;> simp [Cursor.same, and_assoc]
termination_by structural a => a

theorem Code.same_iff_eq : ∀ {a b : Code}, a.isFloatFree → (a.same b ↔ a = b)
  | ⟨name, argcount, varnames, instructions, index⟩,
    ⟨name', argcount', varnames', instructions', index'⟩, h => by
    simp only [Code.same, Bool.and_eq_true, Instruction.sameAll_iff_eq h, beq_iff_eq,
      Code.mk.injEq, and_assoc]
termination_by structural a => a

theorem Instruction.same_iff_eq : ∀ {a b : Instruction}, a.isFloatFree → (a.same b ↔ a = b)
  | ⟨offset, opcode, arg, argval⟩, ⟨offset', opcode', arg', argval'⟩, h => by
    simp only [Instruction.same, Bool.and_eq_true, Value.sameOption_iff_eq h, beq_iff_eq,
      Instruction.mk.injEq, and_assoc]
termination_by structural a => a

theorem Instruction.sameAll_iff_eq :
    ∀ {as bs : List Instruction}, Instruction.allFloatFree as →
      (Instruction.sameAll as bs ↔ as = bs)
  | [], bs, _ => by cases bs <;> simp [Instruction.sameAll]
  | a :: as, bs, h => by
    rw [Instruction.allFloatFree, Bool.and_eq_true] at h
    cases bs with
    | nil => simp [Instruction.sameAll]
    | cons b bs =>
      rw [Instruction.sameAll, Bool.and_eq_true, Instruction.same_iff_eq h.1,
        Instruction.sameAll_iff_eq h.2, List.cons.injEq]
termination_by structural as => as

theorem Value.sameOption_iff_eq :
    ∀ {a b : Option Value}, Value.optionFloatFree a → (Value.sameOption a b ↔ a = b)
  | Option.none, b, _ => by cases b <;> simp [Value.sameOption]
  | some a, b, h => by
    cases b with
    | none => simp [Value.sameOption]
    | some b => rw [Value.sameOption, Value.same_iff_eq h, Option.some.injEq]
termination_by structural a => a

end

/-! ## Equality -/

mutual

/-- The value with integers in place of booleans, in tuples too. -/
def Value.numbered : Value → Value
  | .bool b => .int (boolToInt b)
  | .tuple items => .tuple (Value.allNumbered items)
  | v => v
termination_by structural v => v

def Value.allNumbered : List Value → List Value
  | [] => []
  | v :: rest => v.numbered :: Value.allNumbered rest
termination_by structural vs => vs

end

mutual

/-- Values without floats are equal if they are the same up to booleans as integers. -/
theorem Value.equals_iff :
    ∀ {a b : Value}, a.isFloatFree → b.isFloatFree → (a.equals b ↔ a.numbered = b.numbered)
  | .tuple as, b, ha, hb => by
    cases b with
    | tuple bs =>
      rw [Value.equals, Value.equalsAll_iff ha hb, Value.numbered, Value.numbered,
        Value.tuple.injEq]
    | _ => simp [Value.equals, Value.number?, Value.same, Value.numbered]
  | .float x, b, ha, _ => Bool.noConfusion ha
  | .bool _, b, _, hb | .int _, b, _, hb => by
    cases b with
    | float x => cases hb
    | _ => simp [Value.equals, Value.number?, Number.eq, Value.same, Value.numbered]
  | .none, b, _, _ | .null, b, _, _ | .str _, b, _, _ | .range _, b, _, _
  | .builtin _, b, _, _ => by
    cases b <;> simp [Value.equals, Value.number?, Value.same, Value.numbered]
  | .code c, b, ha, _ => by
    cases b <;> simp [Value.equals, Value.number?, Value.same_iff_eq ha, Value.numbered]
  | .function c, b, ha, _ => by
    cases b <;> simp [Value.equals, Value.number?, Value.same_iff_eq ha, Value.numbered]
  | .iterator c, b, ha, _ => by
    cases b <;> simp [Value.equals, Value.number?, Value.same_iff_eq ha, Value.numbered]
termination_by structural a => a

theorem Value.equalsAll_iff :
    ∀ {as bs : List Value}, Value.allFloatFree as → Value.allFloatFree bs →
      (Value.equalsAll as bs ↔ Value.allNumbered as = Value.allNumbered bs)
  | [], bs, _, _ => by cases bs <;> simp [Value.equalsAll, Value.allNumbered]
  | a :: as, bs, ha, hb => by
    cases bs with
    | nil => simp [Value.equalsAll, Value.allNumbered]
    | cons b bs =>
      rw [Value.allFloatFree, Bool.and_eq_true] at ha hb
      rw [Value.equalsAll, Bool.and_eq_true, Value.equals_iff ha.1 hb.1,
        Value.equalsAll_iff ha.2 hb.2, Value.allNumbered, Value.allNumbered, List.cons.injEq]
termination_by structural as => as

end

end Bytecode
