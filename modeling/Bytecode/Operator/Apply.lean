import Bytecode.Value

set_option autoImplicit false

/-!
# Operators on values

What the binary operators and the comparators give for any two values.  Operators work on numbers,
join strings and tuples, and repeat them; comparators test any two values for equality and order
numbers and strings.

A boolean counts as an integer.  Two integers stay integers and must not overflow; with a float on
either side both are floats.

Values that are no numbers are equal when they are built alike.  Kinds are never mixed then, code is
compared by all of its parts, and floats as numbers: `0.0` is `-0.0`, and a NaN is not the same as
anything.

Main statement: `Operator.onNumber_int_eq_ok_iff`, integers are combined exactly.
-/

namespace Bytecode

/-! ## Numbers -/

/-- A value seen as a number. -/
inductive Number where
  | int (n : Int64)
  | float (x : Float)

namespace Number

/-- The float nearest to the number. -/
def toFloat : Number → Float
  | int n => Float.ofInt n.toInt
  | float x => x

/-- Equality by value; integers are compared exactly when both are. -/
def eq : Number → Number → Bool
  | int a, int b => a == b
  | a, b => a.toFloat == b.toFloat

/-- The order of two numbers; there is none with a NaN. -/
def order? : Number → Number → Option Ordering
  | int a, int b => some (compare a.toInt b.toInt)
  | a, b =>
    let x := a.toFloat
    let y := b.toFloat
    if x < y then some .lt
    else if y < x then some .gt
    else if x == y then some .eq
    else none

end Number

namespace Operator

/-- The exact result on integers. -/
def onInt : Operator → Int → Int → Int
  | add, a, b => a + b
  | subtract, a, b => a - b
  | multiply, a, b => a * b

def onFloat : Operator → Float → Float → Float
  | add, x, y => x + y
  | subtract, x, y => x - y
  | multiply, x, y => x * y

/-- The result on numbers; an integer that does not fit is a fault. -/
def onNumber (op : Operator) : Number → Number → Except Fault Value
  | .int a, .int b =>
    match Text.toInt64? (op.onInt a.toInt b.toInt) with
    | some n => .ok (.int n)
    | none => .error (.overflow op)
  | a, b => .ok (.float (op.onFloat a.toFloat b.toFloat))

theorem onNumber_int_eq_ok_iff {op : Operator} {a b n : Int64} :
    op.onNumber (.int a) (.int b) = .ok (.int n) ↔ n.toInt = op.onInt a.toInt b.toInt := by
  rw [← Text.toInt64?_eq_some_iff]
  simp only [onNumber]
  cases Text.toInt64? (op.onInt a.toInt b.toInt) <;> simp

theorem onNumber_int_of_eq_none {op : Operator} {a b : Int64}
    (h : Text.toInt64? (op.onInt a.toInt b.toInt) = none) :
    op.onNumber (.int a) (.int b) = .error (.overflow op) := by
  simp only [onNumber, h]

end Operator

/-- A boolean as an integer. -/
def boolToInt (b : Bool) : Int64 :=
  if b then 1 else 0

/-- The value as a number, if it is one. -/
def Value.number? : Value → Option Number
  | .bool b => some (.int (boolToInt b))
  | .int n => some (.int n)
  | .float x => some (.float x)
  | _ => .none

/-! ## Repetition -/

/-- How often a sequence of `size` units is repeated: not at all for a negative count.
The units of the result have to be countable in 64 bits. -/
def repeatCount (count : Int64) (size : Nat) : Except Fault Nat :=
  let times := count.toInt.toNat
  if size * times < UInt64.size then .ok times else .error .repeatTooLarge

/-- The items `times` times in a row. -/
def repeatItems {α : Type} (items : List α) (times : Nat) : List α :=
  if items.isEmpty then [] else (List.replicate times items).flatten

/-- The text `times` times in a row, for which all room is asked for at once. -/
def repeatText (text : String) (times : Nat) : String :=
  if text.isEmpty then "" else String.join (Array.replicate times text).toList

def Operator.repeatTextValue (text : String) (count : Int64) : Except Fault Value := do
  let times ← repeatCount count text.utf8ByteSize
  return .str (repeatText text times)

def Operator.repeatTupleValue (items : List Value) (count : Int64) : Except Fault Value := do
  let times ← repeatCount count items.length
  return .tuple (repeatItems items times)

/-! ## Binary operators -/

/-- The fault of an operator that these kinds do not support. -/
def unsupported (symbol : String) (left right : Value) : Fault :=
  .unsupportedOperator symbol left.kind right.kind

namespace Operator

/-- The result on two values that are not both numbers. -/
def onSequence : Operator → Value → Value → Except Fault Value
  | add, .str a, .str b => .ok (.str (a ++ b))
  | add, .tuple as, .tuple bs => .ok (.tuple (as ++ bs))
  | multiply, .str text, .int n => repeatTextValue text n
  | multiply, .int n, .str text => repeatTextValue text n
  | multiply, .tuple items, .int n => repeatTupleValue items n
  | multiply, .int n, .tuple items => repeatTupleValue items n
  | op, left, right => .error (unsupported op.symbol left right)

/-- The result of the operator. -/
def apply (op : Operator) (left right : Value) : Except Fault Value :=
  match left.number?, right.number? with
  | some a, some b => op.onNumber a b
  | _, _ => op.onSequence left right

end Operator

/-! ## Sameness -/

mutual

def Value.same : Value → Value → Bool
  | .none, .none => true
  | .null, .null => true
  | .bool a, .bool b => a == b
  | .int a, .int b => a == b
  | .float a, .float b => a == b
  | .str a, .str b => a == b
  | .tuple as, .tuple bs => Value.sameAll as bs
  | .range a, .range b => a == b
  | .builtin a, .builtin b => a == b
  | .code a, .code b => Code.same a b
  | .function a, .function b => Code.same a b
  | .iterator a, .iterator b => Cursor.same a b
  | _, _ => false
termination_by structural a => a

/-- Sameness item by item. -/
def Value.sameAll : List Value → List Value → Bool
  | [], [] => true
  | a :: as, b :: bs => Value.same a b && Value.sameAll as bs
  | _, _ => false
termination_by structural a => a

def Cursor.same : Cursor → Cursor → Bool
  | .range next stop step, .range next' stop' step' =>
    next == next' && stop == stop' && step == step'
  | .items items pos, .items items' pos' => Value.sameAll items items' && pos == pos'
  | .chars text pos, .chars text' pos' => text == text' && pos == pos'
  | _, _ => false
termination_by structural a => a

def Code.same : Code → Code → Bool
  | ⟨name, argcount, varnames, instructions, index⟩,
    ⟨name', argcount', varnames', instructions', index'⟩ =>
    name == name' && argcount == argcount' && varnames == varnames' &&
      Instruction.sameAll instructions instructions' && index == index'
termination_by structural a => a

def Instruction.same : Instruction → Instruction → Bool
  | ⟨offset, opcode, arg, argval⟩, ⟨offset', opcode', arg', argval'⟩ =>
    offset == offset' && opcode == opcode' && arg == arg' && Value.sameOption argval argval'
termination_by structural a => a

/-- Sameness instruction by instruction. -/
def Instruction.sameAll : List Instruction → List Instruction → Bool
  | [], [] => true
  | a :: as, b :: bs => Instruction.same a b && Instruction.sameAll as bs
  | _, _ => false
termination_by structural a => a

/-- Sameness of operands, which may be absent. -/
def Value.sameOption : Option Value → Option Value → Bool
  | .none, .none => true
  | .some a, .some b => Value.same a b
  | _, _ => false
termination_by structural a => a

end

/-! ## Equality and order -/

mutual

/-- Equality as programs see it: numbers by value, tuples item by item, all else by
structure. -/
def Value.equals : Value → Value → Bool
  | .tuple as, .tuple bs => Value.equalsAll as bs
  | left, right =>
    match left.number?, right.number? with
    | some a, some b => a.eq b
    | _, _ => left.same right
termination_by structural a => a

def Value.equalsAll : List Value → List Value → Bool
  | [], [] => true
  | a :: as, b :: bs => Value.equals a b && Value.equalsAll as bs
  | _, _ => false
termination_by structural a => a

end

/-- The order of two values: nothing if the kinds have none, and no order with a NaN. -/
def Value.order? (left right : Value) : Option (Option Ordering) :=
  match left.number?, right.number? with
  | some a, some b => some (a.order? b)
  | _, _ =>
    match left, right with
    | .str a, .str b => some (some (compare a b))
    | _, _ => .none

namespace Comparator

/-- Whether the comparator holds of operands in this order; without one none holds. -/
def holds : Comparator → Option Ordering → Bool
  | lt, some o => o == .lt
  | le, some o => o != .gt
  | eq, some o => o == .eq
  | ne, some o => o != .eq
  | gt, some o => o == .gt
  | ge, some o => o != .lt
  | _, none => false

/-- The result of the comparator. -/
def apply (c : Comparator) (left right : Value) : Except Fault Value :=
  match c with
  | eq => .ok (.bool (left.equals right))
  | ne => .ok (.bool (!left.equals right))
  | lt | le | gt | ge =>
    match left.order? right with
    | some order => .ok (.bool (c.holds order))
    | none => .error (unsupported c.symbol left right)

end Comparator

end Bytecode
