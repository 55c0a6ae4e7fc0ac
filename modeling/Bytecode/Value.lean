import Bytecode.Decimal
import Bytecode.Fault
import Bytecode.Text

set_option autoImplicit false

/-!
# Values and code

Values, the cursors that iterate over them, and code objects are defined together: a code object is
a value, and its instructions carry values as operands.

`Value.iterate` puts a cursor before the first element of a value, and `Cursor.advance` steps over
one element.  A cursor that has come to the end stays there.

`Value.repr` is the form shown inside containers and diagnostics, in which strings are quoted;
`Value.text` is the form that is printed, in which a string stands for itself.
-/

namespace Bytecode

/-! ## Values -/

mutual

/-- What the operand stack and the environments hold. -/
inductive Value where
  | none
  /-- The marker beside a callee; it is not `none`, and no program computes it. -/
  | null
  | bool (b : Bool)
  | int (n : Int64)
  | float (x : Float)
  | str (text : String)
  | tuple (items : List Value)
  | range (r : Range)
  | builtin (b : Builtin)
  /-- Code that no function has been made of yet. -/
  | code (c : Code)
  | function (c : Code)
  | iterator (c : Cursor)

/-- How far an iteration has come. -/
inductive Cursor where
  /-- At the number `next` of a progression. -/
  | range (next stop step : Int64)
  /-- Before the item at an index. -/
  | items (items : List Value) (pos : Nat)
  /-- Before the character that starts at a byte of the text. -/
  | chars (text : String) (pos : Nat)

/-- A sequence of instructions with what is needed to call it and to jump in it. -/
structure Code where
  name : String
  /-- The number of parameters. -/
  argcount : Nat
  /-- Local names, of which the parameters come first. -/
  varnames : List String
  instructions : List Instruction
  index : OffsetIndex

/-- One operation with its operands. -/
structure Instruction where
  /-- The unit in which jump targets are expressed. -/
  offset : UInt32
  opcode : Opcode
  /-- The raw operand. -/
  arg : Option UInt32
  /-- The decoded operand: a literal, a name, a comparator or a target offset. -/
  argval : Option Value

end

instance : Inhabited Value := ⟨.none⟩

namespace Value

def kind : Value → Kind
  | none => .none
  | null => .null
  | bool _ => .bool
  | int _ => .int
  | float _ => .float
  | str _ => .str
  | tuple _ => .tuple
  | range _ => .range
  | builtin _ => .builtin
  | code _ => .code
  | function _ => .function
  | iterator _ => .iterator

/-- Whether the value is the marker beside a callee. -/
def isNull : Value → Bool
  | null => true
  | _ => false

/-- What a conditional jump takes the value for. -/
def isTruthy : Value → Bool
  | none | null => false
  | bool b => b
  | int n => n != 0
  | float x => x != 0
  | str text => !text.isEmpty
  | tuple items => !items.isEmpty
  | range r => !r.isEmpty
  | builtin _ | code _ | function _ | iterator _ => true

theorem isNull_iff {v : Value} : v.isNull = true ↔ v = null := by
  cases v <;> simp [isNull]

end Value

/-! ## Iteration -/

namespace Cursor

/-- The number that follows `current` in a progression.  Where it would leave the 64-bit
integers the progression is over, which `stop` marks. -/
def successor (current stop step : Int64) : Int64 :=
  (Text.toInt64? (current.toInt + step.toInt)).getD stop

/-- Whether `next` lies strictly before `stop` in the direction of `step`. -/
def isBefore (next stop step : Int64) : Bool :=
  (0 < step && next < stop) || (step < 0 && stop < next)

/-- The next element with the cursor behind it, or nothing at the end. -/
def advance : Cursor → Option (Value × Cursor)
  | range next stop step =>
    if isBefore next stop step then
      some (.int next, .range (successor next stop step) stop step)
    else none
  | items list pos => (list[pos]?).map fun item => (item, .items list (pos + 1))
  | chars text pos =>
    (String.Pos.Raw.get? text ⟨pos⟩).map fun c =>
      (.str (String.singleton c), .chars text (pos + c.utf8Size))

/-- No fewer than the elements that are left. -/
def bound : Cursor → Nat
  | .range next stop step => (Range.mk next stop step).length
  | .items list pos => list.length - pos
  | .chars text pos => text.utf8ByteSize - pos

end Cursor

/-- A cursor before the first element of the value; a cursor iterates over what is left. -/
def Value.iterate : Value → Except Fault Cursor
  | .range r => .ok (.range r.start r.stop r.step)
  | .tuple items => .ok (.items items 0)
  | .str text => .ok (.chars text 0)
  | .iterator c => .ok c
  | v => .error (.notIterable v.kind)

/-! ## Text -/

/-- Floats are positional from `1e-4` up to below `1e16`, and exponents have two digits. -/
def Value.floatNotation : Decimal.Notation := ⟨-4, 16, 2⟩

/-- The digits of an integer, after a minus sign if it is negative. -/
def Value.intText (n : Int64) : String :=
  toString n.toInt

/-- The step is left out when it is one. -/
def Value.rangeText (r : Range) : String :=
  let bounds := "range(" ++ intText r.start ++ ", " ++ intText r.stop
  if r.step = 1 then bounds ++ ")" else bounds ++ ", " ++ intText r.step ++ ")"

/-- Parentheses around the items, with a comma after a single one. -/
def Value.tupleText (items : List String) : String :=
  "(" ++ String.intercalate ", " items ++ (if items.length = 1 then "," else "") ++ ")"

mutual

/-- The form inside containers and diagnostics. -/
def Value.repr : Value → String
  | .none => "None"
  | .null => "<NULL>"
  | .bool b => if b then "True" else "False"
  | .int n => Value.intText n
  | .float x => Value.floatNotation.text x
  | .str text => Text.quote text
  | .tuple items => Value.tupleText (Value.reprs items)
  | .range r => Value.rangeText r
  | .builtin b => "<built-in function " ++ b.name ++ ">"
  | .code c => "<code object " ++ c.name ++ ">"
  | .function c => "<function " ++ c.name ++ ">"
  | .iterator _ => "<iterator>"

def Value.reprs : List Value → List String
  | [] => []
  | v :: rest => v.repr :: Value.reprs rest

end

/-- The printed form. -/
def Value.text : Value → String
  | .str text => text
  | v => v.repr

example : (Value.tuple [.int 1]).repr = "(1,)" := by decide +kernel

example : (Value.tuple [.bool true, .str "it's"]).repr = "(True, 'it\\'s')" := by decide +kernel

end Bytecode
