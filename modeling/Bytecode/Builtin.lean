import Bytecode.Engine
import Bytecode.Operator.Apply

set_option autoImplicit false

/-!
# Calling builtin functions

`Builtin.result` is the value of a call and `Builtin.written` what the call writes; `Builtin.call`
does both.  Only `print` writes anything.
-/

namespace Bytecode

/-! ## Sums -/

/-- Adds at most `limit` elements to a total. -/
def Cursor.addUpTo : Nat → Cursor → Value → Except Fault Value
  | 0, _, total => .ok total
  | limit + 1, c, total =>
    match c.advance with
    | none => .ok total
    | some (item, rest) =>
      match Operator.add.apply total item with
      | .ok sum => addUpTo limit rest sum
      | .error fault => .error fault

/-- Adds all elements that are left to a total, one after the other. -/
def Cursor.addTo (c : Cursor) (total : Value) : Except Fault Value :=
  c.addUpTo c.bound total

namespace Builtin

/-! ## Results -/

/-- The value as a bound or step of a range. -/
def rangeArgument : Value → Except Fault Int64
  | .int n => .ok n
  | .bool b => .ok (boolToInt b)
  | v => .error (.rangeOfNonInteger v.kind)

def rangeResult (start stop step : Int64) : Except Fault Value :=
  if step = 0 then .error .rangeStepZero else .ok (.range ⟨start, stop, step⟩)

/-- The number of elements, if the value has one. -/
def length? : Value → Option Nat
  | .str text => some text.length
  | .tuple items => some items.length
  | .range r => some r.length
  | _ => none

def lenResult (v : Value) : Except Fault Value :=
  match length? v with
  | none => .error (.noLength v.kind)
  | some n =>
    match Text.toInt64? n with
    | some i => .ok (.int i)
    | none => .error .lengthTooLarge

/-- Integers made of floats are smaller than this in magnitude. -/
def floatBound : Nat := 9200000000000000000

/-- The integer part of a float that is not too large. -/
def truncate? (x : Float) : Option Int64 :=
  if x.isNaN || x.isInf then none
  else
    let n := (Decimal.Dyadic.ofFloat x).truncate
    if n.natAbs < floatBound then some (Int64.ofInt n) else none

/-- The integer a text stands for, with blanks around it. -/
def parseInt? (text : String) : Option Int64 :=
  (Text.readSigned? (Text.trim text.toList)).bind Text.toInt64?

def intResult (v : Value) : Except Fault Value :=
  match v with
  | .int n => .ok (.int n)
  | .bool b => .ok (.int (boolToInt b))
  | .float x =>
    match truncate? x with
    | some n => .ok (.int n)
    | none => .error (.floatTooLarge v.repr)
  | .str text =>
    match parseInt? text with
    | some n => .ok (.int n)
    | none => .error (.notAnInteger v.repr)
  | _ => .error (.noInteger v.kind)

def absResult : Value → Except Fault Value
  | .int n =>
    match Text.toInt64? n.toInt.natAbs with
    | some m => .ok (.int m)
    | none => .error .absoluteValueOverflow
  | .bool b => .ok (.int (boolToInt b))
  | .float x => .ok (.float x.abs)
  | v => .error (.noAbsoluteValue v.kind)

def sumResult (v start : Value) : Except Fault Value := do
  let c ← v.iterate
  c.addTo start

/-- The value of a call; a number of arguments that the function does not take is a fault. -/
def result : Builtin → List Value → Except Fault Value
  | print, _ => .ok .none
  | range, [stop] => do rangeResult 0 (← rangeArgument stop) 1
  | range, [start, stop] => do
    rangeResult (← rangeArgument start) (← rangeArgument stop) 1
  | range, [start, stop, step] => do
    rangeResult (← rangeArgument start) (← rangeArgument stop) (← rangeArgument step)
  | len, [v] => lenResult v
  | str, [] => .ok (.str "")
  | str, [v] => .ok (.str v.text)
  | int, [] => .ok (.int 0)
  | int, [v] => intResult v
  | abs, [v] => absResult v
  | sum, [v] => sumResult v (.int 0)
  | sum, [v, start] => sumResult v start
  | b, args => .error (.wrongBuiltinArgumentCount b args.length)

/-! ## Calls -/

/-- The printed forms with blanks between them, on a line. -/
def printedLine (args : List Value) : String :=
  String.intercalate " " (args.map Value.text) ++ "\n"

/-- The bytes a call writes. -/
def written : Builtin → List Value → List UInt8
  | print, args => utf8Bytes (printedLine args)
  | _, _ => []

/-- Writes what the call writes and gives its value. -/
def call (b : Builtin) (args : List Value) : EStateM Fault Sink Value := do
  Sink.write (b.written args)
  b.result args

/-- The sink takes what the call writes before the value of the call counts. -/
theorem call_eq (b : Builtin) (args : List Value) (sink : Sink) :
    b.call args sink =
      if sink.accepted (b.written args).length < (b.written args).length then
        .error (.output .full) (sink.append (b.written args))
      else ofExcept (b.result args) (sink.append (b.written args)) := by
  simp only [call, bind, EStateM.bind, Sink.write]
  by_cases h : sink.accepted (b.written args).length < (b.written args).length
  · simp only [if_pos h]
  · simp only [if_neg h]
    rfl

/-- A call that writes nothing leaves the sink as it was. -/
theorem call_of_written_eq_nil {b : Builtin} {args : List Value} (h : b.written args = [])
    (sink : Sink) : b.call args sink = ofExcept (b.result args) sink := by
  have hsink : sink.append [] = sink := by simp [Sink.append]
  rw [call_eq, h, List.length_nil, if_neg (Nat.not_lt_zero _), hsink]

end Builtin

end Bytecode
