import Bytecode.Basic
import Bytecode.Opcode

set_option autoImplicit false

/-!
# Faults

What can go wrong while a program is built or run, one constructor per cause.
`Fault.category` groups the causes; `Fault.message` is the one place where they are
put into words.
-/

namespace Bytecode

/-- What an opcode requires of its operand. -/
inductive Expectation where
  | name
  | namePair
  | comparator
  | integer
  | jumpTarget
deriving DecidableEq, Repr, Inhabited

/-- Why a sink refuses. -/
inductive SinkFault where
  /-- It holds as many bytes as it can. -/
  | full
  /-- What it holds cannot be handed on. -/
  | unflushable
deriving DecidableEq, Repr, Inhabited

/-- The cause of a failure. -/
inductive Fault where
  /-- An opcode that is no jump was asked for its target. -/
  | noJumpTarget (opcode : Opcode) (offset : UInt32)
  | unexpectedOperand (opcode : Opcode) (offset : UInt32) (expected : Expectation)
  | tooFewLocals (code : String) (parameters locals : Nat)
  | offsetsNotIncreasing (drop : OffsetDrop)
  | unresolvedJump (opcode : Opcode) (offset : UInt32) (target : Int64)
  | nameNotFound (name : String)
  | stackUnderflow (opcode : Opcode) (offset : UInt32) (needed depth : Nat)
  | unsupportedOpcode (name : String)
  | unsupportedOperator (symbol : String) (left right : Kind)
  /-- A function was to be made with defaults, a closure or annotations. -/
  | functionFlags (flags : UInt32) (offset : UInt32)
  | notIterable (kind : Kind)
  | notIterator (kind : Kind)
  | notCallable (kind : Kind)
  | notCode (kind : Kind)
  | wrongArgumentCount (function : String) (parameters given : Nat)
  | wrongBuiltinArgumentCount (builtin : Builtin) (given : Nat)
  | rangeOfNonInteger (kind : Kind)
  | noLength (kind : Kind)
  /-- The quoted text is no integer. -/
  | notAnInteger (quoted : String)
  | noInteger (kind : Kind)
  | noAbsoluteValue (kind : Kind)
  | overflow (operator : Operator)
  | repeatTooLarge
  | rangeStepZero
  | lengthTooLarge
  | floatTooLarge (text : String)
  | absoluteValueOverflow
  | callDepthExceeded (limit : Nat)
  | callDepthOutOfBounds (least most given : Nat)
  | output (cause : SinkFault)
deriving DecidableEq, Repr, Inhabited

/-- The groups of faults that diagnostics tell apart. -/
inductive Category where
  | malformedProgram
  | unresolvedJumpTarget
  | nameNotFound
  | stackUnderflow
  | unsupportedOpcode
  | unsupportedOperator
  | unsupportedFeature
  | typeError
  | arithmeticError
  | recursionLimit
  | invalidConfig
  | output
deriving DecidableEq, Repr, Inhabited

/-- The name of the group in diagnostics. -/
def Category.name : Category → String
  | malformedProgram => "MalformedProgram"
  | unresolvedJumpTarget => "UnresolvedJumpTarget"
  | nameNotFound => "NameNotFound"
  | stackUnderflow => "StackUnderflow"
  | unsupportedOpcode => "UnsupportedOpcode"
  | unsupportedOperator => "UnsupportedOperator"
  | unsupportedFeature => "UnsupportedFeature"
  | typeError => "TypeError"
  | arithmeticError => "ArithmeticError"
  | recursionLimit => "RecursionLimit"
  | invalidConfig => "InvalidConfig"
  | output => "Output"

/-- What the operand was to be, in words. -/
def Expectation.phrase : Expectation → String
  | name => "a name operand"
  | namePair => "a pair of names"
  | comparator => "a comparator operand"
  | integer => "an integer operand"
  | jumpTarget => "a jump target offset"

/-- The refusal in words. -/
def SinkFault.phrase : SinkFault → String
  | full => "sink full"
  | unflushable => "flush failed"

/-- The permitted numbers of arguments, in words. -/
def Builtin.arityPhrase (b : Builtin) : String :=
  match b.arity with
  | (least, some most) =>
    if least = most then toString least else toString least ++ " to " ++ toString most
  | (least, none) => toString least ++ " or more"

namespace Fault

def category : Fault → Category
  | noJumpTarget .. | unexpectedOperand .. | tooFewLocals .. | offsetsNotIncreasing .. =>
    .malformedProgram
  | unresolvedJump .. => .unresolvedJumpTarget
  | nameNotFound .. => .nameNotFound
  | stackUnderflow .. => .stackUnderflow
  | unsupportedOpcode .. => .unsupportedOpcode
  | unsupportedOperator .. => .unsupportedOperator
  | functionFlags .. => .unsupportedFeature
  | notIterable .. | notIterator .. | notCallable .. | notCode .. | wrongArgumentCount ..
  | wrongBuiltinArgumentCount .. | rangeOfNonInteger .. | noLength .. | notAnInteger ..
  | noInteger .. | noAbsoluteValue .. => .typeError
  | overflow .. | repeatTooLarge | rangeStepZero | lengthTooLarge | floatTooLarge ..
  | absoluteValueOverflow => .arithmeticError
  | callDepthExceeded .. => .recursionLimit
  | callDepthOutOfBounds .. => .invalidConfig
  | output .. => .output

/-- The words that begin the messages of a category. -/
def opening : Category → String
  | .malformedProgram => "malformed program: "
  | .unresolvedJumpTarget => "unresolved jump target: "
  | .nameNotFound => ""
  | .stackUnderflow => "stack underflow: "
  | .unsupportedOpcode => "unsupported opcode: "
  | .unsupportedOperator => "unsupported operator "
  | .unsupportedFeature => "unsupported feature: "
  | .typeError => "type error: "
  | .arithmeticError => "arithmetic error: "
  | .recursionLimit => ""
  | .invalidConfig => "invalid engine configuration: "
  | .output => "failed to write program output: "

/-- An opcode and the offset it stands at. -/
def place (opcode : Opcode) (offset : UInt32) : String :=
  opcode.name ++ " at offset " ++ toString offset.toNat

/-- Lower-case hexadecimal digits. -/
def hexadecimal (n : Nat) : String :=
  "0x" ++ String.ofList (Nat.toDigits 16 n)

/-- What a message says after its opening. -/
def detail : Fault → String
  | noJumpTarget opcode offset => place opcode offset ++ " has no jump target"
  | unexpectedOperand opcode offset expected =>
    place opcode offset ++ " expects " ++ expected.phrase
  | tooFewLocals code parameters locals =>
    "code object " ++ code ++ " declares " ++ toString parameters ++ " parameters but only " ++
      toString locals ++ " local names"
  | offsetsNotIncreasing drop =>
    "instruction offsets must be strictly increasing: " ++ toString drop.offset.toNat ++
      " follows " ++ toString drop.previous.toNat
  | unresolvedJump opcode offset target =>
    place opcode offset ++ " jumps to offset " ++ toString target.toInt
  | nameNotFound name => "name '" ++ name ++ "' is not defined"
  | stackUnderflow opcode offset needed depth =>
    place opcode offset ++ " needs " ++ toString needed ++ " value(s), stack holds " ++
      toString depth
  | unsupportedOpcode name => name
  | unsupportedOperator symbol left right =>
    "'" ++ symbol ++ "' for operands of type '" ++ left.name ++ "' and '" ++ right.name ++ "'"
  | functionFlags flags offset =>
    Opcode.makeFunction.name ++ " with flags " ++ hexadecimal flags.toNat ++ " at offset " ++
      toString offset.toNat
  | notIterable kind => "'" ++ kind.name ++ "' object is not iterable"
  | notIterator kind =>
    Opcode.forIter.name ++ " expects an iterator, found '" ++ kind.name ++ "'"
  | notCallable kind => "'" ++ kind.name ++ "' object is not callable"
  | notCode kind =>
    Opcode.makeFunction.name ++ " expects a code object, found '" ++ kind.name ++ "'"
  | wrongArgumentCount function parameters given =>
    function ++ "() takes " ++ toString parameters ++ " positional arguments but " ++
      toString given ++ " were given"
  | wrongBuiltinArgumentCount builtin given =>
    builtin.name ++ "() takes " ++ builtin.arityPhrase ++ " argument(s) but " ++
      toString given ++ " were given"
  | rangeOfNonInteger kind => "range() expected an integer, got '" ++ kind.name ++ "'"
  | noLength kind => "object of type '" ++ kind.name ++ "' has no len()"
  | notAnInteger quoted => "invalid literal for int() with base 10: " ++ quoted
  | noInteger kind =>
    "int() argument must be a string or a number, not '" ++ kind.name ++ "'"
  | noAbsoluteValue kind => "bad operand type for abs(): '" ++ kind.name ++ "'"
  | overflow operator => "integer overflow in " ++ operator.action
  | repeatTooLarge => "repeat count too large"
  | rangeStepZero => "range() arg 3 must not be zero"
  | lengthTooLarge => "len() result does not fit in an int"
  | floatTooLarge text => "cannot convert float " ++ text ++ " to integer"
  | absoluteValueOverflow => "integer overflow in abs()"
  | callDepthExceeded limit => "maximum call depth of " ++ toString limit ++ " exceeded"
  | callDepthOutOfBounds least most given =>
    "max call depth must be between " ++ toString least ++ " and " ++ toString most ++
      ", got " ++ toString given
  | output cause => cause.phrase

/-- The fault in words. -/
def message (fault : Fault) : String :=
  opening fault.category ++ fault.detail

example :
    (stackUnderflow .popTop 12 1 0).message =
      "stack underflow: POP_TOP at offset 12 needs 1 value(s), stack holds 0" := by
  decide +kernel

end Fault

/-! ## Faults in stateful computations -/

/-- A computation without state, as one that leaves any state alone. -/
def ofExcept {σ α : Type} (result : Except Fault α) : EStateM Fault σ α := fun s =>
  match result with
  | .ok a => .ok a s
  | .error fault => .error fault s

instance {σ : Type} : MonadLift (Except Fault) (EStateM Fault σ) := ⟨ofExcept⟩

end Bytecode
