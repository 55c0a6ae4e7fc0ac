set_option autoImplicit false

/-!
# Opcodes and operators

The operations a machine can carry out, one constructor per family.  Listings of different ages
spell one operation in several ways; `Opcode.aliases` holds the other spellings of a family, and
`Opcode.ofName?` reads any of them.

A binary operator is selected by a number; the numbers 13 to 25 select the in-place forms of 0
to 12.  Three of the operators are carried out; the symbols of the others are known for diagnostics
only.  A comparator is selected by its symbol.

Main statement: `Opcode.ofName?_name`, the canonical name of a family is read back as that family.
-/

namespace Bytecode

/-! ## Opcodes -/

/-- The operation of an instruction. -/
inductive Opcode where
  /-- No effect: fillers and place holders. -/
  | nop
  /-- Push the marker that stands beside a callee. -/
  | pushNull
  | loadConst
  | loadName
  | loadGlobal
  | loadFast
  /-- Push two locals, named by a pair of names. -/
  | loadFastPair
  | storeName
  | storeGlobal
  | storeFast
  | binaryAdd
  /-- Apply the binary operator that the raw operand selects. -/
  | binaryOp
  | compareOp
  | getIter
  | forIter
  /-- Loop epilogue; an exhausted `forIter` steps over it. -/
  | endFor
  | jump
  | popJumpIfFalse
  | popJumpIfTrue
  | call
  | makeFunction
  | popTop
  | returnValue
  | returnConst
deriving DecidableEq, Repr, Inhabited

namespace Opcode

/-- Every family, in the order of their declaration. -/
def all : List Opcode :=
  [nop, pushNull, loadConst, loadName, loadGlobal, loadFast, loadFastPair, storeName,
    storeGlobal, storeFast, binaryAdd, binaryOp, compareOp, getIter, forIter, endFor, jump,
    popJumpIfFalse, popJumpIfTrue, call, makeFunction, popTop, returnValue, returnConst]

/-- The canonical name, which diagnostics show. -/
def name : Opcode → String
  | nop => "NOP"
  | pushNull => "PUSH_NULL"
  | loadConst => "LOAD_CONST"
  | loadName => "LOAD_NAME"
  | loadGlobal => "LOAD_GLOBAL"
  | loadFast => "LOAD_FAST"
  | loadFastPair => "LOAD_FAST_LOAD_FAST"
  | storeName => "STORE_NAME"
  | storeGlobal => "STORE_GLOBAL"
  | storeFast => "STORE_FAST"
  | binaryAdd => "BINARY_ADD"
  | binaryOp => "BINARY_OP"
  | compareOp => "COMPARE_OP"
  | getIter => "GET_ITER"
  | forIter => "FOR_ITER"
  | endFor => "END_FOR"
  | jump => "JUMP"
  | popJumpIfFalse => "POP_JUMP_IF_FALSE"
  | popJumpIfTrue => "POP_JUMP_IF_TRUE"
  | call => "CALL"
  | makeFunction => "MAKE_FUNCTION"
  | popTop => "POP_TOP"
  | returnValue => "RETURN_VALUE"
  | returnConst => "RETURN_CONST"

/-- The other names a listing may use for the family. -/
def aliases : Opcode → List String
  | nop => ["RESUME", "RESUME_QUICK", "CACHE", "PRECALL", "EXTENDED_ARG", "NOT_TAKEN"]
  | loadConst => ["LOAD_SMALL_INT"]
  | loadFast => ["LOAD_FAST_CHECK", "LOAD_FAST_BORROW"]
  | loadFastPair => ["LOAD_FAST_BORROW_LOAD_FAST_BORROW"]
  | binaryAdd => ["INPLACE_ADD"]
  | jump => ["JUMP_FORWARD", "JUMP_BACKWARD", "JUMP_BACKWARD_NO_INTERRUPT", "JUMP_ABSOLUTE"]
  | popJumpIfFalse => ["POP_JUMP_FORWARD_IF_FALSE", "POP_JUMP_BACKWARD_IF_FALSE"]
  | popJumpIfTrue => ["POP_JUMP_FORWARD_IF_TRUE", "POP_JUMP_BACKWARD_IF_TRUE"]
  | call => ["CALL_FUNCTION"]
  | _ => []

/-- Every name of the family, the canonical one first. -/
def spellings (op : Opcode) : List String :=
  op.name :: op.aliases

/-- The family that a listing names, if there is one. -/
def ofName? (text : String) : Option Opcode :=
  all.find? fun op => op.spellings.contains text

/-- Whether the operand is the offset of an instruction to go to. -/
def isJump : Opcode → Bool
  | forIter | jump | popJumpIfFalse | popJumpIfTrue => true
  | _ => false

theorem mem_all (op : Opcode) : op ∈ all := by
  cases op <;> decide

theorem ofName?_name (op : Opcode) : ofName? op.name = some op := by
  cases op <;> decide

/-- A name is read as a family exactly when it is one of that family's spellings. -/
theorem mem_spellings_of_ofName? {text : String} {op : Opcode} (h : ofName? text = some op) :
    text ∈ op.spellings := by
  have := List.find?_some h
  simpa using this

end Opcode

/-! ## Operators -/

/-- A binary operator that can be carried out. -/
inductive Operator where
  | add
  | subtract
  | multiply
deriving DecidableEq, Repr, Inhabited

namespace Operator

def symbol : Operator → String
  | add => "+"
  | subtract => "-"
  | multiply => "*"

/-- The noun for the operation in diagnostics. -/
def action : Operator → String
  | add => "addition"
  | subtract => "subtraction"
  | multiply => "multiplication"

/-- The symbols of all operator numbers, in-place forms from 13 on. -/
def symbols : List String :=
  ["+", "&", "//", "<<", "@", "*", "%", "|", "**", ">>", "-", "/", "^",
    "+=", "&=", "//=", "<<=", "@=", "*=", "%=", "|=", "**=", ">>=", "-=", "/=", "^="]

/-- The number of the plain form of an operator. -/
def plainSelector (selector : Nat) : Nat :=
  if 13 ≤ selector ∧ selector < 26 then selector - 13 else selector

/-- What a number without an operator is called in diagnostics. -/
def unknownSymbol (selector : Nat) : String :=
  symbols.getD selector ("binary operator #" ++ toString selector)

/-- The operator a number selects, or else the symbol of what is not carried out. -/
def ofSelector (selector : Nat) : Except String Operator :=
  match plainSelector selector with
  | 0 => .ok add
  | 5 => .ok multiply
  | 10 => .ok subtract
  | _ => .error (unknownSymbol selector)

end Operator

/-! ## Comparators -/

/-- An equality or order test. -/
inductive Comparator where
  | lt
  | le
  | eq
  | ne
  | gt
  | ge
deriving DecidableEq, Repr, Inhabited

namespace Comparator

def all : List Comparator :=
  [lt, le, eq, ne, gt, ge]

def symbol : Comparator → String
  | lt => "<"
  | le => "<="
  | eq => "=="
  | ne => "!="
  | gt => ">"
  | ge => ">="

/-- The form a listing uses when the result is coerced to a boolean. -/
def coercedSymbol (c : Comparator) : String :=
  "bool(" ++ c.symbol ++ ")"

/-- The comparator with this symbol, bare or coerced. -/
def ofSymbol? (text : String) : Option Comparator :=
  all.find? fun c => text == c.symbol || text == c.coercedSymbol

end Comparator

end Bytecode
