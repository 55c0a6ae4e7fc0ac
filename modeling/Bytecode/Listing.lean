import Bytecode.Code
import Bytecode.Json.Reader

set_option autoImplicit false

/-!
# Listings

A listing describes a code object by records, one an instruction, that name opcodes and hold
literals; a literal may be a listing again.  `Listing.build` makes the code object, or finds the
first fault in the order of the document: a record is checked for its opcode and then for what its
literal contains, and when all records are fine the parameters of the code object are, and at last
its offsets.

In JSON a listing and its records are objects with known keys, or arrays of the same parts in order.
Unknown keys are ignored; a known key must not appear twice.

A document nests arrays and objects at most `nestingLimit` deep.  An operand is held in memory as a
whole before it is decoded, so everything in it counts, also what is ignored; what is ignored
outside of operands does not.  Decoding spends one unit of the limit on each array and object it
goes into.

To load a program its text is read, decoded and built.  What is wrong with the form of the document
is found before anything that is wrong with the program in it.
-/

namespace Bytecode

/-! ## Listings and what they describe -/

mutual

/-- The description of a code object. -/
structure Listing where
  name : String
  argcount : Nat
  varnames : List String
  records : List Record

/-- The description of an instruction. -/
structure Record where
  offset : UInt32
  opname : String
  arg : Option UInt32
  argval : Option Literal

/-- The operand of a record. -/
inductive Literal where
  | none
  | bool (b : Bool)
  | int (n : Int64)
  | float (x : Float)
  | str (text : String)
  | tuple (items : List Literal)
  | code (listing : Listing)

end

mutual

/-- The code object that a listing describes. -/
def Listing.build : Listing → Except Fault Code
  | ⟨name, argcount, varnames, records⟩ => do
    let instructions ← Record.buildAll records
    Code.ofInstructions name argcount varnames instructions
termination_by structural l => l

/-- The instruction that a record describes. -/
def Record.build : Record → Except Fault Instruction
  | ⟨offset, opname, arg, argval⟩ =>
    match Opcode.ofName? opname with
    | Option.none => .error (.unsupportedOpcode opname)
    | some opcode => do
      let argval ← Literal.buildOption argval
      return ⟨offset, opcode, arg, argval⟩
termination_by structural r => r

def Record.buildAll : List Record → Except Fault (List Instruction)
  | [] => .ok []
  | r :: rest => do
    let i ← Record.build r
    let is ← Record.buildAll rest
    return i :: is
termination_by structural rs => rs

/-- The value that a literal describes. -/
def Literal.build : Literal → Except Fault Value
  | .none => .ok .none
  | .bool b => .ok (.bool b)
  | .int n => .ok (.int n)
  | .float x => .ok (.float x)
  | .str text => .ok (.str text)
  | .tuple items => do
    let vs ← Literal.buildAll items
    return .tuple vs
  | .code listing => do
    let c ← Listing.build listing
    return .code c
termination_by structural l => l

def Literal.buildAll : List Literal → Except Fault (List Value)
  | [] => .ok []
  | l :: rest => do
    let v ← Literal.build l
    let vs ← Literal.buildAll rest
    return v :: vs
termination_by structural ls => ls

def Literal.buildOption : Option Literal → Except Fault (Option Value)
  | Option.none => .ok Option.none
  | some l => do
    let v ← Literal.build l
    return some v
termination_by structural l => l

end

/-! ## Listings in JSON -/

/-- How deep arrays and objects nest at most. -/
def nestingLimit : Nat := 127

/-- The parts of a listing. -/
structure Listing.Parts where
  name : Option Json
  argcount : Option Json
  varnames : Option Json
  instructions : Json

/-- The parts by key or, all of them, by position. -/
def Listing.parts? : Json → Option Listing.Parts
  | .obj members =>
    if Json.keysValid members then do
      let name ← Json.member? "name" members
      let argcount ← Json.member? "argcount" members
      let varnames ← Json.member? "varnames" members
      let instructions ← Json.member? "instructions" members
      return ⟨name, argcount, varnames, ← instructions⟩
    else none
  | .arr [name, argcount, varnames, instructions] =>
    some ⟨some name, some argcount, some varnames, instructions⟩
  | _ => none

/-- The parts of a record. -/
structure Record.Parts where
  offset : Json
  opname : Json
  arg : Option Json
  argval : Option Json

/-- The parts by key, or by position, where the last two may be left out. -/
def Record.parts? : Json → Option Record.Parts
  | .obj members =>
    if Json.keysValid members then do
      let offset ← Json.member? "offset" members
      let opname ← Json.member? "opname" members
      let arg ← Json.member? "arg" members
      let argval ← Json.member? "argval" members
      return ⟨← offset, ← opname, arg, argval⟩
    else none
  | .arr [offset, opname] => some ⟨offset, opname, none, none⟩
  | .arr [offset, opname, arg] => some ⟨offset, opname, some arg, none⟩
  | .arr [offset, opname, arg, argval] => some ⟨offset, opname, some arg, some argval⟩
  | _ => none

/-- A part that may be absent, with the value that it has then. -/
def optionalPart {α : Type} (absent : α) (decode? : Json → Option α) : Option Json → Option α
  | none => some absent
  | some j => decode? j

/-- A part that may be absent or `null`. -/
def nullablePart {α : Type} (decode? : Json → Option α) (j : Option Json) : Option (Option α) :=
  match Json.nonNull j with
  | none => some none
  | some j => (decode? j).map some

/-- A 32-bit word. -/
def Json.word? (j : Json) : Option UInt32 :=
  (j.natBelow? UInt32.size).map UInt32.ofNat

/-- An integer if the number is written as one and fits, and otherwise a float. -/
def Literal.ofNumeral? (n : Numeral) : Option Literal :=
  match n.toInt64? with
  | some i => some (.int i)
  | Option.none => n.toFloat?.map .float

/-! ## Decoding -/

mutual

def Listing.decode? : Nat → Json → Option Listing
  | 0, _ => none
  | depth + 1, j => do
    let parts ← Listing.parts? j
    let name ← optionalPart Code.moduleName Json.text? parts.name
    let argcount ← optionalPart 0 (Json.natBelow? UInt64.size) parts.argcount
    let varnames ← optionalPart [] Json.texts? parts.varnames
    let records ← Record.decodeAll? depth parts.instructions
    return ⟨name, argcount, varnames, records⟩
termination_by structural depth => depth

def Record.decodeAll? : Nat → Json → Option (List Record)
  | depth + 1, .arr items => items.mapM fun j => Record.decode? depth j
  | _, _ => none
termination_by structural depth => depth

def Record.decode? : Nat → Json → Option Record
  | 0, _ => none
  | depth + 1, j => do
    let parts ← Record.parts? j
    let offset ← Json.word? parts.offset
    let opname ← Json.text? parts.opname
    let arg ← nullablePart Json.word? parts.arg
    let argval ← nullablePart
      (fun j => if j.isSound depth then Literal.decode? depth j else none) parts.argval
    return ⟨offset, opname, arg, argval⟩
termination_by structural depth => depth

def Literal.decode? : Nat → Json → Option Literal
  | _, .null => some .none
  | _, .bool b => some (.bool b)
  | _, .num n => Literal.ofNumeral? n
  | _, .str text => text.map .str
  | depth + 1, .arr items => do
    let literals ← items.mapM fun j => Literal.decode? depth j
    return .tuple literals
  | depth + 1, .obj members => do
    let code ← Json.member? "code" members
    let listing ← Listing.decode? depth (← code)
    return .code listing
  | 0, _ => Option.none
termination_by structural depth => depth

end

/-! ## Loading -/

/-- Why a text is not the listing of a program. -/
inductive LoadFault where
  /-- It is not JSON, or not of the form of a listing. -/
  | unreadable
  /-- The listing describes no program. -/
  | unbuildable (fault : Fault)
deriving DecidableEq, Repr, Inhabited

namespace LoadFault

/-- The group of the fault in diagnostics. -/
def categoryName : LoadFault → String
  | unreadable => "Load"
  | unbuildable fault => fault.category.name

def message : LoadFault → String
  | unreadable => "Failed to parse instruction listing"
  | unbuildable fault =>
    "Failed to build program from instruction listing: " ++ fault.message

end LoadFault

/-- The code object that a document describes. -/
def Code.ofJson (document : Json) : Except LoadFault Code :=
  match Listing.decode? nestingLimit document with
  | some listing => listing.build.mapError .unbuildable
  | none => .error .unreadable

/-- The code object that a text describes. -/
def Code.load (text : String) : Except LoadFault Code :=
  match Json.read? text with
  | some document => Code.ofJson document
  | none => .error .unreadable

end Bytecode
