import Bytecode.Value

set_option autoImplicit false

/-!
# Instructions and code objects

An instruction may lack the operand that its opcode needs, or carry one of the wrong form.  Each
accessor gives the operand in the form that some opcodes need, or the fault of not having it.

`Code.ofInstructions` is how a code object comes about: it has a name for every parameter, and its
index covers its instructions.  `Code.resolveJump` turns the offset that a jump names into a
position.

Main statements: `indexed_of_ofInstructions` and `argcount_le_of_ofInstructions` say what every code
object built this way satisfies.
-/

/-! ## Instructions -/

namespace Bytecode.Instruction

/-- An instruction without operands. -/
def bare (offset : UInt32) (opcode : Opcode) : Instruction :=
  ⟨offset, opcode, none, none⟩

/-- The fault of an operand that is not what it should be. -/
def unexpected (i : Instruction) (expected : Expectation) : Fault :=
  .unexpectedOperand i.opcode i.offset expected

/-- The literal that is carried; a missing one stands for `None`. -/
def constant (i : Instruction) : Value :=
  i.argval.getD .none

/-- The raw operand as a number. -/
def count (i : Instruction) : Except Fault Nat :=
  match i.arg with
  | some arg => .ok arg.toNat
  | none => .error (i.unexpected .integer)

/-- The operand as a name. -/
def name (i : Instruction) : Except Fault String :=
  match i.argval with
  | some (.str text) => .ok text
  | _ => .error (i.unexpected .name)

/-- The operand as a pair of names. -/
def namePair (i : Instruction) : Except Fault (String × String) :=
  match i.argval with
  | some (.tuple [.str first, .str second]) => .ok (first, second)
  | _ => .error (i.unexpected .namePair)

/-- The operand as the symbol of a comparator. -/
def symbol (i : Instruction) : Except Fault String :=
  match i.argval with
  | some (.str text) => .ok text
  | _ => .error (i.unexpected .comparator)

/-- The offset that a jump names. -/
def jumpTarget (i : Instruction) : Except Fault Int64 :=
  if i.opcode.isJump then
    match i.argval with
    | some (.int target) => .ok target
    | _ => .error (i.unexpected .jumpTarget)
  else .error (.noJumpTarget i.opcode i.offset)

/-- Blanks in front of a text that is shorter than `width`. -/
def alignRight (width : Nat) (text : String) : String :=
  String.ofList (List.replicate (width - text.length) ' ') ++ text

/-- Offset and opcode, with the operands that are present. -/
def text (i : Instruction) : String :=
  let arg := match i.arg with
    | some arg => " " ++ toString arg.toNat
    | none => ""
  let argval := match i.argval with
    | some v => " (" ++ v.repr ++ ")"
    | none => ""
  alignRight 6 (toString i.offset.toNat) ++ " " ++ i.opcode.name ++ arg ++ argval

end Bytecode.Instruction

/-! ## Code objects -/

namespace Bytecode.Code

/-- A code object of these instructions.  The parameters are the first of the local
names, so there have to be enough of those, and offsets have to increase strictly. -/
def ofInstructions (name : String) (argcount : Nat) (varnames : List String)
    (instructions : List Instruction) : Except Fault Code :=
  if varnames.length < argcount then .error (.tooFewLocals name argcount varnames.length)
  else
    match OffsetIndex.ofOffsets (instructions.map (·.offset)) with
    | .ok index => .ok ⟨name, argcount, varnames, instructions, index⟩
    | .error drop => .error (.offsetsNotIncreasing drop)

/-- The name of code that does not belong to a function. -/
def moduleName : String := "<module>"

/-- Code at the top level of a program. -/
def ofModule (instructions : List Instruction) : Except Fault Code :=
  ofInstructions moduleName 0 [] instructions

/-- The names that the arguments of a call are bound to. -/
def params (c : Code) : List String :=
  c.varnames.take c.argcount

/-- The offset as one that instructions can have. -/
def toOffset? (target : Int64) : Option UInt32 :=
  if 0 ≤ target.toInt ∧ target.toInt < UInt32.size then
    some (UInt32.ofNat target.toInt.toNat)
  else none

/-- The position of the instruction a jump goes to. -/
def resolveJump (c : Code) (i : Instruction) : Except Fault Nat := do
  let target ← i.jumpTarget
  match (toOffset? target).bind c.index.position? with
  | some position => return position
  | none => throw (.unresolvedJump i.opcode i.offset target)

theorem ofInstructions_eq_ok_iff {name : String} {argcount : Nat} {varnames : List String}
    {instructions : List Instruction} {c : Code} :
    ofInstructions name argcount varnames instructions = .ok c ↔
      argcount ≤ varnames.length ∧
        ∃ index, OffsetIndex.ofOffsets (instructions.map (·.offset)) = .ok index ∧
          c = ⟨name, argcount, varnames, instructions, index⟩ := by
  unfold ofInstructions
  split
  · next h => simp; omega
  · next h =>
    cases OffsetIndex.ofOffsets (instructions.map (·.offset)) with
    | error drop => simp
    | ok index =>
      have hle : argcount ≤ varnames.length := by omega
      simp [hle, eq_comm]

theorem argcount_le_of_ofInstructions {name : String} {argcount : Nat} {varnames : List String}
    {instructions : List Instruction} {c : Code}
    (h : ofInstructions name argcount varnames instructions = .ok c) :
    c.argcount ≤ c.varnames.length := by
  obtain ⟨hle, index, -, rfl⟩ := ofInstructions_eq_ok_iff.1 h
  exact hle

/-- The offsets increase strictly and the index covers them. -/
def Indexed (c : Code) : Prop :=
  OffsetIndex.ofOffsets (c.instructions.map (·.offset)) = .ok c.index

theorem indexed_of_ofInstructions {name : String} {argcount : Nat} {varnames : List String}
    {instructions : List Instruction} {c : Code}
    (h : ofInstructions name argcount varnames instructions = .ok c) : c.Indexed := by
  obtain ⟨-, index, hindex, rfl⟩ := ofInstructions_eq_ok_iff.1 h
  exact hindex

/-- The code object is the one that is built of its parts. -/
def Built (c : Code) : Prop :=
  ofInstructions c.name c.argcount c.varnames c.instructions = .ok c

theorem exists_position?_of_resolveJump {c : Code} {i : Instruction} {target : Nat}
    (h : c.resolveJump i = .ok target) : ∃ offset, c.index.position? offset = some target := by
  unfold resolveJump at h
  cases hjump : i.jumpTarget with
  | error fault =>
    rw [hjump] at h
    cases h
  | ok offset =>
    rw [hjump] at h
    cases hposition : (toOffset? offset).bind c.index.position? with
    | none =>
      simp only [bind, Except.bind, hposition] at h
      cases h
    | some position =>
      simp only [bind, Except.bind, hposition] at h
      cases h
      obtain ⟨offset', -, hoffset'⟩ := Option.bind_eq_some_iff.1 hposition
      exact ⟨offset', hoffset'⟩

/-- A jump that is resolved leads to one of the instructions. -/
theorem Indexed.lt_length_of_resolveJump {c : Code} {i : Instruction} {target : Nat}
    (h : c.Indexed) (hr : c.resolveJump i = .ok target) : target < c.instructions.length := by
  obtain ⟨offset, hoffset⟩ := exists_position?_of_resolveJump hr
  rw [← List.length_map (·.offset)]
  exact OffsetIndex.lt_length_of_position? h hoffset

end Bytecode.Code
