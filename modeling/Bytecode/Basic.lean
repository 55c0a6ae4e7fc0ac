set_option autoImplicit false

/-!
# What values and faults are made of

The kinds of values, the builtin functions, ranges, and the index of code by offsets.

The set of kinds is closed, and diagnostics name a value by its kind.  The builtin functions are the
fixed namespace that name lookups reach when the environment misses.  The number of elements of a
range is computed over unbounded integers, so it is exact for every choice of bounds and step.

Jumps name byte offsets; a machine moves by position in the sequence of instructions.  An index
holds the pairs `(offset, position)` in the order of the sequence.  `OffsetIndex.ofOffsets` builds
one from offsets that strictly increase and otherwise names the first adjacent pair that does not.
-/

namespace Bytecode

/-! ## Kinds -/

/-- What a value is. -/
inductive Kind where
  | none
  /-- The marker beside a callee. -/
  | null
  | bool
  | int
  | float
  | str
  | tuple
  | range
  | builtin
  | code
  | function
  | iterator
deriving DecidableEq, Repr, Inhabited

/-- The name of the kind in diagnostics. -/
def Kind.name : Kind → String
  | none => "NoneType"
  | null => "NULL"
  | bool => "bool"
  | int => "int"
  | float => "float"
  | str => "str"
  | tuple => "tuple"
  | range => "range"
  | builtin => "builtin_function_or_method"
  | code => "code"
  | function => "function"
  | iterator => "iterator"

/-! ## Builtin functions -/

/-- A function that the machine itself carries out. -/
inductive Builtin where
  | print
  | range
  | len
  | str
  | int
  | abs
  | sum
deriving DecidableEq, Repr, Inhabited

namespace Builtin

def all : List Builtin :=
  [print, range, len, str, int, abs, sum]

def name : Builtin → String
  | print => "print"
  | range => "range"
  | len => "len"
  | str => "str"
  | int => "int"
  | abs => "abs"
  | sum => "sum"

/-- The builtin function of that name. -/
def ofName? (text : String) : Option Builtin :=
  all.find? fun b => b.name == text

/-- The least and the greatest number of arguments; `print` takes any number. -/
def arity : Builtin → Nat × Option Nat
  | print => (0, none)
  | range => (1, some 3)
  | len => (1, some 1)
  | str => (0, some 1)
  | int => (0, some 1)
  | abs => (1, some 1)
  | sum => (1, some 2)

end Builtin

/-! ## Ranges -/

/-- The numbers from `start` on, `step` apart, strictly before `stop`. -/
structure Range where
  start : Int64
  stop : Int64
  step : Int64
deriving DecidableEq, Repr, Inhabited

namespace Range

/-- How many numbers lie in a progression; none when the step is zero. -/
def length (r : Range) : Nat :=
  let start := r.start.toInt
  let stop := r.stop.toInt
  let step := r.step.toInt
  if 0 < step ∧ start < stop then ((stop - start - 1) / step + 1).toNat
  else if step < 0 ∧ stop < start then ((start - stop - 1) / -step + 1).toNat
  else 0

/-- Whether the progression has no element. -/
def isEmpty (r : Range) : Bool :=
  r.length == 0

end Range

/-! ## Offsets -/

/-- Where the instruction at each offset stands in its sequence. -/
structure OffsetIndex where
  entries : List (UInt32 × Nat)
deriving DecidableEq, Repr, Inhabited

/-- Two adjacent offsets, the second of which is not greater than the first. -/
structure OffsetDrop where
  previous : UInt32
  offset : UInt32
deriving DecidableEq, Repr, Inhabited

namespace OffsetIndex

/-- The first adjacent pair that does not increase. -/
def firstDrop? : List UInt32 → Option OffsetDrop
  | a :: b :: rest => if a < b then firstDrop? (b :: rest) else some ⟨a, b⟩
  | _ => none

/-- The index of a sequence of offsets, which have to increase strictly. -/
def ofOffsets (offsets : List UInt32) : Except OffsetDrop OffsetIndex :=
  match firstDrop? offsets with
  | some drop => .error drop
  | none => .ok ⟨offsets.zipIdx⟩

/-- The position of the instruction at `offset`. -/
def position? (index : OffsetIndex) (offset : UInt32) : Option Nat :=
  index.entries.lookup offset

/-- How many instructions the index covers. -/
def size (index : OffsetIndex) : Nat :=
  index.entries.length

theorem ofOffsets_eq_ok_iff {offsets : List UInt32} {index : OffsetIndex} :
    ofOffsets offsets = .ok index ↔
      firstDrop? offsets = none ∧ index = ⟨offsets.zipIdx⟩ := by
  unfold ofOffsets
  cases h : firstDrop? offsets <;> simp [eq_comm]

theorem lt_length_of_position? {offsets : List UInt32} {index : OffsetIndex} {offset : UInt32}
    {position : Nat} (h : ofOffsets offsets = .ok index)
    (hposition : index.position? offset = some position) : position < offsets.length := by
  obtain ⟨-, rfl⟩ := ofOffsets_eq_ok_iff.1 h
  obtain ⟨before, after, heq, -⟩ := List.lookup_eq_some_iff.1 hposition
  have heq : offsets.zipIdx = before ++ (offset, position) :: after := heq
  have hmem : (offset, position) ∈ offsets.zipIdx := by
    rw [heq]
    exact List.mem_append_right _ List.mem_cons_self
  exact List.snd_lt_of_mem_zipIdx hmem

end OffsetIndex

end Bytecode
