import Bytecode.Proofs.Inventory
import Mathlib.Data.String.Basic

set_option autoImplicit false

/-!
# Well-formed values

A code object is well formed if it has a name for every parameter and its index is the map from
offsets to positions; a range, if it has a step; a cursor, if it stands where an element begins or
at the end.  `Criterion.wellFormed` asks for this of all parts of a value.

A frame of well-formed code never leaves it: the position stays within the instructions, or just
past the last of them.

Main statements: `Code.wellFormed_of_ofInstructions`, code is well formed from the beginning, and
`Machine.inCode_of_step`, no step leaves the code of a frame, whether it succeeds or fails.
-/

namespace Bytecode

/-! ## Code -/

namespace OffsetIndex

/-- Offsets among which no adjacent pair drops are in increasing order. -/
theorem pairwise_of_firstDrop? {offsets : List UInt32} (h : firstDrop? offsets = none) :
    offsets.Pairwise (· < ·) := by
  have : Trans (· < · : UInt32 → UInt32 → Prop) (· < ·) (· < ·) := ⟨UInt32.lt_trans⟩
  rw [← List.isChain_iff_pairwise]
  induction offsets with
  | nil => exact .nil
  | cons a rest ih =>
    cases rest with
    | nil => exact .singleton a
    | cons b rest =>
      simp only [firstDrop?] at h
      split at h
      · next hlt => exact .cons_cons hlt (ih h)
      · cases h

/-- The index of increasing offsets maps each of them to its position, and nothing else. -/
theorem position?_eq_some_iff {offsets : List UInt32} {index : OffsetIndex}
    (h : ofOffsets offsets = .ok index) (offset : UInt32) (position : Nat) :
    index.position? offset = some position ↔ offsets[position]? = some offset := by
  obtain ⟨hdrop, rfl⟩ := ofOffsets_eq_ok_iff.1 h
  have distinct : offsets.Nodup := (pairwise_of_firstDrop? hdrop).imp UInt32.ne_of_lt
  have listed : ∀ {p : Nat}, offsets.zipIdx.lookup offset = some p → offsets[p]? = some offset := by
    intro p hlookup
    obtain ⟨before, after, heq, -⟩ := List.lookup_eq_some_iff.1 hlookup
    have hmem : (offset, p) ∈ offsets.zipIdx := by
      rw [heq]
      exact List.mem_append_right _ List.mem_cons_self
    exact List.mem_zipIdx_iff_getElem?.1 hmem
  -- an offset that an instruction has is found, and since no other has it, at that instruction
  refine ⟨listed, fun hget => ?_⟩
  have hmem : (offset, position) ∈ offsets.zipIdx := List.mem_zipIdx_iff_getElem?.2 hget
  simp only [position?]
  cases hlookup : offsets.zipIdx.lookup offset with
  | none =>
    have hne := List.lookup_eq_none_iff.1 hlookup _ hmem
    simp at hne
  | some p =>
    have hlt : position < offsets.length := (List.getElem?_eq_some_iff.1 hget).1
    rw [(List.getElem?_inj hlt distinct).1 (hget.trans (listed hlookup).symm)]

end OffsetIndex

namespace Code

/-- There is a name for every parameter, and the index maps the offset of each instruction to its
position, and no other offset to any. -/
structure WellFormed (c : Code) : Prop where
  argcount_le : c.argcount ≤ c.varnames.length
  position?_iff : ∀ offset position, c.index.position? offset = some position ↔
    (c.instructions[position]?).map (·.offset) = some offset

theorem wellFormed_of_ofInstructions {name : String} {argcount : Nat} {varnames : List String}
    {instructions : List Instruction} {c : Code}
    (h : ofInstructions name argcount varnames instructions = .ok c) : c.WellFormed where
  argcount_le := argcount_le_of_ofInstructions h
  position?_iff offset position := by
    rw [← List.getElem?_map]
    exact OffsetIndex.position?_eq_some_iff (indexed_of_ofInstructions h) offset position

namespace WellFormed

variable {c : Code} {i : Instruction} {target : Nat}

theorem lt_length_of_resolveJump (h : c.WellFormed) (resolved : c.resolveJump i = .ok target) :
    target < c.instructions.length := by
  obtain ⟨offset, hposition⟩ := exists_position?_of_resolveJump resolved
  obtain ⟨j, hj, -⟩ := Option.map_eq_some_iff.1 ((h.position?_iff offset target).1 hposition)
  exact (List.getElem?_eq_some_iff.1 hj).1

end WellFormed

theorem lt_length_of_opcode? {c : Code} {pc : Nat} {opcode : Opcode}
    (h : c.opcode? pc = some opcode) : pc < c.instructions.length := by
  obtain ⟨i, hi, -⟩ := Option.map_eq_some_iff.1 h
  exact (List.getElem?_eq_some_iff.1 hi).1

theorem pastEpilogue_le {c : Code} {target : Nat} (h : target ≤ c.instructions.length) :
    c.pastEpilogue target ≤ c.instructions.length := by
  unfold pastEpilogue
  split
  · next hend =>
    split
    · next hpop => exact lt_length_of_opcode? hpop
    · exact lt_length_of_opcode? hend
  · exact h

theorem WellFormed.le_length_of_loopEnd {c : Code} {i : Instruction} {pc : Nat}
    (h : c.WellFormed) (ended : c.loopEnd i = .ok pc) : pc ≤ c.instructions.length := by
  unfold loopEnd at ended
  cases resolved : c.resolveJump i with
  | error fault =>
    rw [resolved] at ended
    cases ended
  | ok target =>
    rw [resolved] at ended
    cases ended
    exact pastEpilogue_le (h.lt_length_of_resolveJump resolved).le

end Code

/-! ## Cursors -/

namespace Cursor

/-- The cursor has a step, or stands before an element or at the end. -/
def WellFormed : Cursor → Prop
  | range _ _ step => step ≠ 0
  | items list pos => pos ≤ list.length
  | chars text pos => String.Pos.Raw.Valid text ⟨pos⟩

/-- Behind a character there is another one or the end. -/
theorem valid_add_utf8Size {text : String} {pos : Nat} {c : Char}
    (h : String.Pos.Raw.Valid text ⟨pos⟩) (found : String.Pos.Raw.get? text ⟨pos⟩ = some c) :
    String.Pos.Raw.Valid text ⟨pos + c.utf8Size⟩ := by
  obtain ⟨before, after, rfl, hpos⟩ := h.exists
  rw [hpos, String.get?_of_valid] at found
  obtain ⟨rest, rfl⟩ := List.head?_eq_some_iff.1 found
  rw [← List.singleton_append, ← List.append_assoc]
  refine .mk (before ++ [c]) rest ?_
  cases hpos
  simp

theorem WellFormed.advance {c next : Cursor} {item : Value} (h : c.WellFormed)
    (advanced : c.advance = some (item, next)) : next.WellFormed := by
  cases c with
  | range start stop step =>
    simp only [Cursor.advance] at advanced
    split at advanced
    · cases advanced
      exact h
    · cases advanced
  | items list pos =>
    obtain ⟨v, hv, heq⟩ := Option.map_eq_some_iff.1 advanced
    cases heq
    exact (List.getElem?_eq_some_iff.1 hv).1
  | chars text pos =>
    obtain ⟨ch, hch, heq⟩ := Option.map_eq_some_iff.1 advanced
    cases heq
    exact valid_add_utf8Size h hch

end Cursor

/-- Code, ranges and cursors are well formed. -/
def Criterion.wellFormed : Criterion where
  code := Code.WellFormed
  range r := r.step ≠ 0
  cursor := Cursor.WellFormed
  range_of_step h := h
  cursor_of_range h := h
  cursor_of_items _ := Nat.zero_le _
  cursor_of_chars _ := String.Pos.Raw.valid_zero
  cursor_of_advance := Cursor.WellFormed.advance

theorem Criterion.wellFormed_holdsOfBuilt : wellFormed.HoldsOfBuilt :=
  Code.wellFormed_of_ofInstructions

/-! ## Positions -/

/-- The position is that of an instruction, or just past the last one. -/
def Frame.InCode (f : Frame) : Prop :=
  f.pc ≤ f.code.instructions.length

namespace Machine

variable {m m' : Machine} {i : Instruction}

theorem inCode_fetching (placed : m.instruction? = some i) : (m.fetching i).frame.InCode :=
  (List.getElem?_eq_some_iff.1 placed).1

/-- No instruction that succeeds leaves well-formed code, nor is a function entered outside of
its own. -/
theorem Effect.inCode {action : Action} (effect : Effect i m action m')
    (wellFormed : m.frame.code.WellFormed) (h : m.frame.InCode) :
    m'.frame.InCode ∧ ∀ callee, action = .enter callee → callee.InCode := by
  cases effect with
  | store hop hname taken =>
    refine ⟨?_, nofun⟩
    rw [Frame.InCode, bound_pc, bound_code]
    exact h
  | exhausted hop taken ended target => exact ⟨wellFormed.le_length_of_loopEnd target, nofun⟩
  | jump hop target => exact ⟨(wellFormed.lt_length_of_resolveJump target).le, nofun⟩
  | branch hop taken target => exact ⟨(wellFormed.lt_length_of_resolveJump target).le, nofun⟩
  | callFunction hop hcount taken result =>
    refine ⟨h, ?_⟩
    rintro callee ⟨⟩
    obtain ⟨-, -, rfl⟩ := Engine.calleeFrame_eq_ok_iff.1 result
    exact Nat.zero_le _
  | returnValue hop taken => exact ⟨Nat.le_refl _, nofun⟩
  | returnConst hop => exact ⟨Nat.le_refl _, nofun⟩
  | _ => exact ⟨h, nofun⟩

theorem Failure.inCode {fault : Fault} (failure : Failure i m fault m') (h : m.frame.InCode) :
    m'.frame.InCode := by
  cases failure <;> exact h

/-- No step leaves well-formed code, whether it succeeds or fails. -/
theorem inCode_of_step {body : Machine → Option Outcome} {result : StepResult}
    (wellFormed : m.frame.code.WellFormed) (h : m.frame.InCode)
    (hstep : step body m = some result) : (finalState result).frame.InCode := by
  cases result with
  | ok left m' =>
    cases advances_of_step hstep with
    | atEnd ended => exact h
    | next placed effect => exact (effect.inCode wellFormed (inCode_fetching placed)).1
    | leave placed effect => exact (effect.inCode wellFormed (inCode_fetching placed)).1
    | call placed effect enters ran => exact (effect.inCode wellFormed (inCode_fetching placed)).1
  | error fault m' =>
    cases breaks_of_step hstep with
    | own placed failure => exact failure.inCode (inCode_fetching placed)
    | inner placed effect enters ran => exact (effect.inCode wellFormed (inCode_fetching placed)).1

end Machine

end Bytecode
