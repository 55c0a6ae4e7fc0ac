import Bytecode.Proofs.Advance

set_option autoImplicit false

/-!
# Underflow

An instruction that lacks operands takes none of those that are there, and its fault says how
many there are.  A call is the exception when all that stands beneath its arguments is a
marker: the marker passes for the callee until it has been taken, and the arguments are gone
by then.

Main statement: `underflow_keeps_operands`, exactly the steps outside of this exception that
fail for want of operands leave all of them.
-/

namespace Bytecode

namespace Frame

theorem LoneMarker.depth_eq {f : Frame} {argc : Nat} (h : LoneMarker f.stack argc) :
    f.depth = argc + 1 := by
  obtain ⟨args, hlength, hstack⟩ := h
  rw [depth, hstack, List.length_append, hlength, List.length_singleton]

/-- A marker alone is no callee, wherever a call looks for one. -/
theorem LoneMarker.not_finds {stack : List Value} {argc : Nat} (h : LoneMarker stack argc)
    (callee : Value) (args rest : List Value) : ¬ Finds stack argc callee args rest := by
  rintro ⟨hlength, layout, hfits, hstack⟩
  obtain ⟨args', hlength', hstack'⟩ := h
  have hsame : args'.length = args.reverse.length := by rw [List.length_reverse, hlength, hlength']
  have hover : [.null] = layout.over callee rest :=
    (List.append_inj (hstack'.symm.trans hstack) hsame).2
  cases layout with
  | beneathCallee => cases hover
  | aboveCallee => cases hover
  | missing =>
    cases hover
    exact hfits.1 rfl

end Frame

namespace Machine

/-- The next step is a call that finds no more than a marker beneath its arguments. -/
def CallsLoneMarker (m : Machine) : Prop :=
  ∃ i argc, m.instruction? = some i ∧ i.opcode = .call ∧ i.count = .ok argc ∧
    Frame.LoneMarker m.frame.stack argc

/-- Such a call takes everything before it finds out. -/
theorem CallsLoneMarker.advance_eq {m : Machine} (h : m.CallsLoneMarker) :
    ∃ i, m.instruction? = some i ∧
      m.advance = .error (.stackUnderflow i.opcode i.offset 1 0) ((m.fetching i).withStack []) := by
  obtain ⟨i, argc, placed, hop, hcount, hlone⟩ := h
  refine ⟨i, placed, ?_⟩
  have hpop : Frame.popCall argc (m.frame.fetching i) =
      .error (.stackUnderflow i.opcode i.offset 1 0) { m.frame.fetching i with stack := [] } := by
    have hlone' : Frame.LoneMarker (m.frame.fetching i).stack argc := hlone
    rcases Frame.popCall_cases argc (m.frame.fetching i) with
      ⟨hlacks, -⟩ | ⟨-, hpop⟩ | ⟨callee, args, rest, hfinds, -⟩
    · have hdepth := hlone'.depth_eq
      omega
    · exact hpop
    · exact absurd hfinds (hlone'.not_finds callee args rest)
  rw [advance_of_instruction placed]
  simp only [exec, hop, hcount, bind, EStateM.bind, lift_except, ofExcept, call, lift_frame,
    onFrame, fetching, hpop, withStack]

/-- A step that fails for want of operands, and not in a function that it calls, leaves names and
output as they were, and its fault shows the opcode and offset of the instruction.  Unless it
calls a lone marker it leaves the operands too, of which the fault shows the number and that it
is too small. -/
theorem underflow_keeps_operands {body : Machine → Option Outcome} {m m' : Machine}
    {opcode : Opcode} {offset : UInt32} {needed depth : Nat}
    (fails : step body m = some (.error (.stackUnderflow opcode offset needed depth) m'))
    (own : ∀ callee m₁, m.advance ≠ .ok (.enter callee) m₁) :
    (∃ i, m.instruction? = some i ∧ opcode = i.opcode ∧ offset = i.offset) ∧
      m'.engine = m.engine ∧ m'.frame.locals = m.frame.locals ∧
      (¬ m.CallsLoneMarker →
        m'.frame.stack = m.frame.stack ∧ depth = m.frame.depth ∧ depth < needed) ∧
      (m.CallsLoneMarker → m'.frame.stack = [] ∧ depth = 0 ∧ needed = 1) := by
  by_cases hlone : m.CallsLoneMarker
  · obtain ⟨i, placed, hadvance⟩ := hlone.advance_eq
    simp only [step, hadvance] at fails
    cases fails
    exact ⟨⟨i, placed, rfl, rfl⟩, rfl, rfl, absurd hlone, fun _ => ⟨rfl, rfl, rfl⟩⟩
  · generalize hfault : Fault.stackUnderflow opcode offset needed depth = fault at fails
    cases breaks_of_step fails with
    | inner placed effect enters ran => exact absurd enters (own _ _)
    | @own i _ _ placed failure =>
      cases failure with
      | short lacks =>
        cases hfault
        exact ⟨⟨i, placed, rfl, rfl⟩, rfl, rfl, fun _ => ⟨rfl, rfl, lacks⟩, (absurd · hlone)⟩
      | loneMarker hop hcount found => exact absurd ⟨i, _, placed, hop, hcount, found⟩ hlone
      | other category left =>
        subst hfault
        exact absurd rfl category

/-- An addition that finds one operand. -/
theorem underflow_keeps_operands_binaryAdd :
    let m : Machine := ⟨.fresh .standard .unlimited,
      ⟨⟨"", 0, [], [⟨0, .binaryAdd, none, none⟩], ⟨[(0, 0)]⟩⟩, 0, [.int 1], none, none⟩⟩
    ∃ m', step (execute 0) m = some (.error (.stackUnderflow .binaryAdd 0 2 1) m') ∧
      (∀ callee m₁, m.advance ≠ .ok (.enter callee) m₁) ∧ m'.frame.stack = [.int 1] := by
  intro m
  have fails : step (execute 0) m = some (.error (.stackUnderflow .binaryAdd 0 2 1)
      (m.fetching ⟨0, .binaryAdd, none, none⟩)) := rfl
  have own : ∀ callee m₁, m.advance ≠ .ok (.enter callee) m₁ := nofun
  have single : ¬ m.CallsLoneMarker := by
    rintro ⟨i, argc, placed, hop, -⟩
    cases placed
    cases hop
  exact ⟨_, fails, own, ((underflow_keeps_operands fails own).2.2.2.1 single).1⟩

/-- The call of a lone marker fails for want of operands and takes the marker. -/
theorem underflow_takes_lone_marker :
    let m : Machine := ⟨.fresh .standard .unlimited,
      ⟨⟨"", 0, [], [⟨0, .pushNull, none, none⟩, ⟨2, .call, some 0, none⟩], ⟨[(0, 0), (2, 1)]⟩⟩,
        1, [.null], none, none⟩⟩
    (∀ callee m₁, m.advance ≠ .ok (.enter callee) m₁) ∧
      ∃ m', step (execute 0) m = some (.error (.stackUnderflow .call 2 1 0) m') ∧
        m'.frame.stack ≠ m.frame.stack :=
  ⟨nofun, _, rfl, nofun⟩

end Machine

end Bytecode
