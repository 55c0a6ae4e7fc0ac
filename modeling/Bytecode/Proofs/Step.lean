import Bytecode.Machine.Run

set_option autoImplicit false

/-!
# Steps and endings

Equations for single steps, in which the sequencing of acts no longer shows: what a fetch does to a
frame, what a lifted act does to a machine, and what the opcodes do whose effect depends on more
than the top of the stack.

`Machine.Goes` and `Machine.Ends` say of a step and of a run how they end, whatever the budget was
that showed it.  An outcome is shown by some budget and then by every greater one, so a machine has
at most one.

Main statements: `step_of_instruction`, a step carries out the instruction at the position of the
frame, `forIter_eq`, the whole effect of a loop header, and `ends_iff_of_goes`, a machine ends as
the machine does that it goes to.
-/

namespace Bytecode

/-! ## Positions -/

/-- The opcode at a position. -/
def Code.opcode? (c : Code) (pc : Nat) : Option Opcode :=
  (c.instructions[pc]?).map (·.opcode)

/-- Where an exhausted loop with this target goes on: past the epilogue there. -/
def Code.pastEpilogue (c : Code) (target : Nat) : Nat :=
  if c.opcode? target = some .endFor then
    if c.opcode? (target + 1) = some .popTop then target + 2 else target + 1
  else target

/-- Where the loop with this header goes on when it is exhausted. -/
def Code.loopEnd (c : Code) (header : Instruction) : Except Fault Nat :=
  (c.resolveJump header).map c.pastEpilogue

theorem Code.opcode?_of_instruction {c : Code} {pc : Nat} {i : Instruction}
    (h : c.instructions[pc]? = some i) : c.opcode? pc = some i.opcode := by
  simp [opcode?, h]

theorem Code.loopEnd_of_ok {c : Code} {header : Instruction} {target : Nat}
    (h : c.resolveJump header = .ok target) : c.loopEnd header = .ok (c.pastEpilogue target) := by
  rw [loopEnd, h]
  rfl

theorem Code.loopEnd_of_error {c : Code} {header : Instruction} {fault : Fault}
    (h : c.resolveJump header = .error fault) : c.loopEnd header = .error fault := by
  rw [loopEnd, h]
  rfl

theorem Code.pastEpilogue_of_ne {c : Code} {target : Nat}
    (h : c.opcode? target ≠ some .endFor) : c.pastEpilogue target = target :=
  if_neg h

/-! ## Frames -/

namespace Frame

/-- The frame that has fetched this instruction. -/
def fetching (f : Frame) (i : Instruction) : Frame :=
  { f with pc := f.pc + 1, current := some i }

theorem fetched?_of_instruction {f : Frame} {i : Instruction}
    (h : f.code.instructions[f.pc]? = some i) : f.fetched? = some (i, f.fetching i) := by
  simp [fetched?, h, fetching]

theorem skipIf_eq (opcode : Opcode) (f : Frame) :
    skipIf opcode f =
      if f.code.opcode? f.pc = some opcode then .ok true { f with pc := f.pc + 1 }
      else .ok false f := by
  unfold skipIf skipped? Code.opcode?
  cases f.code.instructions[f.pc]? with
  | none => rfl
  | some i => by_cases h : i.opcode = opcode <;> simp [h]

end Frame

/-! ## Lifted acts -/

namespace Machine

theorem lift_frame {α : Type} (act : Frame.Act α) (m : Machine) :
    (liftM act : Act α) m = onFrame act m := rfl

theorem lift_sink {α : Type} (act : EStateM Fault Sink α) (m : Machine) :
    (liftM act : Act α) m = onSink act m := rfl

theorem lift_except {α : Type} (result : Except Fault α) (m : Machine) :
    (liftM result : Act α) m = ofExcept result m := rfl

/-- The call of a function only prepares its frame. -/
theorem invoke_function (code : Code) (args : List Value) (m : Machine) :
    invoke (.function code) args m =
      match m.engine.calleeFrame code args with
      | .ok frame => .ok (.enter frame) m
      | .error fault => .error fault m := by
  have hlift : invoke (.function code) args m =
      (do return .enter (← m.engine.calleeFrame code args) : Act Action) m := rfl
  rw [hlift]
  cases m.engine.calleeFrame code args <;> rfl

/-! ## Steps -/

/-- A step fetches the instruction at the position of the frame and carries it out. -/
theorem step_of_instruction {m : Machine} {i : Instruction}
    (h : m.frame.code.instructions[m.frame.pc]? = some i) (body : Machine → Option Outcome) :
    step body m =
      match exec i { m with frame := m.frame.fetching i } with
      | .error fault m => some (.error fault m)
      | .ok .next m => some (.ok none m)
      | .ok (.leave v) m => some (.ok (some v) m)
      | .ok (.enter callee) m => (body (m.entering callee)).map (returned m.frame) := by
  have hadvance : advance m = exec i { m with frame := m.frame.fetching i } := by
    simp only [advance, Frame.fetched?_of_instruction h]
  unfold step
  generalize advance m = result at hadvance
  subst hadvance
  rfl

/-- Past the last instruction a step leaves the frame. -/
theorem step_of_end {m : Machine} (h : m.frame.code.instructions[m.frame.pc]? = none)
    (body : Machine → Option Outcome) : step body m = some (.ok (some .none) m) := by
  have hfetch : m.frame.fetched? = none := by simp [Frame.fetched?, h]
  simp only [step, advance, hfetch]

theorem step_of_next {m m' : Machine} {i : Instruction}
    (h : m.frame.code.instructions[m.frame.pc]? = some i)
    (hexec : exec i { m with frame := m.frame.fetching i } = .ok .next m')
    (body : Machine → Option Outcome) : step body m = some (.ok none m') := by
  rw [step_of_instruction h, hexec]

theorem step_of_error {m m' : Machine} {i : Instruction} {fault : Fault}
    (h : m.frame.code.instructions[m.frame.pc]? = some i)
    (hexec : exec i { m with frame := m.frame.fetching i } = .error fault m')
    (body : Machine → Option Outcome) : step body m = some (.error fault m') := by
  rw [step_of_instruction h, hexec]

/-! ## Loop headers -/

/-- Stepping over an epilogue goes to `pastEpilogue`. -/
theorem skipEpilogue_eq (f : Frame) :
    (do if ← Frame.skipIf .endFor then
          let _ ← Frame.skipIf .popTop : Frame.Act Unit) f =
      .ok () { f with pc := f.code.pastEpilogue f.pc } := by
  simp only [bind, EStateM.bind, Frame.skipIf_eq, Code.pastEpilogue]
  by_cases hend : f.code.opcode? f.pc = some .endFor
  · by_cases hpop : f.code.opcode? (f.pc + 1) = some .popTop
    · simp [hend, hpop, EStateM.bind, Frame.skipIf_eq]
      rfl
    · simp [hend, hpop, EStateM.bind, Frame.skipIf_eq]
      rfl
  · simp only [if_neg hend]
    rfl

theorem forIter_eq (i : Instruction) (f : Frame) :
    forIter i f =
      match f.stack with
      | [] => .error (f.underflow 1) f
      | .iterator c :: rest =>
        match c.advance with
        | some (item, next) => .ok () { f with stack := item :: .iterator next :: rest }
        | none =>
          match f.code.loopEnd i with
          | .ok pc => .ok () { f with pc := pc, stack := rest }
          | .error fault => .error fault { f with stack := rest }
      | v :: _ => .error (.notIterator v.kind) f := by
  obtain ⟨code, pc, stack, locals, current⟩ := f
  unfold forIter
  cases stack with
  | nil => rfl
  | cons v rest =>
    cases v with
    | iterator c =>
      cases hc : c.advance with
      | some next =>
        simp only [bind, EStateM.bind, Frame.top, hc]
        rfl
      | none =>
        cases ht : code.resolveJump i with
        | ok target =>
          simp only [bind, EStateM.bind, Frame.top, hc, Frame.pop, Frame.jump, ht,
            Code.loopEnd_of_ok ht]
          exact skipEpilogue_eq ⟨code, target, rest, locals, current⟩
        | error fault =>
          simp only [bind, EStateM.bind, Frame.top, hc, Frame.pop, Frame.jump, ht,
            Code.loopEnd_of_error ht]
    | _ => rfl

theorem exec_forIter {i : Instruction} (h : i.opcode = .forIter) (m : Machine) :
    exec i m =
      match forIter i m.frame with
      | .ok _ f => .ok .next { m with frame := f }
      | .error fault f => .error fault { m with frame := f } := by
  simp only [exec, h, bind, EStateM.bind, lift_frame, onFrame]
  cases forIter i m.frame <;> rfl

end Machine

/-! ## Steps and endings without a budget -/

namespace Machine

/-- A step goes on to another machine. -/
def Goes (m m' : Machine) : Prop :=
  ∃ fuel, step (execute fuel) m = some (.ok none m')

/-- A run comes to an end. -/
def Ends (m : Machine) (outcome : Outcome) : Prop :=
  ∃ fuel, execute fuel m = some outcome

theorem step_le {fuel more : Nat} (h : fuel ≤ more) {m : Machine} {result : StepResult}
    (run : step (execute fuel) m = some result) : step (execute more) m = some result :=
  step_mono (fun _ _ => execute_le h) run

theorem step_unique {fuel fuel' : Nat} {m : Machine} {result result' : StepResult}
    (run : step (execute fuel) m = some result)
    (run' : step (execute fuel') m = some result') : result = result' := by
  have h := step_le (Nat.le_max_left fuel fuel') run
  have h' := step_le (Nat.le_max_right fuel fuel') run'
  exact Option.some.inj (h.symm.trans h')

/-- A machine ends as the machine does that it goes to. -/
theorem ends_iff_of_goes {m m' : Machine} {outcome : Outcome} (h : Goes m m') :
    Ends m outcome ↔ Ends m' outcome := by
  obtain ⟨fuel, hstep⟩ := h
  constructor
  · rintro ⟨budget, run⟩
    cases budget with
    | zero => cases run
    | succ budget =>
      rw [execute_succ] at run
      cases hresult : step (execute budget) m with
      | none =>
        rw [hresult] at run
        cases run
      | some result =>
        have hsame : result = .ok none m' := step_unique hresult hstep
        rw [hresult, hsame] at run
        exact ⟨budget, run⟩
  · rintro ⟨budget, run⟩
    refine ⟨max fuel budget + 1, ?_⟩
    rw [execute_succ, step_le (Nat.le_max_left fuel budget) hstep]
    exact execute_le (Nat.le_max_right fuel budget) run

end Machine

/-- Code at the top level comes to an end. -/
def Engine.Ends (code : Code) (e : Engine) (outcome : Outcome) : Prop :=
  ∃ fuel, Engine.run fuel code e = some outcome

theorem Engine.Ends.unique {code : Code} {e : Engine} {outcome outcome' : Outcome}
    (h : Engine.Ends code e outcome) (h' : Engine.Ends code e outcome') : outcome = outcome' := by
  obtain ⟨fuel, run⟩ := h
  obtain ⟨fuel', run'⟩ := h'
  have hmost := run_le (Nat.le_max_left fuel fuel') run
  have hmost' := run_le (Nat.le_max_right fuel fuel') run'
  exact Option.some.inj (hmost.symm.trans hmost')

theorem Engine.ends_iff {code : Code} {e : Engine} {outcome : Outcome} :
    Engine.Ends code e outcome ↔
      ∃ inner, Machine.Ends ⟨e, .ofModule code⟩ inner ∧ Engine.flushed inner = outcome := by
  constructor
  · rintro ⟨fuel, run⟩
    obtain ⟨inner, hinner, hflushed⟩ := Option.map_eq_some_iff.1 run
    exact ⟨inner, ⟨fuel, hinner⟩, hflushed⟩
  · rintro ⟨inner, ⟨fuel, hinner⟩, hflushed⟩
    exact ⟨fuel, Option.map_eq_some_iff.2 ⟨inner, hinner, hflushed⟩⟩

end Bytecode
