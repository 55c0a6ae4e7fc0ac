import Bytecode.Proofs.Step
import Bytecode.Proofs.Iteration

set_option autoImplicit false

/-!
# Whole loops

`Machine.Travels` is a run of steps in one frame that notes, for the header of a loop,
the element of every entry into the body.

The law of loops takes a run of the body for every element that is left, from an
environment to the next one, and composes them into a run of the loop.  It is proved by
induction on the elements that are left; the environments and the runs of the body are
numbered from the present element on, so they shift by one with every element.

Main statement: `travels_loop`.
-/

namespace Bytecode

/-- What a piece of code works on besides operands: the engine, which has the global names and
the output, and the local names of a function. -/
structure Scope where
  engine : Engine
  locals : Option Environment

namespace Machine

/-- A machine with a position and operands in some scope. -/
def within (code : Code) (scope : Scope) (pc : Nat) (stack : List Value)
    (current : Option Instruction) : Machine :=
  ⟨scope.engine, ⟨code, pc, stack, scope.locals, current⟩⟩

/-! ## Runs and entries into a loop -/

/-- The element with which the next step enters the body of the loop with its header at
`header`, if it does. -/
def entry (header : Nat) (m : Machine) : List Value :=
  if m.frame.pc = header then
    match m.frame.stack with
    | .iterator c :: _ => (c.advance.map (·.1)).toList
    | _ => []
  else []

/-- Finitely many steps that go on, with the elements of the entries into the loop with its
header at `header`. -/
inductive Travels (header : Nat) : Machine → List Value → Machine → Prop where
  | refl (m : Machine) : Travels header m [] m
  | step {m m' m'' : Machine} {entered : List Value} (goes : m.Goes m')
      (rest : Travels header m' entered m'') :
      Travels header m (m.entry header ++ entered) m''

variable {header : Nat}

theorem Travels.trans {m m' m'' : Machine} {entered entered' : List Value}
    (first : Travels header m entered m') (rest : Travels header m' entered' m'') :
    Travels header m (entered ++ entered') m'' := by
  induction first with
  | refl m => exact rest
  | step goes _ ih =>
    rw [List.append_assoc]
    exact .step goes (ih rest)

theorem Travels.of_goes {m m' : Machine} {entered : List Value} (goes : m.Goes m')
    (hentry : m.entry header = entered) : Travels header m entered m' := by
  rw [← hentry, ← List.append_nil (m.entry header)]
  exact .step goes (.refl m')

/-! ## Loop headers -/

section Header

variable {code : Code} {i : Instruction} {scope : Scope} {stack : List Value} {c : Cursor}
  {current : Option Instruction}

/-- The header enters the body with the next element. -/
theorem travels_of_advance (placed : code.instructions[header]? = some i)
    (opcode : i.opcode = .forIter) {item : Value} {rest : Cursor}
    (advanced : c.advance = some (item, rest)) :
    Travels header (within code scope header (.iterator c :: stack) current) [item]
      (within code scope (header + 1) (item :: .iterator rest :: stack) (some i)) := by
  refine .of_goes ⟨0, step_of_next placed ?_ _⟩ ?_
  · rw [exec_forIter opcode, forIter_eq]
    simp only [within, Frame.fetching, advanced]
  · simp [entry, within, advanced]

/-- An exhausted loop goes on past its epilogue, without its iterator. -/
theorem travels_of_exhausted (placed : code.instructions[header]? = some i)
    (opcode : i.opcode = .forIter) {target : Nat} (leads : code.resolveJump i = .ok target)
    (exhausted : c.advance = none) :
    Travels header (within code scope header (.iterator c :: stack) current) []
      (within code scope (code.pastEpilogue target) stack (some i)) := by
  refine .of_goes ⟨0, step_of_next placed ?_ _⟩ ?_
  · rw [exec_forIter opcode, forIter_eq]
    simp only [within, Frame.fetching, exhausted, Code.loopEnd_of_ok leads]
  · simp [entry, within, exhausted]

end Header

/-! ## The law -/

/-- A loop as a whole.  If from every element that is left, entered into the body in one scope,
the body comes back to the header in the next scope, with the iterator in place and the operands
beneath it as they were, then the loop runs to its end: it enters the body once for each of the
elements in their order, besides what runs of the body enter themselves, takes its iterator off,
and goes on in the last scope past the epilogue. -/
theorem travels_loop {code : Code} {i : Instruction} {target : Nat} {stack : List Value}
    {c : Cursor} {scope : Nat → Scope} {inner : Nat → List Value}
    (placed : code.instructions[header]? = some i) (opcode : i.opcode = .forIter)
    (leads : code.resolveJump i = .ok target)
    (body : ∀ k item rest, c.trail[k]? = some (item, rest) → ∃ current,
      Travels header (within code (scope k) (header + 1) (item :: .iterator rest :: stack) (some i))
        (inner k) (within code (scope (k + 1)) header (.iterator rest :: stack) current))
    (current : Option Instruction) :
    Travels header (within code (scope 0) header (.iterator c :: stack) current)
      (c.trail.mapIdx fun k element => element.1 :: inner k).flatten
      (within code (scope c.trail.length) (code.pastEpilogue target) stack (some i)) := by
  generalize htrail : c.trail = elements at body ⊢
  induction elements generalizing c scope inner current with
  | nil => exact travels_of_exhausted placed opcode leads (Cursor.trail_eq_nil_iff.1 htrail)
  | cons element elements ih =>
    obtain ⟨item, rest⟩ := element
    obtain ⟨hadvance, hrest⟩ := Cursor.trail_eq_cons_iff.1 htrail
    obtain ⟨current', hbody⟩ := body 0 item rest rfl
    have hloop := @ih rest (fun k => scope (k + 1)) (fun k => inner (k + 1)) current' hrest
      (fun k item' rest' helement => body (k + 1) item' rest' helement)
    rw [List.mapIdx_cons, List.flatten_cons, List.length_cons]
    exact (travels_of_advance placed opcode hadvance).trans (hbody.trans hloop)

/-- A loop over two items that binds a global name to each. -/
theorem travels_loop_storeName :
    let i : Instruction := ⟨0, .forIter, none, some (.int 6)⟩
    let code : Code := ⟨"", 0, [],
      [i, ⟨2, .storeName, none, some (.str "x")⟩, ⟨4, .jump, none, some (.int 0)⟩,
        ⟨6, .endFor, none, none⟩, ⟨8, .popTop, none, none⟩],
      ⟨[(0, 0), (2, 1), (4, 2), (6, 3), (8, 4)]⟩⟩
    let e : Engine := .fresh .standard .unlimited
    Travels 0 (within code ⟨e, none⟩ 0 [.iterator (.items [.int 1, .int 2] 0), .none] none)
      [.int 1, .int 2] (within code ⟨e.setGlobal "x" (.int 2), none⟩ 5 [.none] (some i)) := by
  intro i code e
  let c : Cursor := .items [.int 1, .int 2] 0
  let scope : Nat → Scope
    | 0 => ⟨e, none⟩
    | 1 => ⟨e.setGlobal "x" (.int 1), none⟩
    | _ => ⟨e.setGlobal "x" (.int 2), none⟩
  have htrail : c.trail =
      [(.int 1, .items [.int 1, .int 2] 1), (.int 2, .items [.int 1, .int 2] 2)] := by
    rw [Cursor.trail_eq_cons_iff, Cursor.trail_eq_cons_iff, Cursor.trail_eq_nil_iff]
    exact ⟨rfl, rfl, rfl⟩
  have body : ∀ k item rest, c.trail[k]? = some (item, rest) → ∃ current,
      Travels 0 (within code (scope k) 1 [item, .iterator rest, .none] (some i)) []
        (within code (scope (k + 1)) 0 [.iterator rest, .none] current) := by
    intro k item rest hk
    rw [htrail] at hk
    match k, hk with
    | 0, rfl | 1, rfl => exact ⟨_, .step ⟨0, rfl⟩ (.step ⟨0, rfl⟩ (.refl _))⟩
  have placed : code.instructions[0]? = some i := rfl
  have leads : code.resolveJump i = .ok 3 := rfl
  have hloop := travels_loop placed rfl leads body none
  rw [htrail] at hloop
  exact hloop

end Machine

end Bytecode
