import Bytecode.Proofs.CallDepth
import Bytecode.Proofs.Iteration
import Bytecode.Proofs.WellFormed

set_option autoImplicit false

/-!
# Code without backward jumps

Where all jumps go forward every instruction takes a frame closer to the end of its code, and a
function that is called brings the count of calls closer to the limit.  So every run comes to its
end, however the functions call each other.  The one loop inside of a builtin is that of `sum`,
which goes over what is left to a cursor.

Main statements: `Code.lt_of_resolveJump`, a jump to a greater offset goes to a later position, and
`Engine.exists_ends_of_forwardOnly`.
-/

namespace Bytecode

/-! ## Jumps -/

namespace Code

/-- Every jump that names an offset names one that is greater than its own. -/
def ForwardOnly (c : Code) : Prop :=
  ∀ i ∈ c.instructions, i.opcode.isJump → ∀ target : Int64, i.argval = some (.int target) →
    (i.offset.toNat : Int) < target.toInt

theorem toInt_of_toOffset? {target : Int64} {offset : UInt32} (h : toOffset? target = some offset) :
    target.toInt = offset.toNat := by
  unfold toOffset? at h
  split at h
  · next bounds =>
    cases h
    rw [UInt32.toNat_ofNat_of_lt' (by omega)]
    omega
  · cases h

/-- A jump that is resolved names the offset of the instruction that it goes to. -/
theorem exists_offset_of_resolveJump {c : Code} {i : Instruction} {pc : Nat} (indexed : c.Indexed)
    (resolved : c.resolveJump i = .ok pc) :
    ∃ (target : Int64) (j : Instruction), i.opcode.isJump ∧ i.argval = some (.int target) ∧
      c.instructions[pc]? = some j ∧ target.toInt = j.offset.toNat := by
  unfold resolveJump Instruction.jumpTarget at resolved
  by_cases hjump : i.opcode.isJump
  · rw [if_pos hjump] at resolved
    split at resolved
    · next target hargval =>
      simp only [bind, Except.bind] at resolved
      split at resolved
      · next position found =>
        cases resolved
        obtain ⟨offset, hoffset, hposition⟩ := Option.bind_eq_some_iff.1 found
        rw [OffsetIndex.position?_eq_some_iff indexed, List.getElem?_map] at hposition
        obtain ⟨j, hj, rfl⟩ := Option.map_eq_some_iff.1 hposition
        exact ⟨target, j, hjump, hargval, hj, toInt_of_toOffset? hoffset⟩
      · cases resolved
    · cases resolved
  · rw [if_neg hjump] at resolved
    cases resolved

/-- An instruction with a greater offset stands at a later position. -/
theorem lt_of_offset_lt {c : Code} {i j : Instruction} {p q : Nat} (indexed : c.Indexed)
    (hi : c.instructions[p]? = some i) (hj : c.instructions[q]? = some j)
    (hlt : i.offset < j.offset) : p < q := by
  obtain ⟨hdrop, -⟩ := OffsetIndex.ofOffsets_eq_ok_iff.1 indexed
  have increasing := OffsetIndex.pairwise_of_firstDrop? hdrop
  rw [List.pairwise_map] at increasing
  obtain ⟨hp, rfl⟩ := List.getElem?_eq_some_iff.1 hi
  obtain ⟨hq, rfl⟩ := List.getElem?_eq_some_iff.1 hj
  rcases Nat.lt_trichotomy p q with before | rfl | behind
  · exact before
  · exact absurd hlt (UInt32.lt_irrefl _)
  · exact absurd hlt (UInt32.lt_asymm (List.pairwise_iff_getElem.1 increasing q p hq hp behind))

/-- A jump to a greater offset goes to a later position. -/
theorem lt_of_resolveJump {c : Code} {i : Instruction} {pc target : Nat} (indexed : c.Indexed)
    (forward : c.ForwardOnly) (placed : c.instructions[pc]? = some i)
    (resolved : c.resolveJump i = .ok target) : pc < target := by
  obtain ⟨offset, j, hjump, hargval, hj, heq⟩ := exists_offset_of_resolveJump indexed resolved
  have hlt := forward i (List.mem_of_getElem? placed) hjump offset hargval
  exact lt_of_offset_lt indexed placed hj (UInt32.lt_iff_toNat_lt.2 (by omega))

theorem le_pastEpilogue (c : Code) (target : Nat) : target ≤ c.pastEpilogue target := by
  unfold pastEpilogue
  split
  · split <;> omega
  · exact Nat.le_refl _

theorem lt_of_loopEnd {c : Code} {i : Instruction} {pc target : Nat} (indexed : c.Indexed)
    (forward : c.ForwardOnly) (placed : c.instructions[pc]? = some i)
    (ended : c.loopEnd i = .ok target) : pc < target := by
  unfold loopEnd at ended
  cases resolved : c.resolveJump i with
  | error fault =>
    rw [resolved] at ended
    cases ended
  | ok first =>
    rw [resolved] at ended
    cases ended
    exact (lt_of_resolveJump indexed forward placed resolved).trans_le (le_pastEpilogue ..)

end Code

/-- The jumps of code objects all go forward.  That offsets increase strictly is so of every code
object that is built of instructions. -/
def Criterion.forwardOnly : Criterion :=
  .ofCode fun c => c.Indexed ∧ c.ForwardOnly

/-! ## Progress -/

namespace Machine

variable {m m' : Machine} {i : Instruction}

/-- How many more functions may be in flight. -/
def callsLeft (m : Machine) : Nat :=
  m.engine.config.callLimit - m.engine.callDepth

/-- How many instructions stand at the position of the frame and behind it. -/
def codeLeft (m : Machine) : Nat :=
  m.frame.code.instructions.length - m.frame.pc

/-- Every instruction goes on to a later position of the same code. -/
theorem Effect.pc_lt {action : Action} (satisfied : m.Satisfies .forwardOnly)
    (placed : m.instruction? = some i) (effect : Effect i (m.fetching i) action m') :
    m'.frame.code = m.frame.code ∧ m.frame.pc < m'.frame.pc := by
  obtain ⟨indexed, forward⟩ := satisfied.frame.code.own
  cases effect with
  | store hop hname taken => simp
  | exhausted hop taken ended target =>
    exact ⟨rfl, Code.lt_of_loopEnd indexed forward placed target⟩
  | jump hop target => exact ⟨rfl, Code.lt_of_resolveJump indexed forward placed target⟩
  | branch hop taken target => exact ⟨rfl, Code.lt_of_resolveJump indexed forward placed target⟩
  | returnValue hop taken => exact ⟨rfl, (List.getElem?_eq_some_iff.1 placed).1⟩
  | returnConst hop => exact ⟨rfl, (List.getElem?_eq_some_iff.1 placed).1⟩
  | _ => exact ⟨rfl, Nat.lt_succ_self _⟩

theorem Effect.codeLeft_lt {action : Action} (satisfied : m.Satisfies .forwardOnly)
    (placed : m.instruction? = some i) (effect : Effect i (m.fetching i) action m') :
    m'.codeLeft < m.codeLeft := by
  obtain ⟨hcode, hpc⟩ := effect.pc_lt satisfied placed
  have hlt := (List.getElem?_eq_some_iff.1 placed).1
  unfold codeLeft
  rw [hcode]
  omega

end Machine

theorem Engine.LeadsTo.callsLeft_eq {m m' : Machine} (h : m.engine.LeadsTo 0 m'.engine) :
    m'.callsLeft = m.callsLeft := by
  unfold Machine.callsLeft
  rw [h.config_eq, h.callDepth_eq, Nat.add_zero]

namespace Machine

variable {m m' : Machine} {i : Instruction}

theorem callsLeft_lt_of_enter {callee : Frame} (enters : m.advance = .ok (.enter callee) m') :
    (m'.entering callee).callsLeft < m.callsLeft := by
  have hlt := callDepth_lt_of_enter enters
  have leads := (leadsTo_of_enter enters).trans (.entered m'.engine)
  unfold callsLeft
  simp only [entering, leads.config_eq, leads.callDepth_eq]
  omega

/-! ## Runs -/

theorem ends_of_advance_error {fault : Fault} (failed : m.advance = .error fault m') :
    m.Ends (.error fault m'.engine) := by
  refine ⟨1, ?_⟩
  rw [execute_succ]
  simp only [step, failed]

theorem ends_of_leave {v : Value} (left : m.advance = .ok (.leave v) m') :
    m.Ends (.ok v m'.engine) := by
  refine ⟨1, ?_⟩
  rw [execute_succ]
  simp only [step, left]

theorem goes_of_next (next : m.advance = .ok .next m') : m.Goes m' := by
  refine ⟨0, ?_⟩
  simp only [step, next]

/-- Where the body of a function comes to its end with a value, its caller goes on. -/
theorem goes_of_enter {callee : Frame} {v : Value} {e : Engine}
    (enters : m.advance = .ok (.enter callee) m') (ends : (m'.entering callee).Ends (.ok v e)) :
    m.Goes ⟨e.exited, m'.frame.pushed v⟩ := by
  obtain ⟨fuel, ran⟩ := ends
  refine ⟨fuel, ?_⟩
  simp only [step, enters, ran]
  rfl

/-- If the bodies of all functions come to an end that may still be called, so does a run. -/
theorem exists_ends_of_bodies {calls : Nat}
    (bodies : ∀ m : Machine, m.Satisfies .forwardOnly → m.callsLeft < calls →
      ∃ outcome, m.Ends outcome)
    (code : Nat) (m : Machine) (satisfied : m.Satisfies .forwardOnly) (hcalls : m.callsLeft ≤ calls)
    (hcode : m.codeLeft ≤ code) : ∃ outcome, m.Ends outcome := by
  -- every step leaves less of the code
  induction code generalizing m with
  | zero =>
    have ended : m.instruction? = none := by
      refine List.getElem?_eq_none ?_
      unfold codeLeft at hcode
      omega
    exact ⟨_, ends_of_leave (advance_of_end ended)⟩
  | succ code ih =>
    cases placed : m.instruction? with
    | none => exact ⟨_, ends_of_leave (advance_of_end placed)⟩
    | some i =>
      have hadvance := advance_of_instruction placed
      cases advanced : m.advance with
      | error fault m' => exact ⟨_, ends_of_advance_error advanced⟩
      | ok action m' =>
        have effect := effect_of_exec (hadvance.symm.trans advanced)
        have hless := effect.codeLeft_lt satisfied placed
        obtain ⟨hm', haction⟩ := satisfied.of_effect placed effect
        have leads : m.engine.LeadsTo 0 m'.engine := effect.leadsTo
        cases action with
        | leave v => exact ⟨_, ends_of_leave advanced⟩
        | next =>
          have hsame := leads.callsLeft_eq
          obtain ⟨outcome, ends⟩ := ih m' hm' (by omega) (by omega)
          exact ⟨outcome, (ends_iff_of_goes (goes_of_next advanced)).2 ends⟩
        | enter callee =>
          have hfewer := callsLeft_lt_of_enter advanced
          have hbody := hm'.entering haction
          obtain ⟨inner, ends⟩ := bodies (m'.entering callee) hbody (by omega)
          cases inner with
          | error fault e => exact ⟨_, ends_of_enter advanced ends⟩
          | ok v e =>
            obtain ⟨fuel, ran⟩ := id ends
            have goes := goes_of_enter advanced ends
            obtain ⟨hv, hglobals⟩ := (runs_of_execute ran).satisfies hbody
            have leads' : m.engine.LeadsTo 0 e.exited := leads.call ends.leadsTo
            have hsame : Machine.callsLeft ⟨e.exited, m'.frame.pushed v⟩ = m.callsLeft :=
              leads'.callsLeft_eq
            have hrest : Machine.codeLeft ⟨e.exited, m'.frame.pushed v⟩ = m'.codeLeft := rfl
            obtain ⟨outcome, ends⟩ := ih _ (hm'.returned hv hglobals) (by omega) (by omega)
            exact ⟨outcome, (ends_iff_of_goes goes).2 ends⟩

/-- Where all jumps go forward every run comes to its end. -/
theorem exists_ends (m : Machine) (satisfied : m.Satisfies .forwardOnly) :
    ∃ outcome, m.Ends outcome := by
  -- the bodies of functions run with fewer calls left
  induction hcalls : m.callsLeft using Nat.strong_induction_on generalizing m with
  | h calls ih =>
    refine exists_ends_of_bodies ?_ m.codeLeft m satisfied hcalls.le (Nat.le_refl _)
    intro m' satisfied' hfewer
    exact ih m'.callsLeft hfewer m' satisfied' rfl

end Machine

namespace Engine

/-- A program whose jumps all go forward comes to its end on every engine, with a value or a fault,
if that is so of all the code in the program and in the global names.  No sum on the way is cut
short: it is that of all elements that are left. -/
theorem exists_ends_of_forwardOnly {code : Code} {e : Engine} (hcode : code.Satisfies .forwardOnly)
    (hglobals : e.globals.Satisfies .forwardOnly) :
    (∃ outcome, Ends code e outcome) ∧
      ∀ (c : Cursor) (total : Value),
        c.addTo total = (c.trail.map (·.1)).foldlM Operator.add.apply total := by
  have satisfied : Machine.Satisfies .forwardOnly ⟨e, .ofModule code⟩ :=
    ⟨hglobals, Frame.satisfies_ofModule hcode⟩
  obtain ⟨inner, ends⟩ := Machine.exists_ends _ satisfied
  refine ⟨⟨_, ends_iff.2 ⟨inner, ends, rfl⟩⟩, fun c total => ?_⟩
  exact Cursor.addUpTo_eq_foldlM (Nat.le_refl _) total

/-- A program that calls a global function, which calls itself unless a condition fails that always
holds, comes to its end. -/
theorem exists_ends_of_forwardOnly_recursion :
    let body : Code := ⟨"f", 0, [], [⟨0, .loadConst, none, some (.bool true)⟩,
      ⟨2, .popJumpIfFalse, none, some (.int 8)⟩, ⟨4, .loadGlobal, none, some (.str "f")⟩,
      ⟨6, .call, some 0, none⟩, .bare 8 .returnValue],
      ⟨[(0, 0), (2, 1), (4, 2), (6, 3), (8, 4)]⟩⟩
    let code : Code := ⟨"m", 0, [], [⟨0, .loadName, none, some (.str "f")⟩,
      ⟨2, .call, some 0, none⟩], ⟨[(0, 0), (2, 1)]⟩⟩
    let e := (fresh .standard .unlimited).setGlobal "f" (.function body)
    code.Satisfies .forwardOnly ∧ e.globals.Satisfies .forwardOnly ∧
      ∃ outcome, Ends code e outcome := by
  intro body code e
  have hbody : body.Satisfies .forwardOnly := by
    refine .mk ⟨rfl, ?_⟩ ?_
    · simp [Code.ForwardOnly, body, Opcode.isJump, Instruction.bare]
    · simp only [body, List.forall_mem_cons]
      refine ⟨⟨?_⟩, ⟨?_⟩, ⟨?_⟩, ⟨nofun⟩, ⟨nofun⟩, List.forall_mem_nil _⟩ <;>
        rintro v ⟨⟩ <;>
        constructor
  have hcode : code.Satisfies .forwardOnly := by
    refine .mk ⟨rfl, ?_⟩ ?_
    · simp [Code.ForwardOnly, code, Opcode.isJump]
    · simp only [code, List.forall_mem_cons]
      refine ⟨⟨?_⟩, ⟨nofun⟩, List.forall_mem_nil _⟩
      rintro v ⟨⟩
      exact .str "f"
  have hglobals : e.globals.Satisfies .forwardOnly :=
    Environment.satisfies_empty.set "f" (.function hbody)
  obtain ⟨ended, -⟩ := exists_ends_of_forwardOnly hcode hglobals
  exact ⟨hcode, hglobals, ended⟩

end Engine

end Bytecode
