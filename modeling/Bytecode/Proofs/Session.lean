import Bytecode.Proofs.Equality
import Bytecode.Proofs.WellFormed
import Mathlib.Logic.Relation

set_option autoImplicit false

/-!
# Sessions

In a session one engine runs programs, one after the other, and steps others, on after a fault if
need be.  What it is in the middle of is a state too: while a function is run, the frame of the
function and the one that called it are in flight.

In a few places what an instruction takes has to be there, since nothing asks again whether it is:
these are the accesses of a machine.

Main statement: `Session.wellFormed_of_reaches`, in every state of a session everything is well
formed, and so every access is within bounds.
-/

namespace Bytecode

/-! ## Accesses -/

/-- What is taken on the condition that it is there. -/
inductive Access where
  /-- The text from a byte on. -/
  | text (whole : String) (pos : Nat)
  /-- The first of the names. -/
  | names (all : List String) (n : Nat)
  /-- The topmost operands. -/
  | operands (stack : List Value) (n : Nat)
  /-- The first argument. -/
  | argument (args : List Value)

/-- It is there; a text can be taken from where a character begins, and from its end. -/
def Access.InBounds : Access → Prop
  | text whole pos => String.Pos.Raw.Valid whole ⟨pos⟩
  | names all n => n ≤ all.length
  | operands stack n => n ≤ stack.length
  | argument args => args ≠ []

/-- The one cursor is the other after a step. -/
def Cursor.StepsTo (c next : Cursor) : Prop :=
  ∃ item, c.advance = some (item, next)

namespace Machine

/-- The next step makes this access, with all that is asked for before it is made. -/
inductive Accesses (m : Machine) : Access → Prop where
  /-- A loop header looks at the top operand. -/
  | header {i : Instruction} (placed : m.instruction? = some i) (hop : i.opcode = .forIter)
      (guard : m.frame.stack ≠ []) : Accesses m (.operands m.frame.stack 1)
  /-- The element that a loop header finds may be a character. -/
  | element {i : Instruction} {text : String} {pos : Nat} {rest : List Value}
      (placed : m.instruction? = some i) (hop : i.opcode = .forIter)
      (taken : m.frame.stack = .iterator (.chars text pos) :: rest) : Accesses m (.text text pos)
  /-- A call takes the arguments off. -/
  | arguments {i : Instruction} {argc : Nat} (placed : m.instruction? = some i)
      (hop : i.opcode = .call) (hcount : i.count = .ok argc)
      (guard : argc + 1 ≤ m.frame.depth) : Accesses m (.operands m.frame.stack argc)
  /-- A function that is entered binds its parameters. -/
  | parameters {callee : Frame} {m' : Machine} (enters : m.advance = .ok (.enter callee) m') :
      Accesses m (.names callee.code.varnames callee.code.argcount)
  /-- Some of the builtin functions look at their first argument. -/
  | argument {i : Instruction} {argc : Nat} {b : Builtin} {args : List Value} {f : Frame}
      (placed : m.instruction? = some i) (hop : i.opcode = .call) (hcount : i.count = .ok argc)
      (popped : Frame.popCall argc (m.frame.fetching i) = .ok (.builtin b, args) f)
      (hb : b ∈ [.len, .abs, .sum]) (guard : b.arity.1 ≤ args.length) : Accesses m (.argument args)
  /-- The elements that are added up may be characters. -/
  | summand {i : Instruction} {argc : Nat} {v : Value} {more : List Value} {f : Frame} {c : Cursor}
      {text : String} {pos : Nat} (placed : m.instruction? = some i) (hop : i.opcode = .call)
      (hcount : i.count = .ok argc)
      (popped : Frame.popCall argc (m.frame.fetching i) = .ok (.builtin .sum, v :: more) f)
      (iterated : v.iterate = .ok c)
      (comesBy : Relation.ReflTransGen Cursor.StepsTo c (.chars text pos)) :
      Accesses m (.text text pos)

end Machine

theorem Cursor.satisfies_of_stepsTo {K : Criterion} {c next : Cursor} (h : c.Satisfies K)
    (steps : Relation.ReflTransGen StepsTo c next) : next.Satisfies K := by
  induction steps with
  | refl => exact h
  | tail _ last ih =>
    obtain ⟨item, advanced⟩ := last
    exact (satisfies_of_advance ih advanced).2

theorem Frame.satisfies_of_popCall {K : Criterion} {argc : Nat} {f f' : Frame} {callee : Value}
    {args : List Value} (h : ∀ v ∈ f.stack, v.Satisfies K)
    (popped : popCall argc f = .ok (callee, args) f') : ∀ v ∈ args, v.Satisfies K := by
  rcases popCall_cases argc f with ⟨-, hpop⟩ | ⟨-, hpop⟩ | ⟨callee', args', rest, finds, hpop⟩
  · rw [hpop] at popped
    cases popped
  · rw [hpop] at popped
    cases popped
  · rw [hpop] at popped
    cases popped
    exact (finds.satisfies h).2.1

namespace Machine

variable {m m' : Machine}

/-- Where everything is well formed no access goes out of bounds. -/
theorem Accesses.inBounds {access : Access} (accesses : m.Accesses access)
    (h : m.Satisfies .wellFormed) : access.InBounds := by
  cases accesses with
  | header placed hop guard => exact List.length_pos_of_ne_nil guard
  | element placed hop taken =>
    have hstack := h.frame.stack
    rw [taken, List.forall_mem_cons, Value.satisfies_iterator_iff] at hstack
    exact hstack.1.own
  | arguments placed hop hcount guard => exact Nat.le_of_succ_le guard
  | parameters enters =>
    obtain ⟨i, placed, effect⟩ := effect_of_enter enters
    have hcallee := (h.of_effect placed effect).2
    exact hcallee.code.own.argcount_le
  | argument placed hop hcount popped hb guard =>
    rintro rfl
    simp only [List.mem_cons, List.not_mem_nil, or_false] at hb
    rcases hb with rfl | rfl | rfl <;> exact absurd guard (by decide)
  | summand placed hop hcount popped iterated comesBy =>
    have hargs := Frame.satisfies_of_popCall (f := m.frame.fetching _) h.frame.stack popped
    have hc := (Value.iterate_yields (hargs _ List.mem_cons_self)).of_eq_ok iterated
    exact (Cursor.satisfies_of_stepsTo hc comesBy).own

end Machine

/-! ## Sessions -/

/-- The engine and the frames in flight that a session comes to.  A run, too, consists of steps of a
frame: the states in the middle of it are those that the frame comes to when it is opened and
stepped.  Any frame may make the next step, also one that has been left or has failed. -/
inductive Session.Reaches (config : Config) (sink : Sink) : Engine → List Frame → Prop where
  | fresh : Reaches config sink (.fresh config sink) []
  /-- A program is loaded, to be stepped. -/
  | opened {e : Engine} {frames : List Frame} {text : String} {code : Code}
      (before : Reaches config sink e frames) (loaded : Code.load text = .ok code) :
      Reaches config sink e (.ofModule code :: frames)
  /-- A program is loaded and run to its end. -/
  | ran {e : Engine} {frames : List Frame} {text : String} {code : Code} {fuel : Nat}
      {outcome : Outcome} (before : Reaches config sink e frames)
      (loaded : Code.load text = .ok code) (run : Engine.run fuel code e = some outcome) :
      Reaches config sink (finalState outcome) frames
  /-- A frame makes a step, which may succeed, leave the frame or fail. -/
  | stepped {e : Engine} {above beneath : List Frame} {f : Frame} {fuel : Nat}
      {result : Machine.StepResult} (before : Reaches config sink e (above ++ f :: beneath))
      (step : Machine.step (Machine.execute fuel) ⟨e, f⟩ = some result) :
      Reaches config sink (finalState result).engine
        (above ++ (finalState result).frame :: beneath)
  /-- A frame is in the middle of a step, in which the body of a function is run. -/
  | entered {e : Engine} {above beneath : List Frame} {f callee : Frame} {m' : Machine}
      (before : Reaches config sink e (above ++ f :: beneath))
      (enters : Machine.advance ⟨e, f⟩ = .ok (.enter callee) m') :
      Reaches config sink m'.engine.entered (callee :: above ++ m'.frame :: beneath)

/-- Everything in the frame is well formed, and it is at a position of its code. -/
structure Frame.WellFormed (f : Frame) : Prop where
  contents : f.Satisfies .wellFormed
  inCode : f.InCode

/-- What a text is loaded as can be evaluated, up to sameness. -/
theorem Code.load_eq_of_same {text : String} {c : Code} (floatFree : c.isFloatFree)
    (same : (Code.load text).toOption.any c.same) : Code.load text = .ok c := by
  cases loaded : Code.load text with
  | error fault =>
    rw [loaded] at same
    cases same
  | ok found =>
    rw [loaded] at same
    have heq : c = found := (Code.same_iff_eq floatFree).1 same
    rw [heq]

theorem Code.satisfies_of_load {K : Criterion} (made : K.HoldsOfBuilt) {text : String} {c : Code}
    (loaded : Code.load text = .ok c) : c.Satisfies K := by
  unfold load ofJson at loaded
  split at loaded
  · split at loaded
    · next listing hlisting =>
      cases hbuild : listing.build with
      | ok c' =>
        rw [hbuild] at loaded
        cases loaded
        exact (Listing.build_yields made listing).of_eq_ok hbuild
      | error fault =>
        rw [hbuild] at loaded
        cases loaded
    · cases loaded
  · cases loaded

namespace Session

variable {config : Config} {sink : Sink} {e : Engine} {frames : List Frame}

/-- What a session comes to is well formed, before and in the middle of every step. -/
theorem Reaches.wellFormed (reaches : Reaches config sink e frames) :
    e.globals.Satisfies .wellFormed ∧ ∀ f ∈ frames, f.WellFormed := by
  induction reaches with
  | fresh => exact ⟨Environment.satisfies_empty, nofun⟩
  | opened before loaded ih =>
    obtain ⟨hglobals, hframes⟩ := ih
    have hcode := Code.satisfies_of_load Criterion.wellFormed_holdsOfBuilt loaded
    refine ⟨hglobals, List.forall_mem_cons.2 ⟨⟨Frame.satisfies_ofModule hcode, ?_⟩, hframes⟩⟩
    exact Nat.zero_le _
  | @ran e _ _ code fuel _ before loaded run ih =>
    obtain ⟨hglobals, hframes⟩ := ih
    obtain ⟨inner, hinner, rfl⟩ := Option.map_eq_some_iff.1 run
    have hcode := Code.satisfies_of_load Criterion.wellFormed_holdsOfBuilt loaded
    have hm : Machine.Satisfies .wellFormed ⟨e, .ofModule code⟩ :=
      ⟨hglobals, Frame.satisfies_ofModule hcode⟩
    rw [Engine.finalState_flushed]
    exact ⟨Outcome.Satisfies.globals ((Machine.runs_of_execute hinner).satisfies hm), hframes⟩
  | stepped before step ih =>
    obtain ⟨hglobals, hframes⟩ := ih
    simp only [List.forall_mem_append, List.forall_mem_cons] at hframes ⊢
    -- the other frames share the engine with the one that makes the step, and nothing else
    obtain ⟨habove, hf, hbeneath⟩ := hframes
    have h : Machine.Satisfies .wellFormed ⟨_, _⟩ := ⟨hglobals, hf.contents⟩
    have hm := h.step step
    have hpc := Machine.inCode_of_step h.frame.code.own hf.inCode step
    exact ⟨hm.globals, habove, ⟨hm.frame, hpc⟩, hbeneath⟩
  | entered before enters ih =>
    obtain ⟨hglobals, hframes⟩ := ih
    simp only [List.cons_append, List.forall_mem_append, List.forall_mem_cons] at hframes ⊢
    obtain ⟨habove, hf, hbeneath⟩ := hframes
    obtain ⟨i, placed, effect⟩ := Machine.effect_of_enter enters
    have h : Machine.Satisfies .wellFormed ⟨_, _⟩ := ⟨hglobals, hf.contents⟩
    obtain ⟨hm, hcallee⟩ := h.of_effect placed effect
    obtain ⟨hpc, hcalleePc⟩ := effect.inCode hf.contents.code.own (Machine.inCode_fetching placed)
    exact ⟨hm.globals, ⟨hcallee, hcalleePc _ rfl⟩, habove, ⟨hm.frame, hpc⟩, hbeneath⟩

/-- In every state of a session that begins with a fresh engine, in the middle of steps too, all
code, ranges and cursors in global names and frames are well formed, every frame is at a position
of its code, and no access that its next step makes goes out of bounds. -/
theorem wellFormed_of_reaches (reaches : Reaches config sink e frames) :
    e.globals.Satisfies .wellFormed ∧
      ∀ f ∈ frames, f.Satisfies .wellFormed ∧ f.pc ≤ f.code.instructions.length ∧
        ∀ access, Machine.Accesses ⟨e, f⟩ access → access.InBounds := by
  obtain ⟨hglobals, hframes⟩ := reaches.wellFormed
  refine ⟨hglobals, fun f hf => ?_⟩
  obtain ⟨hcontents, hpc⟩ := hframes f hf
  have hm : Machine.Satisfies .wellFormed ⟨e, f⟩ := ⟨hglobals, hcontents⟩
  exact ⟨hcontents, hpc, fun access accesses => accesses.inBounds hm⟩

/-- A program that is loaded and stepped until a loop header looks at a text. -/
theorem wellFormed_of_reaches_forIter :
    ∃ e f, Reaches .standard .unlimited e [f] ∧ f.stack = [.iterator (.chars "é" 0)] ∧
      f.Satisfies .wellFormed ∧ f.pc ≤ f.code.instructions.length ∧
      Machine.Accesses ⟨e, f⟩ (.text "é" 0) ∧ Access.InBounds (.text "é" 0) := by
  let e : Engine := .fresh .standard .unlimited
  let is : List Instruction := [⟨0, .loadConst, none, some (.str "é")⟩, .bare 2 .getIter,
    .bare 4 .forIter]
  let code : Code := ⟨"m", 0, [], is, ⟨[(0, 0), (2, 1), (4, 2)]⟩⟩
  let f₁ : Frame := ⟨code, 1, [.str "é"], none, is[0]?⟩
  let f₂ : Frame := ⟨code, 2, [.iterator (.chars "é" 0)], none, is[1]?⟩
  have loaded : Code.load
      "[\"m\",0,[],[[0,\"LOAD_CONST\",null,\"é\"],[2,\"GET_ITER\"],[4,\"FOR_ITER\"]]]" =
      .ok code := by
    refine Code.load_eq_of_same rfl ?_
    simp only [code, is]
    decide +kernel
  have first : Machine.step (Machine.execute 0) ⟨e, .ofModule code⟩ = some (.ok none ⟨e, f₁⟩) := rfl
  have second : Machine.step (Machine.execute 0) ⟨e, f₁⟩ = some (.ok none ⟨e, f₂⟩) := rfl
  have opened : Reaches .standard .unlimited e ([] ++ .ofModule code :: []) := .opened .fresh loaded
  have constant : Reaches .standard .unlimited e ([] ++ f₁ :: []) := .stepped opened first
  have reaches : Reaches .standard .unlimited e [f₂] := .stepped constant second
  obtain ⟨hcontents, hpc, inBounds⟩ := (wellFormed_of_reaches reaches).2 f₂ List.mem_cons_self
  have looks : Machine.Accesses ⟨e, f₂⟩ (.text "é" 0) := .element rfl rfl rfl
  exact ⟨e, f₂, reaches, rfl, hcontents, hpc, looks, inBounds _ looks⟩

end Session

end Bytecode
