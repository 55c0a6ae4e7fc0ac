import Bytecode.Machine.Basic

set_option autoImplicit false

/-!
# What values are made of

Values hold code objects, ranges and cursors, directly, in tuples, in the items of a cursor or
in the operands of instructions.  A `Criterion` asks something of all of these, and a value
satisfies it if all of its parts do; an environment, a frame or a machine, if everything in it
does.  What a criterion asks of a cursor has to survive that the cursor is stepped; code objects
are never made while code is run.

Main statements: `Environment.Satisfies.set` and `Environment.satisfies_ofList`, what is bound
satisfies the criterion if it did before.
-/

namespace Bytecode

/-- What is asked of the parts of a value, such that everything that is made of parts that have it
has it too. -/
structure Criterion where
  code : Code → Prop
  range : Range → Prop
  cursor : Cursor → Prop
  range_of_step : ∀ {r : Range}, r.step ≠ 0 → range r
  cursor_of_range : ∀ {r : Range}, range r → cursor (.range r.start r.stop r.step)
  cursor_of_items : ∀ items : List Value, cursor (.items items 0)
  cursor_of_chars : ∀ text : String, cursor (.chars text 0)
  cursor_of_advance : ∀ {c next : Cursor} {item : Value},
    cursor c → c.advance = some (item, next) → cursor next

mutual

/-- All parts of the value satisfy the criterion. -/
inductive Value.Satisfies (K : Criterion) : Value → Prop where
  | none : Value.Satisfies K .none
  | null : Value.Satisfies K .null
  | bool (b : Bool) : Value.Satisfies K (.bool b)
  | int (n : Int64) : Value.Satisfies K (.int n)
  | float (x : Float) : Value.Satisfies K (.float x)
  | str (text : String) : Value.Satisfies K (.str text)
  | tuple {items : List Value} (all : ∀ v ∈ items, Value.Satisfies K v) :
      Value.Satisfies K (.tuple items)
  | range {r : Range} (own : K.range r) : Value.Satisfies K (.range r)
  | builtin (b : Builtin) : Value.Satisfies K (.builtin b)
  | code {c : Code} (all : Code.Satisfies K c) : Value.Satisfies K (.code c)
  | function {c : Code} (all : Code.Satisfies K c) : Value.Satisfies K (.function c)
  | iterator {c : Cursor} (all : Cursor.Satisfies K c) : Value.Satisfies K (.iterator c)

inductive Cursor.Satisfies (K : Criterion) : Cursor → Prop where
  | range {next stop step : Int64} (own : K.cursor (.range next stop step)) :
      Cursor.Satisfies K (.range next stop step)
  | items {items : List Value} {pos : Nat} (own : K.cursor (.items items pos))
      (all : ∀ v ∈ items, Value.Satisfies K v) : Cursor.Satisfies K (.items items pos)
  | chars {text : String} {pos : Nat} (own : K.cursor (.chars text pos)) :
      Cursor.Satisfies K (.chars text pos)

inductive Code.Satisfies (K : Criterion) : Code → Prop where
  | mk {c : Code} (own : K.code c) (all : ∀ i ∈ c.instructions, Instruction.Satisfies K i) :
      Code.Satisfies K c

inductive Instruction.Satisfies (K : Criterion) : Instruction → Prop where
  | mk {i : Instruction} (all : ∀ v ∈ i.argval, Value.Satisfies K v) : Instruction.Satisfies K i

end

variable {K : Criterion}

/-! ## Parts -/

namespace Value

@[simp] theorem satisfies_tuple_iff {items : List Value} :
    (tuple items).Satisfies K ↔ ∀ v ∈ items, v.Satisfies K :=
  ⟨fun | .tuple all => all, .tuple⟩

@[simp] theorem satisfies_code_iff {c : Code} : (code c).Satisfies K ↔ c.Satisfies K :=
  ⟨fun | .code all => all, .code⟩

@[simp] theorem satisfies_function_iff {c : Code} : (function c).Satisfies K ↔ c.Satisfies K :=
  ⟨fun | .function all => all, .function⟩

@[simp] theorem satisfies_iterator_iff {c : Cursor} : (iterator c).Satisfies K ↔ c.Satisfies K :=
  ⟨fun | .iterator all => all, .iterator⟩

end Value

theorem Cursor.Satisfies.own {c : Cursor} : c.Satisfies K → K.cursor c
  | .range own | .items own _ | .chars own => own

theorem Code.Satisfies.own {c : Code} : c.Satisfies K → K.code c
  | .mk own _ => own

theorem Code.Satisfies.instructions {c : Code} : c.Satisfies K → ∀ i ∈ c.instructions, i.Satisfies K
  | .mk _ all => all

theorem Instruction.Satisfies.constant {i : Instruction} (h : i.Satisfies K) :
    i.constant.Satisfies K := by
  obtain ⟨all⟩ := h
  unfold Instruction.constant
  cases hv : i.argval with
  | none => exact .none
  | some v => exact all v hv

/-! ## Environments, frames and machines -/

/-- What is bound satisfies the criterion. -/
def Environment.Satisfies (K : Criterion) (env : Environment) : Prop :=
  ∀ x v, env.get? x = some v → v.Satisfies K

namespace Environment

theorem satisfies_empty : empty.Satisfies K := nofun

theorem Satisfies.set {env : Environment} (h : env.Satisfies K) (x : String) {v : Value}
    (hv : v.Satisfies K) : (env.set x v).Satisfies K := by
  intro y w hw
  by_cases hy : y = x
  · rw [hy, get?_set_self] at hw
    cases hw
    exact hv
  · rw [get?_set_of_ne hy] at hw
    exact h y w hw

theorem satisfies_ofList {bindings : List (String × Value)}
    (all : ∀ binding ∈ bindings, binding.2.Satisfies K) : (ofList bindings).Satisfies K := by
  have hfold : ∀ (bindings : List (String × Value)) (env : Environment), env.Satisfies K →
      (∀ binding ∈ bindings, binding.2.Satisfies K) →
      (bindings.foldl (fun env binding => env.set binding.1 binding.2) env).Satisfies K := by
    intro bindings
    induction bindings with
    | nil => exact fun env h _ => h
    | cons binding rest ih =>
      intro env h all
      obtain ⟨hbinding, hrest⟩ := List.forall_mem_cons.1 all
      exact ih _ (h.set binding.1 hbinding) hrest
  exact hfold bindings empty satisfies_empty all

end Environment

/-- Everything in the frame satisfies the criterion. -/
structure Frame.Satisfies (K : Criterion) (f : Frame) : Prop where
  code : f.code.Satisfies K
  stack : ∀ v ∈ f.stack, v.Satisfies K
  locals : ∀ env ∈ f.locals, env.Satisfies K
  current : ∀ i ∈ f.current, i.Satisfies K

theorem Frame.satisfies_ofModule {c : Code} (h : c.Satisfies K) :
    (Frame.ofModule c).Satisfies K :=
  ⟨h, nofun, nofun, nofun⟩

/-- Everything that the machine works on satisfies the criterion. -/
structure Machine.Satisfies (K : Criterion) (m : Machine) : Prop where
  globals : m.engine.globals.Satisfies K
  frame : m.frame.Satisfies K

/-! ## Criteria that ask nothing of ranges and cursors -/

/-- Something is asked of code objects only. -/
def Criterion.ofCode (P : Code → Prop) : Criterion where
  code := P
  range _ := True
  cursor _ := True
  range_of_step _ := trivial
  cursor_of_range _ := trivial
  cursor_of_items _ := trivial
  cursor_of_chars _ := trivial
  cursor_of_advance _ _ := trivial

/-- Nothing is asked. -/
def Criterion.any : Criterion where
  code _ := True
  range _ := True
  cursor _ := True
  range_of_step _ := trivial
  cursor_of_range _ := trivial
  cursor_of_items _ := trivial
  cursor_of_chars _ := trivial
  cursor_of_advance _ _ := trivial

mutual

theorem Value.satisfies_any : ∀ v : Value, v.Satisfies .any
  | .none => .none
  | .null => .null
  | .bool b => .bool b
  | .int n => .int n
  | .float x => .float x
  | .str text => .str text
  | .tuple items => .tuple (Value.all_satisfy_any items)
  | .range _ => .range trivial
  | .builtin b => .builtin b
  | .code c => .code (Code.satisfies_any c)
  | .function c => .function (Code.satisfies_any c)
  | .iterator c => .iterator (Cursor.satisfies_any c)
termination_by structural v => v

theorem Value.all_satisfy_any : ∀ vs : List Value, ∀ v ∈ vs, v.Satisfies .any
  | [] => nofun
  | v :: rest => List.forall_mem_cons.2 ⟨Value.satisfies_any v, Value.all_satisfy_any rest⟩
termination_by structural vs => vs

theorem Cursor.satisfies_any : ∀ c : Cursor, c.Satisfies .any
  | .range _ _ _ => .range trivial
  | .items items _ => .items trivial (Value.all_satisfy_any items)
  | .chars _ _ => .chars trivial
termination_by structural c => c

theorem Code.satisfies_any : ∀ c : Code, c.Satisfies .any
  | ⟨_, _, _, instructions, _⟩ => .mk trivial (Instruction.all_satisfy_any instructions)
termination_by structural c => c

theorem Instruction.satisfies_any : ∀ i : Instruction, i.Satisfies .any
  | ⟨_, _, _, argval⟩ => .mk (Value.option_satisfies_any argval)
termination_by structural i => i

theorem Instruction.all_satisfy_any : ∀ is : List Instruction, ∀ i ∈ is, i.Satisfies .any
  | [] => nofun
  | i :: rest =>
    List.forall_mem_cons.2 ⟨Instruction.satisfies_any i, Instruction.all_satisfy_any rest⟩
termination_by structural is => is

theorem Value.option_satisfies_any : ∀ o : Option Value, ∀ v ∈ o, v.Satisfies .any
  | Option.none => nofun
  | some v => by
    rintro _ ⟨⟩
    exact Value.satisfies_any v
termination_by structural o => o

end

theorem Environment.satisfies_any (env : Environment) : env.Satisfies .any :=
  fun _ v _ => v.satisfies_any

theorem Machine.satisfies_any (m : Machine) : m.Satisfies .any where
  globals := m.engine.globals.satisfies_any
  frame :=
    { code := m.frame.code.satisfies_any
      stack := Value.all_satisfy_any m.frame.stack
      locals := fun env _ => env.satisfies_any
      current := fun i _ => i.satisfies_any }

end Bytecode
