import Bytecode.Listing
import Bytecode.Proofs.Contents
import Bytecode.Proofs.Expression

set_option autoImplicit false

/-!
# Results of computations

Reading the operand of an instruction, finding a name, resolving a jump, and everything that
computes with values gives a result or a fault.  `Yields` says of such a computation that its
result has a property, and also that it does not fail for want of operands, which only the
operations of a frame do, or for too many calls, which only the entry of a function does.  Of
what gives values the property is that they satisfy a criterion if those do that they are made of.

Main statements: `Operator.apply_yields`, `Builtin.result_yields` and `Listing.build_yields`.
-/

namespace Bytecode

/-- Whether computations with values may fail with a fault of this group. -/
def Category.ofValues : Category → Bool
  | .stackUnderflow | .recursionLimit => false
  | _ => true

/-- The fault is neither that of too few operands nor that of too many calls. -/
def Fault.OfValues (fault : Fault) : Prop :=
  fault.category.ofValues = true

namespace Fault.OfValues

variable {fault : Fault}

theorem ne_stackUnderflow (h : fault.OfValues) : fault.category ≠ .stackUnderflow := by
  intro heq
  rw [OfValues, heq] at h
  cases h

theorem ne_recursionLimit (h : fault.OfValues) : fault.category ≠ .recursionLimit := by
  intro heq
  rw [OfValues, heq] at h
  cases h

end Fault.OfValues

/-- The result has the property; a fault is neither that of too few operands nor that of too many
calls. -/
def Yields {α : Type} (P : α → Prop) : Except Fault α → Prop
  | .ok a => P a
  | .error fault => fault.OfValues

namespace Yields

variable {α β : Type} {P : α → Prop} {Q : β → Prop}

theorem of_eq_ok {result : Except Fault α} (h : Yields P result) {a : α} (hok : result = .ok a) :
    P a := by
  subst hok
  exact h

theorem of_eq_error {result : Except Fault α} (h : Yields P result) {fault : Fault}
    (herror : result = .error fault) : fault.OfValues := by
  subst herror
  exact h

theorem ok {a : α} (h : P a) : Yields P (.ok a) := h

theorem error {fault : Fault} (h : fault.OfValues) : Yields P (.error fault) := h

theorem bind {result : Except Fault β} {next : β → Except Fault α} (first : Yields Q result)
    (rest : ∀ b, Q b → Yields P (next b)) : Yields P (result >>= next) := by
  cases result with
  | error fault => exact first
  | ok b => exact rest b first

theorem map {result : Except Fault β} {f : β → α} (h : Yields Q result)
    (rest : ∀ b, Q b → P (f b)) : Yields P (result.map f) := by
  cases result with
  | error fault => exact h
  | ok b => exact rest b h

end Yields

open Yields

variable {K : Criterion}

/-! ## Operands of an instruction -/

namespace Instruction

variable (i : Instruction)

theorem count_yields : Yields (fun _ => True) i.count := by
  unfold count
  split
  · exact ok trivial
  · exact error rfl

theorem name_yields : Yields (fun _ => True) i.name := by
  unfold name
  split
  · exact ok trivial
  · exact error rfl

theorem namePair_yields : Yields (fun _ => True) i.namePair := by
  unfold namePair
  split
  · exact ok trivial
  · exact error rfl

theorem symbol_yields : Yields (fun _ => True) i.symbol := by
  unfold symbol
  split
  · exact ok trivial
  · exact error rfl

theorem jumpTarget_yields : Yields (fun _ => True) i.jumpTarget := by
  unfold jumpTarget
  split
  · split
    · exact ok trivial
    · exact error rfl
  · exact error rfl

end Instruction

/-! ## Jumps, names and functions -/

namespace Code

variable (c : Code) (i : Instruction)

theorem resolveJump_yields : Yields (fun _ => True) (c.resolveJump i) := by
  refine bind i.jumpTarget_yields fun target _ => ?_
  split
  · exact ok trivial
  · exact error rfl

theorem loopEnd_yields : Yields (fun _ => True) (c.loopEnd i) :=
  (c.resolveJump_yields i).map fun _ _ => trivial

end Code

theorem Engine.global_yields {e : Engine} (h : e.globals.Satisfies K) (x : String) :
    Yields (Value.Satisfies K) (e.global x) := by
  unfold global
  split
  · next v found => exact ok (h x v found)
  · split
    · exact ok (.builtin _)
    · exact error rfl

theorem Frame.Satisfies.local? {f : Frame} (h : f.Satisfies K) {x : String} {v : Value}
    (found : f.local? x = some v) : v.Satisfies K := by
  obtain ⟨env, henv, hv⟩ := Option.bind_eq_some_iff.1 found
  exact h.locals env henv x v hv

theorem Machine.lookup_yields {m : Machine} (h : m.Satisfies K) (x : String) :
    Yields (Value.Satisfies K) (m.lookup x) := by
  unfold lookup
  split
  · next v found => exact ok (h.frame.local? found)
  · exact Engine.global_yields h.globals x

theorem Engine.satisfies_of_calleeFrame {e : Engine} {c : Code} {args : List Value} {callee : Frame}
    (hc : c.Satisfies K) (hargs : ∀ v ∈ args, v.Satisfies K)
    (entered : e.calleeFrame c args = .ok callee) : callee.Satisfies K := by
  unfold calleeFrame at entered
  split at entered
  · cases entered
  · split at entered
    · cases entered
    · cases entered
      refine ⟨hc, nofun, ?_, nofun⟩
      rintro _ ⟨⟩
      refine Environment.satisfies_ofList fun binding hbinding => ?_
      exact hargs _ (List.of_mem_zip hbinding).2

/-! ## Operators -/

theorem repeatCount_yields (count : Int64) (size : Nat) :
    Yields (fun _ => True) (repeatCount count size) := by
  simp only [repeatCount]
  split
  · exact ok trivial
  · exact error rfl

theorem repeatItems_satisfy {items : List Value} (all : ∀ v ∈ items, v.Satisfies K) (times : Nat) :
    ∀ v ∈ repeatItems items times, v.Satisfies K := by
  unfold repeatItems
  split
  · exact List.forall_mem_nil _
  · intro v hv
    obtain ⟨items', hitems', hmem⟩ := List.mem_flatten.1 hv
    rw [List.eq_of_mem_replicate hitems'] at hmem
    exact all v hmem

namespace Operator

theorem repeatTextValue_yields (text : String) (count : Int64) :
    Yields (Value.Satisfies K) (repeatTextValue text count) :=
  bind (repeatCount_yields _ _) fun _ _ => ok (.str _)

theorem repeatTupleValue_yields {items : List Value} (all : ∀ v ∈ items, v.Satisfies K)
    (count : Int64) : Yields (Value.Satisfies K) (repeatTupleValue items count) :=
  bind (repeatCount_yields _ _) fun times _ => ok (.tuple (repeatItems_satisfy all times))

theorem onNumber_yields (op : Operator) (a b : Number) :
    Yields (Value.Satisfies K) (op.onNumber a b) := by
  unfold onNumber
  split
  · split
    · exact ok (.int _)
    · exact error rfl
  · exact ok (.float _)

theorem onSequence_yields (op : Operator) {left right : Value} (hleft : left.Satisfies K)
    (hright : right.Satisfies K) : Yields (Value.Satisfies K) (op.onSequence left right) := by
  unfold onSequence
  split
  · exact ok (.str _)
  · rw [Value.satisfies_tuple_iff] at hleft hright
    exact ok (.tuple (List.forall_mem_append.2 ⟨hleft, hright⟩))
  · exact repeatTextValue_yields _ _
  · exact repeatTextValue_yields _ _
  · exact repeatTupleValue_yields (Value.satisfies_tuple_iff.1 hleft) _
  · exact repeatTupleValue_yields (Value.satisfies_tuple_iff.1 hright) _
  · exact error rfl

theorem apply_yields (op : Operator) {left right : Value} (hleft : left.Satisfies K)
    (hright : right.Satisfies K) : Yields (Value.Satisfies K) (op.apply left right) := by
  unfold apply
  split
  · exact op.onNumber_yields _ _
  · exact op.onSequence_yields hleft hright

end Operator

theorem Comparator.apply_yields (c : Comparator) (left right : Value) :
    Yields (Value.Satisfies K) (c.apply left right) := by
  unfold apply
  split
  · exact ok (.bool _)
  · exact ok (.bool _)
  all_goals
    split
    · exact ok (.bool _)
    · exact error rfl

theorem Operation.apply_yields (op : Operation) {left right : Value} (hleft : left.Satisfies K)
    (hright : right.Satisfies K) : Yields (Value.Satisfies K) (op.apply left right) := by
  unfold apply
  split
  · split
    · exact Operator.apply_yields _ hleft hright
    · exact error rfl
  · split
    · exact Comparator.apply_yields _ _ _
    · exact error rfl

/-! ## Iteration -/

theorem Value.iterate_yields {v : Value} (h : v.Satisfies K) :
    Yields (Cursor.Satisfies K) v.iterate := by
  cases h with
  | range own => exact ok (.range (K.cursor_of_range own))
  | tuple all => exact ok (.items (K.cursor_of_items _) all)
  | str text => exact ok (.chars (K.cursor_of_chars text))
  | iterator all => exact ok all
  | _ => exact error rfl

namespace Cursor

theorem satisfies_of_advance {c next : Cursor} {item : Value} (h : c.Satisfies K)
    (advanced : c.advance = some (item, next)) : item.Satisfies K ∧ next.Satisfies K := by
  have own := K.cursor_of_advance h.own advanced
  cases h with
  | range =>
    simp only [advance] at advanced
    split at advanced
    · cases advanced
      exact ⟨.int _, .range own⟩
    · cases advanced
  | items _ all =>
    obtain ⟨v, hv, heq⟩ := Option.map_eq_some_iff.1 advanced
    cases heq
    exact ⟨all _ (List.mem_of_getElem? hv), .items own all⟩
  | chars =>
    obtain ⟨ch, -, heq⟩ := Option.map_eq_some_iff.1 advanced
    cases heq
    exact ⟨.str _, .chars own⟩

theorem addUpTo_yields (limit : Nat) {c : Cursor} {total : Value} (hc : c.Satisfies K)
    (htotal : total.Satisfies K) : Yields (Value.Satisfies K) (c.addUpTo limit total) := by
  induction limit generalizing c total with
  | zero => exact ok htotal
  | succ limit ih =>
    unfold addUpTo
    split
    · exact ok htotal
    · next item next advanced =>
      obtain ⟨hitem, hnext⟩ := satisfies_of_advance hc advanced
      have added := Operator.add.apply_yields htotal hitem
      split
      · next sum hsum => exact ih hnext (added.of_eq_ok hsum)
      · next fault hfault => exact error (added.of_eq_error hfault)

end Cursor

/-! ## Builtin functions -/

namespace Builtin

theorem rangeArgument_yields (v : Value) : Yields (fun _ => True) (rangeArgument v) := by
  cases v with
  | int n => exact ok trivial
  | bool b => exact ok trivial
  | _ => exact error rfl

theorem rangeResult_yields (start stop step : Int64) :
    Yields (Value.Satisfies K) (rangeResult start stop step) := by
  unfold rangeResult
  split
  · exact error rfl
  · next hstep => exact ok (.range (K.range_of_step hstep))

theorem lenResult_yields (v : Value) : Yields (Value.Satisfies K) (lenResult v) := by
  unfold lenResult
  split
  · exact error rfl
  · split
    · exact ok (.int _)
    · exact error rfl

theorem intResult_yields (v : Value) : Yields (Value.Satisfies K) (intResult v) := by
  unfold intResult
  split
  · exact ok (.int _)
  · exact ok (.int _)
  · split
    · exact ok (.int _)
    · exact error rfl
  · split
    · exact ok (.int _)
    · exact error rfl
  · exact error rfl

theorem absResult_yields (v : Value) : Yields (Value.Satisfies K) (absResult v) := by
  unfold absResult
  split
  · split
    · exact ok (.int _)
    · exact error rfl
  · exact ok (.int _)
  · exact ok (.float _)
  · exact error rfl

theorem sumResult_yields {v start : Value} (hv : v.Satisfies K) (hstart : start.Satisfies K) :
    Yields (Value.Satisfies K) (sumResult v start) :=
  bind (Value.iterate_yields hv) fun c hc => c.addUpTo_yields _ hc hstart

theorem result_yields (b : Builtin) {args : List Value} (hargs : ∀ v ∈ args, v.Satisfies K) :
    Yields (Value.Satisfies K) (b.result args) := by
  unfold result
  split
  · exact ok .none
  · exact bind (rangeArgument_yields _) fun stop _ => rangeResult_yields 0 stop 1
  · exact bind (rangeArgument_yields _) fun start _ =>
      bind (rangeArgument_yields _) fun stop _ => rangeResult_yields start stop 1
  · exact bind (rangeArgument_yields _) fun start _ =>
      bind (rangeArgument_yields _) fun stop _ =>
        bind (rangeArgument_yields _) fun step _ => rangeResult_yields start stop step
  · exact lenResult_yields _
  · exact ok (.str _)
  · exact ok (.str _)
  · exact ok (.int _)
  · exact intResult_yields _
  · exact absResult_yields _
  · exact sumResult_yields (hargs _ (by simp)) (.int 0)
  · exact sumResult_yields (hargs _ (by simp)) (hargs _ (by simp))
  · exact error rfl

section Call

variable {b : Builtin} {args : List Value} {sink sink' : Sink}

/-- A call that succeeds gives the value of its result and has written everything. -/
theorem of_call_eq_ok {v : Value} (called : b.call args sink = .ok v sink') :
    b.result args = .ok v ∧ sink' = sink.append (b.written args) := by
  rw [call_eq] at called
  split at called
  · cases called
  · cases hresult : b.result args with
    | ok w =>
      rw [hresult] at called
      cases called
      exact ⟨rfl, rfl⟩
    | error fault =>
      rw [hresult] at called
      cases called

/-- A call fails with the fault of its sink or with that of its result. -/
theorem of_call_eq_error {fault : Fault} (called : b.call args sink = .error fault sink') :
    (fault = .output .full ∨ b.result args = .error fault) ∧
      sink' = sink.append (b.written args) := by
  rw [call_eq] at called
  split at called
  · cases called
    exact ⟨.inl rfl, rfl⟩
  · cases hresult : b.result args with
    | ok w =>
      rw [hresult] at called
      cases called
    | error cause =>
      rw [hresult] at called
      cases called
      exact ⟨.inr rfl, rfl⟩

theorem satisfies_of_call (hargs : ∀ v ∈ args, v.Satisfies K) {v : Value}
    (called : b.call args sink = .ok v sink') : v.Satisfies K :=
  (b.result_yields hargs).of_eq_ok (of_call_eq_ok called).1

theorem ofValues_of_call {fault : Fault} (called : b.call args sink = .error fault sink') :
    fault.OfValues := by
  rcases (of_call_eq_error called).1 with rfl | hresult
  · rfl
  · exact (b.result_yields (Value.all_satisfy_any args)).of_eq_error hresult

end Call

end Builtin

/-! ## Listings -/

/-- The criterion asks nothing of code that it does not have from the beginning. -/
def Criterion.HoldsOfBuilt (K : Criterion) : Prop :=
  ∀ {name argcount varnames instructions c},
    Code.ofInstructions name argcount varnames instructions = .ok c → K.code c

theorem Code.ofInstructions_yields (made : K.HoldsOfBuilt) (name : String) (argcount : Nat)
    (varnames : List String) {instructions : List Instruction}
    (all : ∀ i ∈ instructions, i.Satisfies K) :
    Yields (Code.Satisfies K) (ofInstructions name argcount varnames instructions) := by
  cases h : ofInstructions name argcount varnames instructions with
  | ok c =>
    obtain ⟨-, index, -, rfl⟩ := ofInstructions_eq_ok_iff.1 h
    exact ok (.mk (made h) all)
  | error fault =>
    refine error ?_
    unfold ofInstructions at h
    split at h
    · cases h
      rfl
    · split at h
      · cases h
      · cases h
        rfl

mutual

theorem Listing.build_yields (made : K.HoldsOfBuilt) :
    ∀ l : Listing, Yields (Code.Satisfies K) l.build
  | ⟨name, argcount, varnames, records⟩ => by
    rw [Listing.build]
    exact bind (Record.buildAll_yields made records) fun is his =>
      Code.ofInstructions_yields made name argcount varnames his
termination_by structural l => l

theorem Record.build_yields (made : K.HoldsOfBuilt) :
    ∀ r : Record, Yields (Instruction.Satisfies K) r.build
  | ⟨offset, opname, arg, argval⟩ => by
    rw [Record.build]
    split
    · exact error rfl
    · exact bind (Literal.buildOption_yields made argval) fun v hv => ok (.mk hv)
termination_by structural r => r

theorem Record.buildAll_yields (made : K.HoldsOfBuilt) :
    ∀ rs : List Record, Yields (∀ i ∈ ·, Instruction.Satisfies K i) (Record.buildAll rs)
  | [] => by
    rw [Record.buildAll]
    exact ok nofun
  | r :: rest => by
    rw [Record.buildAll]
    exact bind (Record.build_yields made r) fun i hi =>
      bind (Record.buildAll_yields made rest) fun is his => ok (List.forall_mem_cons.2 ⟨hi, his⟩)
termination_by structural rs => rs

theorem Literal.build_yields (made : K.HoldsOfBuilt) :
    ∀ l : Literal, Yields (Value.Satisfies K) l.build
  | .none => ok .none
  | .bool b => ok (.bool b)
  | .int n => ok (.int n)
  | .float x => ok (.float x)
  | .str text => ok (.str text)
  | .tuple items => by
    rw [Literal.build]
    exact bind (Literal.buildAll_yields made items) fun vs hvs => ok (.tuple hvs)
  | .code listing => by
    rw [Literal.build]
    exact bind (Listing.build_yields made listing) fun c hc => ok (.code hc)
termination_by structural l => l

theorem Literal.buildAll_yields (made : K.HoldsOfBuilt) :
    ∀ ls : List Literal, Yields (∀ v ∈ ·, Value.Satisfies K v) (Literal.buildAll ls)
  | [] => by
    rw [Literal.buildAll]
    exact ok nofun
  | l :: rest => by
    rw [Literal.buildAll]
    exact bind (Literal.build_yields made l) fun v hv =>
      bind (Literal.buildAll_yields made rest) fun vs hvs => ok (List.forall_mem_cons.2 ⟨hv, hvs⟩)
termination_by structural ls => ls

theorem Literal.buildOption_yields (made : K.HoldsOfBuilt) :
    ∀ l : Option Literal, Yields (∀ v ∈ ·, Value.Satisfies K v) (Literal.buildOption l)
  | Option.none => by
    rw [Literal.buildOption]
    exact ok nofun
  | some l => by
    rw [Literal.buildOption]
    refine bind (Literal.build_yields made l) fun v hv => ok ?_
    rintro _ ⟨⟩
    exact hv
termination_by structural l => l

end

end Bytecode
