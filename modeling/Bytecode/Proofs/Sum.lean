import Bytecode.Proofs.Binding
import Bytecode.Proofs.Elements
import Bytecode.Proofs.Loop
import Bytecode.Proofs.Termination
import Mathlib.Algebra.Ring.Int.Defs

set_option autoImplicit false

/-!
# Sums

The builtin `sum` adds the elements that a cursor has left to a total, in their order, and stops at
the first addition that fails: it is a fold.  A loop in code that keeps its total in a global name
computes the same fold, one element in every round, with the cursor on the stack.

`Code.EndsAt` says how code at the top level ends from some position on, and has a rule for each
instruction of the loop, so that a run is followed from its end backwards.

Main statements: `Code.SumsUp.endsAt_header`, what is left of the loop ends as the fold does over
what is left of the elements, and `Builtin.sum_laws`.
-/

namespace Bytecode

/-! ## The builtin -/

namespace Builtin

/-- A sum is a fold over the elements of its argument. -/
theorem result_sum (v start : Value) :
    sum.result [v, start] =
      v.iterate >>= fun c => c.left.foldlM Operator.add.apply start := by
  have hsum : ∀ c : Cursor, c.addTo start = c.left.foldlM Operator.add.apply start :=
    fun c => Cursor.addUpTo_eq_foldlM (Nat.le_refl _) start
  rw [result, sumResult]
  exact congrArg (v.iterate >>= ·) (funext hsum)

theorem result_sum_tuple (items : List Value) (start : Value) :
    sum.result [.tuple items, start] = items.foldlM Operator.add.apply start := by
  have hleft : (Cursor.items items 0).left = items := Cursor.left_items [] items
  have hsum : sum.result [.tuple items, start] =
      (Cursor.items items 0).left.foldlM Operator.add.apply start := result_sum _ _
  rw [hsum, hleft]

end Builtin

/-! ## The loop -/

/-- At a position stands an instruction with this opcode and such operands. -/
def Code.Places (c : Code) (pc : Nat) (opcode : Opcode) (operands : Instruction → Prop) : Prop :=
  ∃ i, c.instructions[pc]? = some i ∧ i.opcode = opcode ∧ operands i

/-- The code binds `x` to each element of `v` and adds that to the global name `total`, which it
returns in the end. -/
structure Code.SumsUp (c : Code) (v : Value) (x total : String) : Prop where
  iterable : c.Places 0 .loadConst (·.constant = v)
  iterator : c.Places 1 .getIter fun _ => True
  header : c.Places 2 .forIter (c.resolveJump · = .ok 9)
  storeItem : c.Places 3 .storeName (·.name = .ok x)
  loadTotal : c.Places 4 .loadName (·.name = .ok total)
  loadItem : c.Places 5 .loadName (·.name = .ok x)
  add : c.Places 6 .binaryAdd fun _ => True
  storeTotal : c.Places 7 .storeName (·.name = .ok total)
  back : c.Places 8 .jump (c.resolveJump · = .ok 2)
  loadResult : c.Places 9 .loadName (·.name = .ok total)
  leave : c.Places 10 .returnValue fun _ => True

/-- Such code, with two bytes for every instruction. -/
def Code.sumLoop (v : Value) (x total : String) : Code :=
  ⟨moduleName, 0, [],
    [⟨0, .loadConst, none, some v⟩, .bare 2 .getIter, ⟨4, .forIter, none, some (.int 18)⟩,
      ⟨6, .storeName, none, some (.str x)⟩, ⟨8, .loadName, none, some (.str total)⟩,
      ⟨10, .loadName, none, some (.str x)⟩, .bare 12 .binaryAdd,
      ⟨14, .storeName, none, some (.str total)⟩, ⟨16, .jump, none, some (.int 4)⟩,
      ⟨18, .loadName, none, some (.str total)⟩, .bare 20 .returnValue],
    ⟨[(0, 0), (2, 1), (4, 2), (6, 3), (8, 4), (10, 5), (12, 6), (14, 7), (16, 8), (18, 9),
      (20, 10)]⟩⟩

theorem Code.sumsUp_sumLoop (v : Value) (x total : String) :
    (sumLoop v x total).SumsUp v x total where
  iterable := ⟨_, rfl, rfl, rfl⟩
  iterator := ⟨_, rfl, rfl, trivial⟩
  header := ⟨_, rfl, rfl, rfl⟩
  storeItem := ⟨_, rfl, rfl, rfl⟩
  loadTotal := ⟨_, rfl, rfl, rfl⟩
  loadItem := ⟨_, rfl, rfl, rfl⟩
  add := ⟨_, rfl, rfl, trivial⟩
  storeTotal := ⟨_, rfl, rfl, rfl⟩
  back := ⟨_, rfl, rfl, rfl⟩
  loadResult := ⟨_, rfl, rfl, rfl⟩
  leave := ⟨_, rfl, rfl, trivial⟩

/-! ## Instructions of the loop -/

namespace Machine

variable {i : Instruction} {m : Machine} {stack : List Value}

theorem exec_binaryAdd (h : i.opcode = .binaryAdd) {left right : Value}
    (taken : m.frame.stack = right :: left :: stack) :
    exec i m =
      match Operator.add.apply left right with
      | .ok v => .ok .next (m.withStack (v :: stack))
      | .error fault => .error fault (m.withStack stack) := by
  simp only [exec, h, bind, EStateM.bind, binary_eq taken]
  cases Operator.add.apply left right <;> rfl

theorem exec_getIter (h : i.opcode = .getIter) {v : Value} (taken : m.frame.stack = v :: stack) :
    exec i m =
      match v.iterate with
      | .ok c => .ok .next (m.withStack (.iterator c :: stack))
      | .error fault => .error fault (m.withStack stack) := by
  simp only [exec, h, bind, EStateM.bind, lift_frame, lift_except, onFrame, Frame.pop, taken]
  cases v.iterate <;> rfl

theorem exec_jump (h : i.opcode = .jump) {pc : Nat} (leads : m.frame.code.resolveJump i = .ok pc) :
    exec i m = .ok .next (m.goto pc) := by
  simp only [exec, h, bind, EStateM.bind, lift_frame, onFrame, Frame.jump, leads]
  rfl

theorem exec_returnValue (h : i.opcode = .returnValue) {v : Value}
    (taken : m.frame.stack = v :: stack) :
    exec i m = .ok (.leave v) ((m.withStack stack).goto m.frame.code.instructions.length) := by
  simp only [exec, h, bind, EStateM.bind, lift_frame, onFrame, Frame.pop, taken]
  rfl

end Machine

/-! ## Endings from a position on -/

/-- From a position on, with these operands, code at the top level ends in this way, whatever it has
fetched before. -/
def Code.EndsAt (code : Code) (e : Engine) (pc : Nat) (stack : List Value) (outcome : Outcome) :
    Prop :=
  ∀ current, Machine.Ends (.within code ⟨e, none⟩ pc stack current) outcome

namespace Code.EndsAt

open Machine

variable {code : Code} {e e' : Engine} {pc pc' : Nat} {stack stack' : List Value} {i : Instruction}
  {outcome : Outcome} {fault : Fault} {x : String} {v item left right : Value} {c rest : Cursor}

theorem of_next (placed : code.instructions[pc]? = some i)
    (carried : exec i (within code ⟨e, none⟩ (pc + 1) stack (some i)) =
      .ok .next (within code ⟨e', none⟩ pc' stack' (some i)))
    (ends : code.EndsAt e' pc' stack' outcome) : code.EndsAt e pc stack outcome := by
  intro current
  have hplaced : (within code ⟨e, none⟩ pc stack current).instruction? = some i := placed
  have next := (advance_of_instruction hplaced).trans carried
  exact (ends_iff_of_goes (goes_of_next next)).2 (ends (some i))

theorem of_fault {m : Machine} (placed : code.instructions[pc]? = some i)
    (carried : exec i (within code ⟨e, none⟩ (pc + 1) stack (some i)) = .error fault m) :
    code.EndsAt e pc stack (.error fault m.engine) := by
  intro current
  have hplaced : (within code ⟨e, none⟩ pc stack current).instruction? = some i := placed
  exact ends_of_advance_error ((advance_of_instruction hplaced).trans carried)

theorem of_leave {m : Machine} (placed : code.instructions[pc]? = some i)
    (carried : exec i (within code ⟨e, none⟩ (pc + 1) stack (some i)) = .ok (.leave v) m) :
    code.EndsAt e pc stack (.ok v m.engine) := by
  intro current
  have hplaced : (within code ⟨e, none⟩ pc stack current).instruction? = some i := placed
  exact ends_of_leave ((advance_of_instruction hplaced).trans carried)

theorem of_loadConst (h : code.Places pc .loadConst (·.constant = v))
    (ends : code.EndsAt e (pc + 1) (v :: stack) outcome) : code.EndsAt e pc stack outcome := by
  obtain ⟨i, placed, opcode, rfl⟩ := h
  exact of_next placed (exec_loadConst opcode _) ends

theorem of_loadName (h : code.Places pc .loadName (·.name = .ok x))
    (bound : e.globals.get? x = some v) (ends : code.EndsAt e (pc + 1) (v :: stack) outcome) :
    code.EndsAt e pc stack outcome := by
  obtain ⟨i, placed, opcode, name⟩ := h
  have found : (within code ⟨e, none⟩ (pc + 1) stack (some i)).lookup x = .ok v := by
    simp only [lookup, within, Frame.local?, Option.bind_none, Engine.global, bound]
  refine of_next placed ?_ ends
  rw [exec_loadName opcode name, found]
  rfl

theorem of_storeName (h : code.Places pc .storeName (·.name = .ok x))
    (ends : code.EndsAt (e.setGlobal x v) (pc + 1) stack outcome) :
    code.EndsAt e pc (v :: stack) outcome := by
  obtain ⟨i, placed, opcode, name⟩ := h
  exact of_next placed (exec_store (.inl opcode) name rfl) ends

theorem of_binaryAdd (h : code.Places pc .binaryAdd fun _ => True)
    (sum : Operator.add.apply left right = .ok v)
    (ends : code.EndsAt e (pc + 1) (v :: stack) outcome) :
    code.EndsAt e pc (right :: left :: stack) outcome := by
  obtain ⟨i, placed, opcode, -⟩ := h
  refine of_next placed ?_ ends
  rw [exec_binaryAdd opcode rfl, sum]
  rfl

theorem of_binaryAdd_error (h : code.Places pc .binaryAdd fun _ => True)
    (fails : Operator.add.apply left right = .error fault) :
    code.EndsAt e pc (right :: left :: stack) (.error fault e) := by
  obtain ⟨i, placed, opcode, -⟩ := h
  have carried := exec_binaryAdd
    (m := within code ⟨e, none⟩ (pc + 1) (right :: left :: stack) (some i)) opcode rfl
  rw [fails] at carried
  exact of_fault placed carried

theorem of_getIter (h : code.Places pc .getIter fun _ => True) (iterates : v.iterate = .ok c)
    (ends : code.EndsAt e (pc + 1) (.iterator c :: stack) outcome) :
    code.EndsAt e pc (v :: stack) outcome := by
  obtain ⟨i, placed, opcode, -⟩ := h
  refine of_next placed ?_ ends
  rw [exec_getIter opcode rfl, iterates]
  rfl

theorem of_getIter_error (h : code.Places pc .getIter fun _ => True)
    (fails : v.iterate = .error fault) : code.EndsAt e pc (v :: stack) (.error fault e) := by
  obtain ⟨i, placed, opcode, -⟩ := h
  have carried := exec_getIter
    (m := within code ⟨e, none⟩ (pc + 1) (v :: stack) (some i)) opcode rfl
  rw [fails] at carried
  exact of_fault placed carried

theorem of_advance (h : code.Places pc .forIter (code.resolveJump · = .ok pc'))
    (advanced : c.advance = some (item, rest))
    (ends : code.EndsAt e (pc + 1) (item :: .iterator rest :: stack) outcome) :
    code.EndsAt e pc (.iterator c :: stack) outcome := by
  obtain ⟨i, placed, opcode, -⟩ := h
  refine of_next placed ?_ ends
  rw [exec_forIter opcode, forIter_eq]
  simp only [within, advanced]

theorem of_exhausted (h : code.Places pc .forIter (code.resolveJump · = .ok pc'))
    (exhausted : c.advance = none) (ends : code.EndsAt e (code.pastEpilogue pc') stack outcome) :
    code.EndsAt e pc (.iterator c :: stack) outcome := by
  obtain ⟨i, placed, opcode, leads⟩ := h
  refine of_next placed ?_ ends
  rw [exec_forIter opcode, forIter_eq]
  simp only [within, exhausted, Code.loopEnd_of_ok leads]

theorem of_jump (h : code.Places pc .jump (code.resolveJump · = .ok pc'))
    (ends : code.EndsAt e pc' stack outcome) : code.EndsAt e pc stack outcome := by
  obtain ⟨i, placed, opcode, leads⟩ := h
  exact of_next placed (exec_jump opcode leads) ends

theorem of_returnValue (h : code.Places pc .returnValue fun _ => True) :
    code.EndsAt e pc (v :: stack) (.ok v e) := by
  obtain ⟨i, placed, opcode, -⟩ := h
  exact of_leave placed (exec_returnValue opcode rfl)

end Code.EndsAt

/-! ## What the loop computes -/

namespace Code.SumsUp

variable {code : Code} {v : Value} {x total : String} {e : Engine} {c : Cursor} {sum : Value}

theorem endsAt_result (loop : code.SumsUp v x total) (bound : e.globals.get? total = some sum) :
    code.EndsAt e 9 [] (.ok sum e) :=
  .of_loadName loop.loadResult bound (.of_returnValue loop.leave)

theorem pastEpilogue_eq (loop : code.SumsUp v x total) : code.pastEpilogue 9 = 9 := by
  obtain ⟨i, placed, opcode, -⟩ := loop.loadResult
  refine pastEpilogue_of_ne ?_
  rw [opcode?_of_instruction placed, opcode]
  decide

/-- From its header on the loop ends as adding up what is left of the elements does.  Nothing of the
engine has changed by then but global names. -/
theorem endsAt_header (loop : code.SumsUp v x total) (hne : x ≠ total)
    (bound : e.globals.get? total = some sum) :
    ∃ globals, code.EndsAt e 2 [.iterator c]
      (ofExcept (c.left.foldlM Operator.add.apply sum) { e with globals := globals }) := by
  rw [Cursor.left]
  generalize htrail : c.trail = elements
  induction elements generalizing c e sum with
  | nil =>
    refine ⟨e.globals, .of_exhausted loop.header (Cursor.trail_eq_nil_iff.1 htrail) ?_⟩
    rw [loop.pastEpilogue_eq]
    exact loop.endsAt_result bound
  | cons element elements ih =>
    obtain ⟨item, rest⟩ := element
    obtain ⟨advanced, hrest⟩ := Cursor.trail_eq_cons_iff.1 htrail
    have item_bound : (e.setGlobal x item).globals.get? x = some item :=
      e.globals.get?_set_self x item
    have total_bound : (e.setGlobal x item).globals.get? total = some sum := by
      rw [← bound]
      exact Environment.get?_set_of_ne hne.symm item
    -- the round up to the addition is the same whether that succeeds or fails
    have round : ∀ {outcome : Outcome},
        code.EndsAt (e.setGlobal x item) 6 [item, sum, .iterator rest] outcome →
        code.EndsAt e 2 [.iterator c] outcome := fun ends =>
      .of_advance loop.header advanced <| .of_storeName loop.storeItem <|
        .of_loadName loop.loadTotal total_bound <| .of_loadName loop.loadItem item_bound ends
    rw [List.map_cons, List.foldlM_cons]
    cases hadd : Operator.add.apply sum item with
    | error fault =>
      exact ⟨(e.setGlobal x item).globals, round (.of_binaryAdd_error loop.add hadd)⟩
    | ok later =>
      have later_bound :
          ((e.setGlobal x item).setGlobal total later).globals.get? total = some later :=
        (e.setGlobal x item).globals.get?_set_self total later
      obtain ⟨globals, ends⟩ := ih later_bound hrest
      exact ⟨globals, round <| .of_binaryAdd loop.add hadd <| .of_storeName loop.storeTotal <|
        .of_jump loop.back ends⟩

/-- The whole code ends as the builtin does. -/
theorem ends (loop : code.SumsUp v x total) (hne : x ≠ total)
    (bound : e.globals.get? total = some sum) :
    ∃ globals, Machine.Ends ⟨e, .ofModule code⟩
      (ofExcept (Builtin.sum.result [v, sum]) { e with globals := globals }) := by
  have start : ∀ {outcome : Outcome}, code.EndsAt e 1 [v] outcome →
      Machine.Ends ⟨e, .ofModule code⟩ outcome := fun ends =>
    EndsAt.of_loadConst loop.iterable ends none
  rw [Builtin.result_sum]
  cases iterates : v.iterate with
  | error fault => exact ⟨e.globals, start (.of_getIter_error loop.iterator iterates)⟩
  | ok c =>
    obtain ⟨globals, ends⟩ := loop.endsAt_header (c := c) hne bound
    exact ⟨globals, start (.of_getIter loop.iterator iterates ends)⟩

end Code.SumsUp

/-! ## Sums of integers -/

/-- The number is one of the 64-bit integers. -/
def FitsInt64 (n : Int) : Prop :=
  Int64.minValue.toInt ≤ n ∧ n ≤ Int64.maxValue.toInt

theorem fitsInt64_toInt (n : Int64) : FitsInt64 n.toInt :=
  ⟨n.minValue_le_toInt, n.toInt_le⟩

theorem toInt64?_eq_none_iff {n : Int} : Text.toInt64? n = none ↔ ¬ FitsInt64 n := by
  simp [Text.toInt64?, FitsInt64]

/-- The first so many integers added to a number. -/
def partialSum (n : Int) (ns : List Int64) (k : Nat) : Int :=
  n + ((ns.take k).map Int64.toInt).sum

theorem partialSum_zero (n : Int) (ns : List Int64) : partialSum n ns 0 = n := by
  simp [partialSum]

theorem partialSum_succ (n : Int) (a : Int64) (ns : List Int64) (k : Nat) :
    partialSum n (a :: ns) (k + 1) = partialSum (n + a.toInt) ns k := by
  simp [partialSum, Int.add_assoc]

namespace Operator

/-- Integers are added up exactly, as long as all that is come by on the way fits. -/
theorem foldlM_add_int (n : Int64) (ns : List Int64) :
    ((∀ k ≤ ns.length, FitsInt64 (partialSum n.toInt ns k)) ∧
      ∃ m : Int64, (ns.map Value.int).foldlM add.apply (.int n) = .ok (.int m) ∧
        m.toInt = partialSum n.toInt ns ns.length) ∨
    ((∃ k ≤ ns.length, ¬ FitsInt64 (partialSum n.toInt ns k)) ∧
      (ns.map Value.int).foldlM add.apply (.int n) = .error (.overflow add)) := by
  induction ns generalizing n with
  | nil =>
    refine .inl ⟨fun k hk => ?_, n, rfl, (partialSum_zero _ _).symm⟩
    rw [Nat.le_zero.1 hk, partialSum_zero]
    exact fitsInt64_toInt n
  | cons a ns ih =>
    rw [List.map_cons, List.foldlM_cons]
    cases hsum : Text.toInt64? (n.toInt + a.toInt) with
    | none =>
      have hadd : add.apply (.int n) (.int a) = .error (.overflow add) :=
        onNumber_int_of_eq_none hsum
      rw [hadd]
      refine .inr ⟨⟨1, Nat.succ_le_succ (Nat.zero_le _), ?_⟩, rfl⟩
      rw [partialSum_succ, partialSum_zero]
      exact toInt64?_eq_none_iff.1 hsum
    | some m =>
      have hm : m.toInt = n.toInt + a.toInt := Text.toInt_of_toInt64? hsum
      have hadd : add.apply (.int n) (.int a) = .ok (.int m) := onNumber_int_eq_ok_iff.2 hm
      rw [hadd]
      rcases ih m with ⟨fits, later, hlater, hexact⟩ | ⟨⟨k, hk, overflows⟩, hfails⟩
      · refine .inl ⟨fun k hk => ?_, later, hlater, ?_⟩
        · cases k with
          | zero =>
            rw [partialSum_zero]
            exact fitsInt64_toInt n
          | succ k =>
            rw [partialSum_succ, ← hm]
            exact fits k (Nat.le_of_succ_le_succ hk)
        · rw [List.length_cons, partialSum_succ, ← hm]
          exact hexact
      · refine .inr ⟨⟨k + 1, Nat.succ_le_succ hk, ?_⟩, hfails⟩
        rwa [partialSum_succ, ← hm]

end Operator

theorem Engine.flushed_of_flushable {outcome : Outcome}
    (h : (finalState outcome).sink.flushable) : flushed outcome = outcome := by
  cases outcome with
  | error fault e => rfl
  | ok v e =>
    have hflush : e.sink.flush = .ok () := if_pos h
    simp only [flushed, hflush]

/-- The builtin `sum` writes nothing, and its result is that of the loop: on every engine that has
the start value under the global name of the total, the code of the loop comes to its end with the
same value or the same fault, up to the fault of a sink that cannot be flushed.  The sum of two
tuples in a row goes on from the sum of the first, if that has one.  A sum of integers is exact if
all partial sums fit, and fails otherwise. -/
theorem Builtin.sum_laws :
    (∀ args sink, sum.call args sink = ofExcept (sum.result args) sink) ∧
    (∀ (v start : Value) (code : Code) (x total : String) (e : Engine),
      code.SumsUp v x total → x ≠ total → e.globals.get? total = some start →
      ∃ globals : Environment,
        Engine.Ends code e
          (Engine.flushed (ofExcept (sum.result [v, start]) { e with globals := globals })) ∧
        (e.sink.flushable →
          Engine.Ends code e (ofExcept (sum.result [v, start]) { e with globals := globals }))) ∧
    (∀ (as bs : List Value) (start : Value),
      sum.result [.tuple (as ++ bs), start] =
        sum.result [.tuple as, start] >>= fun first => sum.result [.tuple bs, first]) ∧
    (∀ (v : Value) (c : Cursor) (ns : List Int64) (n : Int64),
      v.iterate = .ok c → c.left = ns.map .int →
      ((∃ fault, sum.result [v, .int n] = .error fault ∧ fault.category = .arithmeticError) ↔
        ∃ k ≤ ns.length, ¬ FitsInt64 (partialSum n.toInt ns k)) ∧
      ((∀ k ≤ ns.length, FitsInt64 (partialSum n.toInt ns k)) →
        ∃ m : Int64, sum.result [v, .int n] = .ok (.int m) ∧
          m.toInt = n.toInt + (ns.map Int64.toInt).sum)) := by
  refine ⟨?silent, ?loop, ?splits, ?integers⟩
  case silent =>
    exact fun args => call_of_written_eq_nil rfl
  case loop =>
    intro v start code x total e loop hne bound
    obtain ⟨globals, ends⟩ := loop.ends hne bound
    have flushed := Engine.ends_iff.2 ⟨_, ends, rfl⟩
    refine ⟨globals, flushed, fun flushable => ?_⟩
    rwa [Engine.flushed_of_flushable] at flushed
    cases sum.result [v, start] <;> exact flushable
  case splits =>
    intro as bs start
    rw [result_sum_tuple, result_sum_tuple, List.foldlM_append]
    exact congrArg _ (funext fun first => (result_sum_tuple bs first).symm)
  case integers =>
    intro v c ns n iterates hleft
    have hsum : sum.result [v, .int n] = (ns.map Value.int).foldlM Operator.add.apply (.int n) := by
      rw [result_sum, iterates, ← hleft]
      rfl
    rw [hsum]
    rcases Operator.foldlM_add_int n ns with ⟨fits, m, hm, hexact⟩ | ⟨overflows, hfails⟩
    · refine ⟨⟨?_, ?_⟩, fun _ => ⟨m, hm, ?_⟩⟩
      · rintro ⟨fault, hfault, -⟩
        rw [hm] at hfault
        cases hfault
      · rintro ⟨k, hk, overflows⟩
        exact absurd (fits k hk) overflows
      · rw [hexact, partialSum, List.take_length]
    · refine ⟨⟨fun _ => overflows, fun _ => ⟨_, hfails, rfl⟩⟩, fun fits => ?_⟩
      obtain ⟨k, hk, hnot⟩ := overflows
      exact absurd (fits k hk) hnot

/-- One is added and taken away again, which is too much on top of the greatest integer. -/
theorem Builtin.sum_laws_tuple :
    let v : Value := .tuple [.int 1, .int (-1)]
    let code := Code.sumLoop v "x" "total"
    let e := (Engine.fresh .standard .unlimited).setGlobal "total" (.int 4)
    Code.ofModule code.instructions = .ok code ∧ code.SumsUp v "x" "total" ∧
      e.globals.get? "total" = some (.int 4) ∧
      (∃ globals, Engine.Ends code e (.ok (.int 4) { e with globals := globals })) ∧
      ∃ fault, sum.result [v, .int Int64.maxValue] = .error fault ∧
        fault.category = .arithmeticError := by
  intro v code e
  obtain ⟨-, loops, -, integers⟩ := sum_laws
  have bound : e.globals.get? "total" = some (.int 4) := rfl
  have loop : code.SumsUp v "x" "total" := Code.sumsUp_sumLoop v "x" "total"
  obtain ⟨globals, -, ends⟩ := loops v (.int 4) code "x" "total" e loop (by decide) bound
  have hleft : (Cursor.items [.int 1, .int (-1)] 0).left = [1, -1].map Value.int :=
    Cursor.left_items [] _
  have fails := (integers v _ [1, -1] Int64.maxValue rfl hleft).1.2
  refine ⟨rfl, loop, bound, ⟨globals, ends rfl⟩, fails ⟨1, by decide, ?_⟩⟩
  unfold FitsInt64
  decide

end Bytecode
