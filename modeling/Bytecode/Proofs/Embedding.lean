import Bytecode.Proofs.Simulation

set_option autoImplicit false

/-!
# Code with idle instructions put in

Code embeds in other code when its instructions stand there in the same order, at the
positions that a strictly increasing function gives, and everything between them is
idle.  While the frame of the larger code goes over idle instructions that of the
smaller one waits, and otherwise they step together.

A frame of the larger code that waits to catch up with position `k` of the smaller one
may stand on any of the idle instructions before the image of `k`.  That is where the
instruction before `k` leaves it, and where a jump to `k` may lead (`Aligned`).

Main statement: `Embedding.interchangeable`, the runs of both end in the same way.
-/

namespace Bytecode

/-- Runs of two pieces of code, on any engine, end with the same value or with faults of the
same category, and leave equal engines; and either comes to an end if the other does. -/
def Code.Interchangeable (c c' : Code) : Prop :=
  ∀ e : Engine,
    (∀ outcome, Engine.Ends c e outcome →
      ∃ outcome', Engine.Ends c' e outcome' ∧ Alike Eq outcome outcome') ∧
    (∀ outcome', Engine.Ends c' e outcome' →
      ∃ outcome, Engine.Ends c e outcome ∧ Alike Eq outcome outcome')

/-! ## Positions -/

/-- The second position comes after the images of all that come before the first, and not
after the image of the first itself. -/
structure Aligned (position : Nat → Nat) (c : Code) (pc pc' : Nat) : Prop where
  le_length : pc ≤ c.instructions.length
  le_position : pc' ≤ position pc
  position_lt : ∀ k < pc, position k < pc'

/-- The instructions of `c` stand in `c'` at the positions given, between idle ones. -/
structure Placement (position : Nat → Nat) (c c' : Code) : Prop where
  increasing : ∀ {j k}, j < k → k ≤ c.instructions.length → position j < position k
  position_length : position c.instructions.length = c'.instructions.length
  kept : ∀ {k i}, c.instructions[k]? = some i →
    ∃ i', c'.instructions[position k]? = some i' ∧ i.SameOperation i'
  idle : ∀ {k i}, c'.instructions[k]? = some i →
    (∀ j < c.instructions.length, position j ≠ k) → i.opcode = .nop ∨ i.opcode = .endFor

namespace Placement

variable {position : Nat → Nat} {c c' : Code}

theorem position_le (h : Placement position c c') {j k : Nat} (hjk : j ≤ k)
    (hk : k ≤ c.instructions.length) : position j ≤ position k := by
  rcases Nat.eq_or_lt_of_le hjk with rfl | hlt
  · exact Nat.le_refl _
  · exact Nat.le_of_lt (h.increasing hlt hk)

theorem aligned_zero : Aligned position c 0 0 :=
  ⟨Nat.zero_le _, Nat.zero_le _, fun _ h => absurd h (Nat.not_lt_zero _)⟩

theorem aligned_position (h : Placement position c c') {k : Nat}
    (hk : k ≤ c.instructions.length) : Aligned position c k (position k) :=
  ⟨hk, Nat.le_refl _, fun _ hj => h.increasing hj hk⟩

theorem aligned_succ (h : Placement position c c') {k : Nat} (hk : k < c.instructions.length) :
    Aligned position c (k + 1) (position k + 1) where
  le_length := hk
  le_position := h.increasing (Nat.lt_succ_self k) hk
  position_lt _ hj :=
    Nat.lt_succ_of_le (h.position_le (Nat.le_of_lt_succ hj) (Nat.le_of_lt hk))

/-- What lies between an aligned position and the image is idle. -/
theorem idle_of_aligned (h : Placement position c c') {pc pc' : Nat}
    (aligned : Aligned position c pc pc') (hlt : pc' < position pc) :
    ∃ i, c'.instructions[pc']? = some i ∧ (i.opcode = .nop ∨ i.opcode = .endFor) := by
  have hlength : pc' < c'.instructions.length := by
    have hle := h.position_le aligned.le_length (Nat.le_refl _)
    rw [h.position_length] at hle
    omega
  refine ⟨c'.instructions[pc'], List.getElem?_eq_getElem hlength, ?_⟩
  refine h.idle (List.getElem?_eq_getElem hlength) ?_
  rintro j hj rfl
  rcases Nat.lt_or_ge j pc with hjpc | hpcj
  · exact Nat.lt_irrefl _ (aligned.position_lt j hjpc)
  · have hle := h.position_le hpcj (Nat.le_of_lt hj)
    omega

/-- The opcodes are kept, and past the end there are none. -/
theorem opcode?_position (h : Placement position c c') {k : Nat}
    (hk : k ≤ c.instructions.length) : c'.opcode? (position k) = c.opcode? k := by
  unfold Code.opcode?
  rcases Nat.eq_or_lt_of_le hk with rfl | hlt
  · rw [h.position_length, List.getElem?_eq_none (Nat.le_refl _),
      List.getElem?_eq_none (Nat.le_refl _)]
  · have hi := List.getElem?_eq_getElem hlt
    obtain ⟨i', hi', same⟩ := h.kept hi
    rw [hi', hi, Option.map_some, Option.map_some, same.opcode_eq]

/-- An instruction that is not idle and stands right after an image is the next one. -/
theorem opcode?_succ_of_ne (h : Placement position c c') {k : Nat}
    (hk : k < c.instructions.length) {opcode : Opcode} (hnop : opcode ≠ .nop)
    (hend : opcode ≠ .endFor) (hop : c'.opcode? (position k + 1) = some opcode) :
    c.opcode? (k + 1) = some opcode := by
  obtain ⟨i, hi, rfl⟩ := Option.map_eq_some_iff.1 hop
  have himage : ∃ j < c.instructions.length, position j = position k + 1 := by
    refine Classical.byContradiction fun hnone => ?_
    exact (h.idle hi fun j hj heq => hnone ⟨j, hj, heq⟩).elim hnop hend
  obtain ⟨j, hj, hposition⟩ := himage
  -- `j` comes after `k` and not after `k + 1`, as nothing fits in between
  have hkj : k < j := by
    rcases Nat.lt_or_ge k j with hlt | hle
    · exact hlt
    · have hback := h.position_le hle (Nat.le_of_lt hk)
      omega
  have hjk : j ≤ k + 1 := by
    rcases Nat.lt_or_ge (k + 1) j with hlt | hle
    · have hfirst : position k < position (k + 1) := h.increasing (Nat.lt_succ_self k) hk
      have hsecond := h.increasing hlt (Nat.le_of_lt hj)
      omega
    · exact hle
  have hj' : j = k + 1 := Nat.le_antisymm hjk hkj
  rw [← hj', ← h.opcode?_position (Nat.le_of_lt hj), hposition, hop]

/-- Loops that are exhausted go on at aligned positions, if the instructions of an epilogue
have stayed together. -/
theorem aligned_pastEpilogue (h : Placement position c c') {target : Nat}
    (htarget : target < c.instructions.length)
    (epilogue : c.opcode? target = some .endFor → c.opcode? (target + 1) = some .popTop →
      position (target + 1) = position target + 1) :
    Aligned position c (c.pastEpilogue target) (c'.pastEpilogue (position target)) := by
  have hop := h.opcode?_position (Nat.le_of_lt htarget)
  unfold Code.pastEpilogue
  rw [hop]
  by_cases hend : c.opcode? target = some .endFor
  · rw [if_pos hend, if_pos hend]
    by_cases hpop : c.opcode? (target + 1) = some .popTop
    · have hadjacent := epilogue hend hpop
      have hlt : target + 1 < c.instructions.length := by
        obtain ⟨i, hi, -⟩ := Option.map_eq_some_iff.1 hpop
        exact (List.getElem?_eq_some_iff.1 hi).1
      have hpop' : c'.opcode? (position target + 1) = some .popTop := by
        rw [← hadjacent, h.opcode?_position (Nat.le_of_lt hlt), hpop]
      rw [if_pos hpop, if_pos hpop']
      have haligned := h.aligned_succ hlt
      rwa [hadjacent] at haligned
    · have hpop' : c'.opcode? (position target + 1) ≠ some .popTop :=
        fun hop => hpop (h.opcode?_succ_of_ne htarget nofun nofun hop)
      rw [if_neg hpop, if_neg hpop']
      exact h.aligned_succ htarget
  · rw [if_neg hend, if_neg hend]
    exact h.aligned_position (Nat.le_of_lt htarget)

end Placement

/-! ## Jumps -/

/-- Where two jumps lead: to aligned positions, or nowhere with faults of the same category. -/
inductive Lands (position : Nat → Nat) (c : Code) : Except Fault Nat → Except Fault Nat → Prop
    where
  | ok {target target' : Nat} (aligned : Aligned position c target target') :
      Lands position c (.ok target) (.ok target')
  | error {fault fault' : Fault} (category_eq : fault.category = fault'.category) :
      Lands position c (.error fault) (.error fault')

/-- The target of a jump is the image of that of another, or both fail with faults of the same
category. -/
inductive Moved (position : Nat → Nat) : Except Fault Nat → Except Fault Nat → Prop where
  | ok (target : Nat) : Moved position (.ok target) (.ok (position target))
  | error {fault fault' : Fault} (category_eq : fault.category = fault'.category) :
      Moved position (.error fault) (.error fault')

/-- A placement after which every jump leads to where it did. -/
structure Embedding (position : Nat → Nat) (c c' : Code) : Prop
    extends Placement position c c' where
  jump : ∀ {k i i'}, c.instructions[k]? = some i → c'.instructions[position k]? = some i' →
    i.opcode.isJump → i.opcode ≠ .forIter →
    Lands position c (c.resolveJump i) (c'.resolveJump i')
  loop : ∀ {k i i'}, c.instructions[k]? = some i → c'.instructions[position k]? = some i' →
    i.opcode = .forIter →
    Lands position c (c.loopEnd i) (c'.loopEnd i')

namespace Placement

variable {position : Nat → Nat} {c c' : Code} {i i' : Instruction}

theorem lands_of_moved (h : Placement position c c') (indexed : c.Indexed)
    (moved : Moved position (c.resolveJump i) (c'.resolveJump i')) :
    Lands position c (c.resolveJump i) (c'.resolveJump i') := by
  generalize hr : c.resolveJump i = r, c'.resolveJump i' = r' at moved
  cases moved with
  | error category_eq => exact .error category_eq
  | ok target =>
    have hlt := indexed.lt_length_of_resolveJump hr
    exact .ok (h.aligned_position (Nat.le_of_lt hlt))

theorem lands_loopEnd_of_moved (h : Placement position c c') (indexed : c.Indexed)
    (epilogue : ∀ k, c.opcode? k = some .endFor → c.opcode? (k + 1) = some .popTop →
      position (k + 1) = position k + 1)
    (moved : Moved position (c.resolveJump i) (c'.resolveJump i')) :
    Lands position c (c.loopEnd i) (c'.loopEnd i') := by
  generalize hr : c.resolveJump i = r, hr' : c'.resolveJump i' = r' at moved
  cases moved with
  | error category_eq =>
    rw [Code.loopEnd_of_error hr, Code.loopEnd_of_error hr']
    exact .error category_eq
  | ok target =>
    have hlt := indexed.lt_length_of_resolveJump hr
    rw [Code.loopEnd_of_ok hr, Code.loopEnd_of_ok hr']
    exact .ok (h.aligned_pastEpilogue hlt (epilogue target))

end Placement

namespace Embedding

variable {position : Nat → Nat} {c c' : Code}

/-! ## Frames -/

/-- Frames of the two pieces of code that differ in their positions alone, which are aligned. -/
structure Twin (position : Nat → Nat) (c c' : Code) (f f' : Frame) : Prop where
  code_left : f.code = c
  code_right : f'.code = c'
  stack_eq : f.stack = f'.stack
  locals_eq : f.locals = f'.locals
  aligned : Aligned position c f.pc f'.pc

theorem twin_congruent : Congruent (Twin position c c') where
  stack_eq h := h.stack_eq
  locals_eq h := h.locals_eq
  setStack _ h := ⟨h.code_left, h.code_right, rfl, h.locals_eq, h.aligned⟩
  setLocals _ h := ⟨h.code_left, h.code_right, h.stack_eq, rfl, h.aligned⟩

variable {f f' : Frame}

/-- Frames stay twins at other aligned positions. -/
theorem Twin.at (twin : Twin position c c' f f') {pc pc' : Nat}
    (aligned : Aligned position c pc pc') :
    Twin position c c' { f with pc := pc } { f' with pc := pc' } :=
  ⟨twin.code_left, twin.code_right, twin.stack_eq, twin.locals_eq, aligned⟩

theorem twin_finished (h : Embedding position c c') (twin : Twin position c c' f f') :
    Twin position c c' f.finished f'.finished := by
  refine twin.at ?_
  rw [twin.code_left, twin.code_right, ← h.position_length]
  exact h.aligned_position (Nat.le_refl _)

theorem jump_simulates {i i' : Instruction}
    (lands : Lands position c (c.resolveJump i) (c'.resolveJump i')) :
    Simulates (Twin position c c') (Frame.jump i) (Frame.jump i') := by
  intro f f' twin
  obtain ⟨rfl, rfl⟩ := And.intro twin.code_left twin.code_right
  unfold Frame.jump
  generalize f.code.resolveJump i = r, f'.code.resolveJump i' = r' at lands
  cases lands with
  | ok aligned => exact .ok (twin.at aligned)
  | error category_eq => exact .error category_eq twin

theorem forIter_simulates {i i' : Instruction}
    (lands : Lands position c (c.loopEnd i) (c'.loopEnd i')) :
    Simulates (Twin position c c') (Machine.forIter i) (Machine.forIter i') := by
  intro f f' twin
  obtain ⟨rfl, rfl⟩ := And.intro twin.code_left twin.code_right
  have hrest : ∀ rest, Twin position f.code f'.code
      { f with stack := rest } { f' with stack := rest } :=
    fun rest => twin_congruent.setStack rest twin
  rw [Machine.forIter_eq, Machine.forIter_eq, twin.stack_eq]
  cases f'.stack with
  | nil => exact .error (Frame.category_underflow_eq ..) twin
  | cons v rest =>
    cases v with
    | iterator cursor =>
      simp only
      cases cursor.advance with
      | some next => exact .ok (hrest _)
      | none =>
        generalize f.code.loopEnd i = r, f'.code.loopEnd i' = r' at lands
        cases lands with
        | ok aligned => exact .ok ((hrest rest).at aligned)
        | error category_eq => exact .error category_eq (hrest rest)
    | _ => exact .error rfl twin

/-! ## Steps -/

open Machine

variable {m m' : Machine}

/-- At the image of a position both frames fetch the same operation. -/
theorem exec_alike (h : Embedding position c c') {i i' : Instruction}
    (twin : Paired (Twin position c c') m m') (hpc : m'.frame.pc = position m.frame.pc)
    (hi : c.instructions[m.frame.pc]? = some i)
    (hi' : c'.instructions[position m.frame.pc]? = some i') (same : i.SameOperation i') :
    Alike (Paired (Twin position c c'))
      (exec i { m with frame := m.frame.fetching i })
      (exec i' { m' with frame := m'.frame.fetching i' }) := by
  have hlt : m.frame.pc < c.instructions.length := (List.getElem?_eq_some_iff.1 hi).1
  have haligned : Aligned position c (m.frame.pc + 1) (m'.frame.pc + 1) := by
    rw [hpc]
    exact h.aligned_succ hlt
  have hfetching : Twin position c c' (m.frame.fetching i) (m'.frame.fetching i') :=
    ⟨twin.frame.code_left, twin.frame.code_right, twin.frame.stack_eq, twin.frame.locals_eq,
      haligned⟩
  have hsim : Simulates (Paired (Twin position c c')) (exec i) (exec i') := by
    refine exec_simulates twin_congruent same h.twin_finished ?_ ?_
    · exact fun hjump hloop => jump_simulates (h.jump hi hi' hjump hloop)
    · exact fun hloop => forIter_simulates (h.loop hi hi' hloop)
  exact hsim _ _ ⟨twin.engine_eq, hfetching⟩

/-- Frames that are both at the end, or at a position and its image, step together. -/
theorem step_rel (h : Embedding position c c') (twin : Paired (Twin position c c') m m')
    (hpc : m'.frame.pc = position m.frame.pc) (body : Machine → Option Outcome) :
    Option.Rel (Alike (Paired (Twin position c c'))) (step body m) (step body m') := by
  obtain ⟨hc, hc'⟩ := And.intro twin.frame.code_left twin.frame.code_right
  rcases Nat.eq_or_lt_of_le twin.frame.aligned.le_length with hend | hlt
  · have hnone : m.frame.code.instructions[m.frame.pc]? = none := by
      rw [hc, hend]
      exact List.getElem?_eq_none (Nat.le_refl _)
    have hnone' : m'.frame.code.instructions[m'.frame.pc]? = none := by
      rw [hc', hpc, hend, h.position_length]
      exact List.getElem?_eq_none (Nat.le_refl _)
    rw [step_of_end hnone, step_of_end hnone']
    exact .some (.ok twin)
  · have hi := List.getElem?_eq_getElem hlt
    obtain ⟨i', hi', same⟩ := h.kept hi
    have hexec := h.exec_alike twin hpc hi hi' same
    rw [step_of_instruction (by rw [hc]; exact hi),
      step_of_instruction (by rw [hc', hpc]; exact hi')]
    generalize exec _ { m with frame := m.frame.fetching _ } = r,
      exec i' { m' with frame := m'.frame.fetching i' } = r' at hexec
    cases hexec with
    | error category_eq related => exact .some (.error category_eq related)
    | @ok action n n' related =>
      cases action with
      | next => exact .some (.ok related)
      | leave v => exact .some (.ok related)
      | enter callee =>
        simp only [entering, related.engine_eq]
        cases body ⟨n'.engine.entered, callee⟩ with
        | none => exact .none
        | some outcome =>
          cases outcome with
          | error fault e => exact .some (.error rfl ⟨rfl, related.frame⟩)
          | ok v e =>
            refine .some (.ok ⟨rfl, ?_⟩)
            unfold Frame.pushed
            rw [related.frame.stack_eq]
            exact twin_congruent.setStack _ related.frame

/-- Before the image the frame of the larger code steps alone. -/
theorem step_idle (h : Embedding position c c') (twin : Paired (Twin position c c') m m')
    (hlt : m'.frame.pc < position m.frame.pc) :
    ∃ n', (∀ body, step body m' = some (.ok none n')) ∧
      n'.frame.pc = m'.frame.pc + 1 ∧ Paired (Twin position c c') m n' := by
  obtain ⟨i, hi, hop⟩ := h.idle_of_aligned twin.frame.aligned hlt
  have hexec : ∀ n, exec i n = .ok .next n := by
    intro n
    rcases hop with hop | hop <;> simp only [exec, hop] <;> rfl
  refine ⟨_, step_of_next (by rw [twin.frame.code_right]; exact hi) (hexec _), rfl,
    twin.engine_eq, ?_⟩
  exact
    { code_left := twin.frame.code_left
      code_right := twin.frame.code_right
      stack_eq := twin.frame.stack_eq
      locals_eq := twin.frame.locals_eq
      aligned :=
        { le_length := twin.frame.aligned.le_length
          le_position := hlt
          position_lt := fun k hk => Nat.lt_succ_of_lt (twin.frame.aligned.position_lt k hk) } }

/-! ## Runs -/

/-- The frame of the larger code catches up in finitely many steps. -/
theorem catch_up (h : Embedding position c c') (twin : Paired (Twin position c c') m m') :
    ∃ n', n'.frame.pc = position m.frame.pc ∧ Paired (Twin position c c') m n' ∧
      ∀ outcome, m'.Ends outcome ↔ n'.Ends outcome := by
  induction hgap : position m.frame.pc - m'.frame.pc generalizing m' with
  | zero =>
    have hle := twin.frame.aligned.le_position
    exact ⟨m', by omega, twin, fun _ => Iff.rfl⟩
  | succ gap ih =>
    obtain ⟨n', hstep, hpc, htwin⟩ := h.step_idle twin (by omega)
    obtain ⟨k', hk', hktwin, hends⟩ := ih htwin (by omega)
    refine ⟨k', hk', hktwin, fun outcome => ?_⟩
    have hgoes : m'.Goes n' := ⟨0, hstep _⟩
    exact (ends_iff_of_goes hgoes).trans (hends outcome)

/-- When two frames step together neither step comes to an end, or both end their frames in the
same way, or both go on with frames that are twins again. -/
theorem step_cases (h : Embedding position c c') (twin : Paired (Twin position c c') m m')
    (hpc : m'.frame.pc = position m.frame.pc) (fuel : Nat) :
    (execute (fuel + 1) m = none ∧ execute (fuel + 1) m' = none) ∨
      (∃ outcome outcome', execute (fuel + 1) m = some outcome ∧
        execute (fuel + 1) m' = some outcome' ∧ Alike Eq outcome outcome') ∨
      ∃ n n', step (execute fuel) m = some (.ok none n) ∧
        step (execute fuel) m' = some (.ok none n') ∧ Paired (Twin position c c') n n' := by
  have hstep := h.step_rel twin hpc (execute fuel)
  rw [execute_succ, execute_succ]
  generalize step (execute fuel) m = r, step (execute fuel) m' = r' at hstep ⊢
  cases hstep with
  | none => exact .inl ⟨rfl, rfl⟩
  | some alike =>
    cases alike with
    | error category_eq related =>
      exact .inr (.inl ⟨_, _, rfl, rfl, .error category_eq related.engine_eq⟩)
    | @ok value n n' related =>
      cases value with
      | some v => exact .inr (.inl ⟨_, _, rfl, rfl, .ok related.engine_eq⟩)
      | none => exact .inr (.inr ⟨n, n', rfl, rfl, related⟩)

/-- The larger code ends when the smaller one does. -/
theorem ends_right (h : Embedding position c c') {fuel : Nat} {outcome : Outcome}
    (twin : Paired (Twin position c c') m m') (run : execute fuel m = some outcome) :
    ∃ outcome', m'.Ends outcome' ∧ Alike Eq outcome outcome' := by
  induction fuel generalizing m m' with
  | zero => cases run
  | succ fuel ih =>
    obtain ⟨k', hpc, htwin, hends⟩ := h.catch_up twin
    simp only [hends]
    rcases h.step_cases htwin hpc fuel with
      ⟨hnone, -⟩ | ⟨outcome, outcome', hm, hk', halike⟩ | ⟨n, n', hm, hk', hnext⟩
    · rw [hnone] at run
      cases run
    · rw [hm] at run
      cases run
      exact ⟨outcome', ⟨fuel + 1, hk'⟩, halike⟩
    · rw [execute_succ, hm] at run
      obtain ⟨outcome', hn', halike⟩ := ih hnext run
      exact ⟨outcome', (ends_iff_of_goes ⟨fuel, hk'⟩).2 hn', halike⟩

/-- The smaller code ends when the larger one does. -/
theorem ends_left (h : Embedding position c c') {fuel : Nat} {outcome' : Outcome}
    (twin : Paired (Twin position c c') m m') (run : execute fuel m' = some outcome') :
    ∃ outcome, m.Ends outcome ∧ Alike Eq outcome outcome' := by
  induction fuel generalizing m m' with
  | zero => cases run
  | succ fuel ih =>
    rcases Nat.lt_or_eq_of_le twin.frame.aligned.le_position with hlt | hpc
    · obtain ⟨n', hstep, -, htwin⟩ := h.step_idle twin hlt
      rw [execute_succ, hstep] at run
      exact ih htwin run
    rcases h.step_cases twin hpc fuel with
      ⟨-, hnone⟩ | ⟨outcome, outcome', hm, hm', halike⟩ | ⟨n, n', hm, hm', hnext⟩
    · rw [hnone] at run
      cases run
    · rw [hm'] at run
      cases run
      exact ⟨outcome, ⟨fuel + 1, hm⟩, halike⟩
    · rw [execute_succ, hm'] at run
      obtain ⟨outcome, hn, halike⟩ := ih hnext run
      exact ⟨outcome, (ends_iff_of_goes ⟨fuel, hm⟩).2 hn, halike⟩

theorem flushed_alike {outcome outcome' : Outcome} (h : Alike Eq outcome outcome') :
    Alike Eq (Engine.flushed outcome) (Engine.flushed outcome') := by
  cases h with
  | error category_eq related => exact .error category_eq related
  | @ok v e e' related =>
    subst related
    cases Engine.flushed (.ok v e) with
    | ok => exact .ok rfl
    | error => exact .error rfl rfl

/-- Code may be replaced by code that it embeds in. -/
theorem interchangeable (h : Embedding position c c') : c.Interchangeable c' := by
  intro e
  have twin : Paired (Twin position c c') ⟨e, .ofModule c⟩ ⟨e, .ofModule c'⟩ :=
    ⟨rfl, rfl, rfl, rfl, rfl, Placement.aligned_zero⟩
  constructor
  · intro outcome hends
    obtain ⟨inner, ⟨fuel, run⟩, rfl⟩ := Engine.ends_iff.1 hends
    obtain ⟨inner', hinner', halike⟩ := h.ends_right twin run
    exact ⟨_, Engine.ends_iff.2 ⟨inner', hinner', rfl⟩, flushed_alike halike⟩
  · intro outcome' hends
    obtain ⟨inner', ⟨fuel, run⟩, rfl⟩ := Engine.ends_iff.1 hends
    obtain ⟨inner, hinner, halike⟩ := h.ends_left twin run
    exact ⟨_, Engine.ends_iff.2 ⟨inner, hinner, rfl⟩, flushed_alike halike⟩

end Embedding

end Bytecode
