import Bytecode.Proofs.Embedding

set_option autoImplicit false

/-!
# Instructions that may be put in

An exhausted loop goes on where its header leads, past an `END_FOR` there and past a `POP_TOP` after
that.  The same loop can be written without the `END_FOR`, as long as what follows it is no
`POP_TOP` of other code, which would then be taken for a part of the epilogue.

The listings of one program differ between versions of the compiler in the offsets and in the
instructions that do nothing.  Neither matters to a run: fillers may stand anywhere but within the
epilogue of a loop, which is recognised by `END_FOR` and `POP_TOP` standing together.

Main statements: `interchangeable_of_endForInserted`, both ways of writing a loop do the same, and
`not_interchangeable_before_popTop`, before a `POP_TOP` they do not; `interchangeable_of_padded`.
-/

namespace Bytecode

/-! ## Loops with and without an epilogue -/

/-- Where instructions stand after one has been put in at `target`. -/
def shifted (target k : Nat) : Nat :=
  if k < target then k else k + 1

theorem shifted_lt_shifted {target j k : Nat} (h : j < k) :
    shifted target j < shifted target k := by
  unfold shifted
  split <;> split <;> omega

/-- `c'` is `c` with an `END_FOR` put in before the target of the loop header at `header`, which
now leads there, and at other offsets. -/
structure Code.EndForInserted (c : Code) (header target : Nat) (c' : Code) : Prop where
  indexed : c.Indexed
  indexed' : c'.Indexed
  length_eq : c'.instructions.length = c.instructions.length + 1
  inserted : c'.opcode? target = some .endFor
  /-- Opcodes stay, and the operands of all that is no jump. -/
  kept : ∀ {k i}, c.instructions[k]? = some i →
    ∃ i', c'.instructions[shifted target k]? = some i' ∧ i.SameOperation i'
  header_forIter : c.opcode? header = some .forIter
  /-- The loop header leads to the `END_FOR`. -/
  leads : ∀ {i i'}, c.instructions[header]? = some i →
    c'.instructions[shifted target header]? = some i' →
    c.resolveJump i = .ok target ∧ c'.resolveJump i' = .ok target
  /-- Every other jump leads to the instruction it led to before, or fails as it did. -/
  jump : ∀ {k i i'}, k ≠ header → c.instructions[k]? = some i →
    c'.instructions[shifted target k]? = some i' → i.opcode.isJump →
    Moved (shifted target) (c.resolveJump i) (c'.resolveJump i')

namespace Code.EndForInserted

variable {header target : Nat} {c c' : Code}

theorem target_lt (h : c.EndForInserted header target c') : target < c.instructions.length := by
  obtain ⟨i, hi, -⟩ := Option.map_eq_some_iff.1 h.header_forIter
  obtain ⟨i', hi', -⟩ := h.kept hi
  exact h.indexed.lt_length_of_resolveJump (h.leads hi hi').1

theorem placement (h : c.EndForInserted header target c') :
    Placement (shifted target) c c' where
  increasing hjk _ := shifted_lt_shifted hjk
  position_length := by
    have hlt := h.target_lt
    rw [h.length_eq, shifted, if_neg (by omega)]
  kept := h.kept
  idle {k i} hi hnot := by
    -- only the target is not the place of an instruction of `c`
    have hk : k = target := by
      have hlt := (List.getElem?_eq_some_iff.1 hi).1
      rw [h.length_eq] at hlt
      have htarget := h.target_lt
      rcases Nat.lt_trichotomy k target with hless | heq | hgreater
      · exact absurd (if_pos hless) (hnot k (by omega))
      · exact heq
      · have hplace : shifted target (k - 1) = k := by
          rw [shifted, if_neg (by omega)]
          omega
        exact absurd hplace (hnot (k - 1) (by omega))
    subst hk
    have hop := h.inserted
    rw [Code.opcode?_of_instruction hi, Option.some.injEq] at hop
    exact .inr hop

/-- What an exhausted loop skips of the epilogue is what has been put in. -/
theorem pastEpilogue_target (h : c.EndForInserted header target c')
    (notPopTop : c.opcode? target ≠ some .popTop) :
    c'.pastEpilogue target = shifted target target := by
  have hnext : c'.opcode? (target + 1) = c.opcode? target := by
    rw [← h.placement.opcode?_position (Nat.le_of_lt h.target_lt), shifted,
      if_neg (Nat.lt_irrefl _)]
  unfold Code.pastEpilogue
  rw [if_pos h.inserted, hnext, if_neg notPopTop, shifted, if_neg (Nat.lt_irrefl _)]

theorem embedding (h : c.EndForInserted header target c')
    (notEndFor : c.opcode? target ≠ some .endFor) (notPopTop : c.opcode? target ≠ some .popTop) :
    Embedding (shifted target) c c' where
  toPlacement := h.placement
  jump {k i i'} hi hi' hjump hop := by
    have hne : k ≠ header := by
      rintro rfl
      have hforIter := h.header_forIter
      rw [Code.opcode?_of_instruction hi, Option.some.injEq] at hforIter
      exact hop hforIter
    exact h.placement.lands_of_moved h.indexed (h.jump hne hi hi' hjump)
  loop {k i i'} hi hi' hop := by
    by_cases hk : k = header
    · subst hk
      obtain ⟨hleads, hleads'⟩ := h.leads hi hi'
      rw [Code.loopEnd_of_ok hleads, Code.loopEnd_of_ok hleads',
        Code.pastEpilogue_of_ne notEndFor, h.pastEpilogue_target notPopTop]
      exact .ok (h.placement.aligned_position (Nat.le_of_lt h.target_lt))
    · have hjump : i.opcode.isJump := by
        rw [hop]
        rfl
      refine h.placement.lands_loopEnd_of_moved h.indexed ?_ (h.jump hk hi hi' hjump)
      -- only an epilogue whose `POP_TOP` is the target would be torn apart
      intro j _ hpop
      have hj : j + 1 ≠ target := by
        rintro rfl
        exact notPopTop hpop
      unfold shifted
      split <;> split <;> omega

end Code.EndForInserted

/-- A loop may be written with an `END_FOR` or without one: if the header leads neither to an
`END_FOR` nor to a `POP_TOP`, an `END_FOR` can be put in between and the header led to that, and
on every engine runs end as they did. -/
theorem interchangeable_of_endForInserted {header target : Nat} {c c' : Code}
    (inserted : c.EndForInserted header target c')
    (notEndFor : c.opcode? target ≠ some .endFor)
    (notPopTop : c.opcode? target ≠ some .popTop) : c.Interchangeable c' :=
  (inserted.embedding notEndFor notPopTop).interchangeable

/-- An empty loop before the end of the code. -/
theorem interchangeable_of_endForInserted_returnConst :
    let c : Code := ⟨"", 0, [],
      [⟨0, .loadConst, none, some (.tuple [])⟩, ⟨2, .getIter, none, none⟩,
        ⟨4, .forIter, none, some (.int 6)⟩, ⟨6, .returnConst, none, some (.int 1)⟩],
      ⟨[(0, 0), (2, 1), (4, 2), (6, 3)]⟩⟩
    let c' : Code := ⟨"", 0, [],
      [⟨0, .loadConst, none, some (.tuple [])⟩, ⟨2, .getIter, none, none⟩,
        ⟨4, .forIter, none, some (.int 8)⟩, ⟨8, .endFor, none, none⟩,
        ⟨10, .returnConst, none, some (.int 1)⟩],
      ⟨[(0, 0), (2, 1), (4, 2), (8, 3), (10, 4)]⟩⟩
    c.EndForInserted 2 3 c' ∧ c.opcode? 3 ≠ some .endFor ∧ c.opcode? 3 ≠ some .popTop ∧
      c.Interchangeable c' := by
  intro c c'
  have inserted : c.EndForInserted 2 3 c' :=
    { indexed := rfl
      indexed' := rfl
      length_eq := rfl
      inserted := rfl
      kept := by
        intro k i hi
        match k, hi with
        | 0, rfl | 1, rfl | 3, rfl => exact ⟨_, rfl, rfl, fun _ => rfl, fun _ => rfl⟩
        | 2, rfl => exact ⟨_, rfl, rfl, nofun, nofun⟩
      header_forIter := rfl
      leads := by
        rintro i i' hi hi'
        cases hi
        cases hi'
        exact ⟨rfl, rfl⟩
      jump := by
        intro k i i' hne hi _ hjump
        match k, hi with
        | 2, _ => exact absurd rfl hne
        | 0, rfl | 1, rfl | 3, rfl => cases hjump }
  exact ⟨inserted, nofun, nofun, interchangeable_of_endForInserted inserted nofun nofun⟩

/-- Before a `POP_TOP` an `END_FOR` cannot be put in: with it, what follows the loop here is taken
for its epilogue, and the operand on top is returned that was to be taken off. -/
theorem not_interchangeable_before_popTop :
    let c : Code := ⟨"", 0, [],
      [⟨0, .loadConst, none, some (.int 1)⟩, ⟨2, .loadConst, none, some (.int 2)⟩,
        ⟨4, .loadConst, none, some (.tuple [])⟩, ⟨6, .getIter, none, none⟩,
        ⟨8, .forIter, none, some (.int 10)⟩, ⟨10, .popTop, none, none⟩,
        ⟨12, .returnValue, none, none⟩],
      ⟨[(0, 0), (2, 1), (4, 2), (6, 3), (8, 4), (10, 5), (12, 6)]⟩⟩
    let c' : Code := ⟨"", 0, [],
      [⟨0, .loadConst, none, some (.int 1)⟩, ⟨2, .loadConst, none, some (.int 2)⟩,
        ⟨4, .loadConst, none, some (.tuple [])⟩, ⟨6, .getIter, none, none⟩,
        ⟨8, .forIter, none, some (.int 10)⟩, ⟨10, .endFor, none, none⟩,
        ⟨12, .popTop, none, none⟩, ⟨14, .returnValue, none, none⟩],
      ⟨[(0, 0), (2, 1), (4, 2), (6, 3), (8, 4), (10, 5), (12, 6), (14, 7)]⟩⟩
    c.EndForInserted 4 5 c' ∧ c.opcode? 5 ≠ some .endFor ∧ ¬ c.Interchangeable c' := by
  intro c c'
  have inserted : c.EndForInserted 4 5 c' :=
    { indexed := rfl
      indexed' := rfl
      length_eq := rfl
      inserted := rfl
      kept := by
        intro k i hi
        match k, hi with
        | 0, rfl | 1, rfl | 2, rfl | 3, rfl | 5, rfl | 6, rfl =>
          exact ⟨_, rfl, rfl, fun _ => rfl, fun _ => rfl⟩
        | 4, rfl => exact ⟨_, rfl, rfl, nofun, nofun⟩
      header_forIter := rfl
      leads := by
        rintro i i' hi hi'
        cases hi
        cases hi'
        exact ⟨rfl, rfl⟩
      jump := by
        intro k i i' hne hi _ hjump
        match k, hi with
        | 4, _ => exact absurd rfl hne
        | 0, rfl | 1, rfl | 2, rfl | 3, rfl | 5, rfl | 6, rfl => cases hjump }
  refine ⟨inserted, nofun, fun interchangeable => ?_⟩
  let e : Engine := .fresh .standard .unlimited
  have hends : Engine.Ends c e (.ok (.int 1) e) := ⟨7, rfl⟩
  have hends' : Engine.Ends c' e (.ok (.int 2) e) := ⟨7, rfl⟩
  obtain ⟨outcome', houtcome', halike⟩ := (interchangeable e).1 _ hends
  rw [← hends'.unique houtcome'] at halike
  cases halike

/-! ## Fillers and offsets -/

/-- `c'` is `c` with fillers put in and at other offsets; `position` says where the
instructions of `c` stand in `c'`. -/
structure Code.Padded (c : Code) (position : Nat → Nat) (c' : Code) : Prop where
  indexed : c.Indexed
  indexed' : c'.Indexed
  increasing : ∀ {j k}, j < k → k ≤ c.instructions.length → position j < position k
  position_length : position c.instructions.length = c'.instructions.length
  /-- Opcodes stay, and the operands of all that is no jump. -/
  kept : ∀ {k i}, c.instructions[k]? = some i →
    ∃ i', c'.instructions[position k]? = some i' ∧ i.SameOperation i'
  filler : ∀ {k i}, c'.instructions[k]? = some i →
    (∀ j < c.instructions.length, position j ≠ k) → i.opcode = .nop
  /-- Nothing is put between the instructions of an epilogue. -/
  epilogue : ∀ k, c.opcode? k = some .endFor → c.opcode? (k + 1) = some .popTop →
    position (k + 1) = position k + 1
  /-- A jump leads to the instruction it led to before, or fails as it did. -/
  jump : ∀ {k i i'}, c.instructions[k]? = some i → c'.instructions[position k]? = some i' →
    i.opcode.isJump → Moved position (c.resolveJump i) (c'.resolveJump i')

namespace Code.Padded

variable {position : Nat → Nat} {c c' : Code}

theorem placement (h : c.Padded position c') : Placement position c c' where
  increasing := h.increasing
  position_length := h.position_length
  kept := h.kept
  idle hi hnot := .inl (h.filler hi hnot)

theorem embedding (h : c.Padded position c') : Embedding position c c' where
  toPlacement := h.placement
  jump hi hi' hjump _ := h.placement.lands_of_moved h.indexed (h.jump hi hi' hjump)
  loop {k i i'} hi hi' hop := by
    have hjump : i.opcode.isJump := by
      rw [hop]
      rfl
    exact h.placement.lands_loopEnd_of_moved h.indexed h.epilogue (h.jump hi hi' hjump)

end Code.Padded

/-- Fillers and offsets do not matter: on every engine the runs of code and of the same code
with fillers end in the same way, if one of them ends. -/
theorem interchangeable_of_padded {position : Nat → Nat} {c c' : Code}
    (padded : c.Padded position c') : c.Interchangeable c' :=
  padded.embedding.interchangeable

/-- An empty loop with fillers before it, at its end and after it. -/
theorem interchangeable_of_padded_loop :
    let position : Nat → Nat := fun k => if k < 3 then k + 1 else k + 2
    let c : Code := ⟨"", 0, [],
      [⟨0, .loadConst, none, some (.tuple [])⟩, ⟨2, .getIter, none, none⟩,
        ⟨4, .forIter, none, some (.int 6)⟩, ⟨6, .endFor, none, none⟩, ⟨8, .popTop, none, none⟩],
      ⟨[(0, 0), (2, 1), (4, 2), (6, 3), (8, 4)]⟩⟩
    let c' : Code := ⟨"", 0, [],
      [⟨0, .nop, none, none⟩, ⟨4, .loadConst, none, some (.tuple [])⟩, ⟨6, .getIter, none, none⟩,
        ⟨8, .forIter, none, some (.int 20)⟩, ⟨12, .nop, none, none⟩, ⟨20, .endFor, none, none⟩,
        ⟨22, .popTop, none, none⟩],
      ⟨[(0, 0), (4, 1), (6, 2), (8, 3), (12, 4), (20, 5), (22, 6)]⟩⟩
    c.Padded position c' ∧ c.Interchangeable c' := by
  intro position c c'
  have padded : c.Padded position c' :=
    { indexed := rfl
      indexed' := rfl
      increasing := by
        intro j k hjk _
        simp only [position]
        split <;> split <;> omega
      position_length := rfl
      kept := by
        intro k i hi
        match k, hi with
        | 0, rfl | 1, rfl | 3, rfl | 4, rfl => exact ⟨_, rfl, rfl, fun _ => rfl, fun _ => rfl⟩
        | 2, rfl => exact ⟨_, rfl, rfl, nofun, nofun⟩
      filler := by
        intro k i hi hnot
        match k, hi with
        | 0, rfl | 4, rfl => rfl
        | 1, _ => exact absurd rfl (hnot 0 (by decide))
        | 2, _ => exact absurd rfl (hnot 1 (by decide))
        | 3, _ => exact absurd rfl (hnot 2 (by decide))
        | 5, _ => exact absurd rfl (hnot 3 (by decide))
        | 6, _ => exact absurd rfl (hnot 4 (by decide))
      epilogue := by
        intro k hend _
        match k, hend with
        | 3, _ => rfl
      jump := by
        intro k i i' hi hi' hjump
        match k, hi with
        | 2, rfl =>
          cases hi'
          exact .ok 3
        | 0, rfl | 1, rfl | 3, rfl | 4, rfl => cases hjump }
  exact ⟨padded, interchangeable_of_padded padded⟩

end Bytecode
