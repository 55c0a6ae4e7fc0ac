import Bytecode.Builtin
import Mathlib.Data.String.Basic

set_option autoImplicit false

/-!
# What is left of an iteration

The numbers of a range are `start + i * step`, counted over unbounded integers, as far as they lie
strictly before `stop`, and `Range.length` counts them.  The sums of a cursor are of 64-bit integers
and cut off at `stop`; still every step of it leaves one number less.  So the elements that are left
to a cursor can be listed, each with the cursor behind it: the `trail` of a cursor.

Main statements: `Range.lt_length_iff`, a range has as many numbers as its length says,
`Cursor.bound_lt_of_advance`, `Cursor.trail_eq_nil_iff` and `Cursor.trail_eq_cons_iff`, which say
how a trail begins, and `Cursor.addUpTo_eq_foldlM`, a sum is that of all elements.
-/

namespace Bytecode

/-! ## Numbers of a range -/

namespace Range

/-- Strictly before `stop` in the direction of `step`; nothing is, where there is no direction. -/
def Before (n stop step : Int) : Prop :=
  (0 < step ∧ n < stop) ∨ (step < 0 ∧ stop < n)

instance (n stop step : Int) : Decidable (Before n stop step) :=
  inferInstanceAs (Decidable (_ ∨ _))

/-- The number that is `i` steps from the start, if it lies before the stop. -/
def number? (r : Range) (i : Nat) : Option Int :=
  let n := r.start.toInt + i * r.step.toInt
  if Before n r.stop.toInt r.step.toInt then some n else none

theorem isSome_number?_iff {r : Range} {i : Nat} :
    (r.number? i).isSome ↔ Before (r.start.toInt + i * r.step.toInt) r.stop.toInt r.step.toInt := by
  simp [number?]

/-- What is beyond the stop does not come back before it. -/
theorem Before.of_add_mul {n stop step : Int} {i : Nat} (h : Before (n + i * step) stop step) :
    Before n stop step := by
  have hi : (0 : Int) ≤ i := Int.natCast_nonneg i
  rcases h with ⟨hstep, hlt⟩ | ⟨hstep, hlt⟩
  · have hnonneg : 0 ≤ i * step := Int.mul_nonneg hi hstep.le
    exact .inl ⟨hstep, by omega⟩
  · have hnonpos : i * step ≤ 0 := Int.mul_nonpos_of_nonneg_of_nonpos hi hstep.le
    exact .inr ⟨hstep, by omega⟩

theorem lt_toNat_ediv_iff {distance step : Int} (hstep : 0 < step) (hdistance : 0 < distance)
    {i : Nat} : i < ((distance - 1) / step + 1).toNat ↔ i * step < distance := by
  have hnonneg : 0 ≤ (distance - 1) / step := Int.ediv_nonneg (by omega) hstep.le
  have hle : (i : Int) ≤ (distance - 1) / step ↔ i * step ≤ distance - 1 :=
    Int.le_ediv_iff_mul_le hstep
  omega

/-- A range has as many numbers as its length says. -/
theorem lt_length_iff {r : Range} {i : Nat} : i < r.length ↔ (r.number? i).isSome := by
  rw [isSome_number?_iff]
  unfold length
  simp only
  split
  · next hpos =>
    rw [lt_toNat_ediv_iff hpos.1 (by omega)]
    unfold Before
    omega
  · split
    · next hneg =>
      rw [lt_toNat_ediv_iff (Int.neg_pos_of_neg hneg.1) (by omega), Int.mul_neg]
      unfold Before
      omega
    · next hpos hneg =>
      refine iff_of_false (Nat.not_lt_zero i) fun before => ?_
      rcases before.of_add_mul with hbefore | hbefore
      · exact hpos hbefore
      · exact hneg hbefore

theorem length_pos_iff {r : Range} :
    0 < r.length ↔ Before r.start.toInt r.stop.toInt r.step.toInt := by
  rw [lt_length_iff, isSome_number?_iff, Int.natCast_zero, Int.zero_mul, Int.add_zero]

/-- The length of a range fits in 64 bits, whatever its bounds. -/
theorem length_lt (r : Range) : r.length < UInt64.size := by
  have hsize : UInt64.size = 18446744073709551616 := rfl
  refine Nat.lt_of_not_le fun hge => ?_
  have hlast : 18446744073709551615 < r.length := by omega
  rw [lt_length_iff, isSome_number?_iff] at hlast
  have hstart := r.start.le_toInt
  have hstart' := r.start.toInt_lt
  have hstop := r.stop.le_toInt
  have hstop' := r.stop.toInt_lt
  unfold Before at hlast
  omega

end Range

namespace Cursor

/-! ## Every step brings a cursor closer to its end -/

theorem isBefore_iff {next stop step : Int64} :
    isBefore next stop step ↔ Range.Before next.toInt stop.toInt step.toInt := by
  simp [isBefore, Range.Before, Int64.lt_iff_toInt_lt]

/-- A step that would leave the 64-bit integers leads past the stop, which is one of them. -/
theorem successor_cases (next stop step : Int64) :
    (successor next stop step).toInt = next.toInt + step.toInt ∨
      successor next stop step = stop ∧
        ¬ Range.Before (next.toInt + step.toInt) stop.toInt step.toInt := by
  unfold successor
  cases h : Text.toInt64? (next.toInt + step.toInt) with
  | some n => exact .inl (Text.toInt_of_toInt64? h)
  | none =>
    refine .inr ⟨rfl, ?_⟩
    have hnext := next.le_toInt
    have hnext' := next.toInt_lt
    have hstop := stop.le_toInt
    have hstop' := stop.toInt_lt
    unfold Text.toInt64? at h
    split at h
    · cases h
    · next outside =>
      rw [Int64.toInt_minValue, Int64.toInt_maxValue] at outside
      unfold Range.Before
      omega

/-- Behind the first number of a range come those of the range from its successor on. -/
theorem number?_successor (next stop step : Int64) (i : Nat) :
    (Range.mk (successor next stop step) stop step).number? i =
      (Range.mk next stop step).number? (i + 1) := by
  have hsum : next.toInt + ((i + 1 : Nat) : Int) * step.toInt =
      next.toInt + step.toInt + i * step.toInt := by
    rw [Int.natCast_succ, Int.add_mul, Int.one_mul]
    omega
  unfold Range.number?
  simp only [hsum]
  rcases successor_cases next stop step with hnext | ⟨hstop, hpast⟩
  · rw [hnext]
  · rw [hstop, if_neg, if_neg (fun before => hpast before.of_add_mul)]
    intro before
    have hbefore : Range.Before stop.toInt stop.toInt step.toInt := before.of_add_mul
    unfold Range.Before at hbefore
    omega

/-- The successor leaves one number less. -/
theorem lt_length_successor_iff (next stop step : Int64) (i : Nat) :
    i < (Range.mk (successor next stop step) stop step).length ↔
      i + 1 < (Range.mk next stop step).length := by
  rw [Range.lt_length_iff, Range.lt_length_iff, number?_successor]

theorem bound_range_lt {next stop step : Int64} (h : isBefore next stop step) :
    (range (successor next stop step) stop step).bound < (range next stop step).bound := by
  have hpos : 0 < (Range.mk next stop step).length := Range.length_pos_iff.2 (isBefore_iff.1 h)
  simp only [bound]
  cases hlength : (Range.mk (successor next stop step) stop step).length with
  | zero => exact hpos
  | succ i =>
    refine (lt_length_successor_iff next stop step i).1 ?_
    rw [hlength]
    exact Nat.lt_succ_self i

/-- A character that is found at a position ends within the characters that are searched. -/
theorem add_utf8Size_le_of_utf8GetAux? {p : String.Pos.Raw} {c : Char} :
    ∀ {cs : List Char} {i : String.Pos.Raw}, String.Pos.Raw.utf8GetAux? cs i p = some c →
      p.byteIdx + c.utf8Size ≤ i.byteIdx + String.utf8Len cs
  | [], _, h => nomatch h
  | a :: cs, i, h => by
    rw [String.utf8Len_cons]
    simp only [String.Pos.Raw.utf8GetAux?] at h
    split at h
    · next heq =>
      cases h
      subst heq
      omega
    · have hrest := add_utf8Size_le_of_utf8GetAux? h
      rw [String.Pos.Raw.byteIdx_add_char] at hrest
      omega

theorem add_utf8Size_le_of_get? {text : String} {pos : Nat} {c : Char}
    (h : String.Pos.Raw.get? text ⟨pos⟩ = some c) :
    pos + c.utf8Size ≤ text.utf8ByteSize := by
  have hle := add_utf8Size_le_of_utf8GetAux? h
  rwa [String.Pos.Raw.byteIdx_zero, Nat.zero_add, String.utf8Len_toList] at hle

theorem bound_lt_of_advance {c rest : Cursor} {item : Value}
    (h : c.advance = some (item, rest)) : rest.bound < c.bound := by
  cases c with
  | range next stop step =>
    simp only [advance] at h
    split at h
    · next hbefore =>
      cases h
      exact bound_range_lt hbefore
    · cases h
  | items list pos =>
    obtain ⟨v, hv, heq⟩ := Option.map_eq_some_iff.1 h
    cases heq
    have hlt := (List.getElem?_eq_some_iff.1 hv).1
    simp only [bound]
    omega
  | chars text pos =>
    obtain ⟨ch, hch, heq⟩ := Option.map_eq_some_iff.1 h
    cases heq
    have hle := add_utf8Size_le_of_get? hch
    have hpos := ch.utf8Size_pos
    simp only [bound]
    omega

/-! ## The elements that are left -/

/-- The elements that are left, each with the cursor behind it. -/
def trail (c : Cursor) : List (Value × Cursor) :=
  match _ : c.advance with
  | none => []
  | some (item, rest) => (item, rest) :: rest.trail
termination_by c.bound
decreasing_by exact bound_lt_of_advance ‹_›

theorem trail_of_none {c : Cursor} (h : c.advance = none) : c.trail = [] := by
  rw [trail]
  split
  · rfl
  · next hsome => rw [h] at hsome; cases hsome

theorem trail_of_some {c rest : Cursor} {item : Value} (h : c.advance = some (item, rest)) :
    c.trail = (item, rest) :: rest.trail := by
  rw [trail]
  split
  · next hnone => rw [h] at hnone; cases hnone
  · next hsome =>
    rw [h] at hsome
    cases hsome
    rfl

theorem trail_eq_nil_iff {c : Cursor} : c.trail = [] ↔ c.advance = none := by
  constructor
  · intro htrail
    cases hadvance : c.advance with
    | none => rfl
    | some next =>
      rw [trail_of_some hadvance] at htrail
      cases htrail
  · exact trail_of_none

theorem trail_eq_cons_iff {c rest : Cursor} {item : Value} {tail : List (Value × Cursor)} :
    c.trail = (item, rest) :: tail ↔ c.advance = some (item, rest) ∧ rest.trail = tail := by
  constructor
  · intro htrail
    cases hadvance : c.advance with
    | none =>
      rw [trail_of_none hadvance] at htrail
      cases htrail
    | some next =>
      rw [trail_of_some hadvance] at htrail
      cases htrail
      exact ⟨rfl, rfl⟩
  · rintro ⟨hadvance, rfl⟩
    exact trail_of_some hadvance

/-! ## Sums -/

/-- A sum goes over all elements that are left, and is not cut short by the number of rounds that it
is given. -/
theorem addUpTo_eq_foldlM {limit : Nat} {c : Cursor} (hlimit : c.bound ≤ limit) (total : Value) :
    c.addUpTo limit total = (c.trail.map (·.1)).foldlM Operator.add.apply total := by
  induction limit generalizing c total with
  | zero =>
    cases advanced : c.advance with
    | none =>
      rw [trail_of_none advanced]
      rfl
    | some next =>
      have hlt := bound_lt_of_advance advanced
      omega
  | succ limit ih =>
    cases advanced : c.advance with
    | none =>
      rw [trail_of_none advanced]
      simp only [addUpTo, advanced]
      rfl
    | some next =>
      obtain ⟨item, rest⟩ := next
      have hlt := bound_lt_of_advance advanced
      rw [trail_of_some advanced, List.map_cons, List.foldlM_cons]
      simp only [addUpTo, advanced]
      cases Operator.add.apply total item with
      | error fault => rfl
      | ok sum => exact ih (by omega) sum

end Cursor

end Bytecode
