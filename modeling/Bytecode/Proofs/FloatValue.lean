import Bytecode.Decimal
import Mathlib.Algebra.Order.Field.Power
import Mathlib.Algebra.Order.Ring.Rat
import Mathlib.Tactic.GCongr
import Mathlib.Tactic.NormNum
import Mathlib.Tactic.Positivity
import Mathlib.Tactic.Ring

set_option autoImplicit false

/-!
# The numbers that floats are

A finite float is a rational number, and floats are compared as these numbers are.  The model of
floats compares exponents first and significands second; that is sound because a significand has
all its bits unless its exponent is the least one.

Main statements: `Dyadic.unpack_eq`, which relates the model's form of a float to ours, and
`lt_iff` and `beq_iff`.
-/

namespace Bytecode.Decimal

open Float.Model
open Float.Model.UnpackedFloat (Sign unpackSign unpackMantissa unpackExponent)

namespace Dyadic

/-- The rational number that this is. -/
def toRat (d : Dyadic) : ℚ :=
  (if d.negative then -1 else 1) * (d.significand * 2 ^ d.exponent)

/-- The significand has all its bits, unless the exponent is the least one. -/
structure Canonical (d : Dyadic) : Prop where
  significand_lt : d.significand < 2 ^ 53
  exponent_ge : -1074 ≤ d.exponent
  full : 2 ^ 52 ≤ d.significand ∨ d.exponent = -1074

/-- The sign, as the model of floats has it. -/
def sign (d : Dyadic) : Sign :=
  if d.negative then .negative else .positive

/-- The number in the form in which the model of floats computes. -/
def unpacked (d : Dyadic) : UnpackedFloat :=
  if h : d.significand = 0 then .zero d.sign
  else .finite d.sign d.significand d.exponent (Nat.pos_of_ne_zero h)

theorem canonical_ofFloat (x : Float) : (ofFloat x).Canonical := by
  have hfraction : x.toBits.toNat % leadingBit < leadingBit := Nat.mod_lt _ (by decide)
  have hleading : leadingBit = 2 ^ 52 := rfl
  have hleast : leastExponent = -1074 := rfl
  unfold ofFloat
  simp only [beq_iff_eq]
  split
  · exact ⟨by simp only; omega, by simp [hleast], .inr rfl⟩
  · exact ⟨by simp only; omega, by simp only [hleast]; omega, .inl (by simp only; omega)⟩

/-! ## Unpacking -/

/-- The bits of a float, as the model of floats unpacks them. -/
abbrev bitsOf (x : Float) : BitVec Format.binary64.numBits :=
  x.toModel.toBits.toBitVec

theorem toNat_unpackMantissa (x : Float) :
    (unpackMantissa (bitsOf x)).toNat = x.toBits.toNat % leadingBit :=
  rfl

theorem toNat_unpackExponent (x : Float) :
    (unpackExponent (bitsOf x)).toNat = x.toBits.toNat / leadingBit % Nat.pow 2 11 := by
  show (x.toBits.toNat >>> 52) % 2 ^ 11 = x.toBits.toNat / 2 ^ 52 % 2 ^ 11
  rw [Nat.shiftRight_eq_div_pow]

theorem toNat_unpackSign (x : Float) :
    (unpackSign (bitsOf x)).toNat = x.toBits.toNat / Nat.pow 2 63 := by
  have hlt : x.toBits.toNat < 2 ^ 64 := x.toBits.toNat_lt
  show (x.toBits.toNat >>> 63) % 2 ^ 1 = x.toBits.toNat / 2 ^ 63
  rw [Nat.shiftRight_eq_div_pow]
  omega

/-- The parts of a float are those that the model of floats unpacks. -/
theorem ofFloat_eq (x : Float) :
    ofFloat x =
      if unpackExponent (bitsOf x) = 0#_ then
        ⟨unpackSign (bitsOf x) = 1#1, (unpackMantissa (bitsOf x)).toNat, -1074⟩
      else
        ⟨unpackSign (bitsOf x) = 1#1, 2 ^ 52 + (unpackMantissa (bitsOf x)).toNat,
          -1074 + ((unpackExponent (bitsOf x)).toNat - 1)⟩ := by
  simp only [← BitVec.toNat_inj, toNat_unpackMantissa, toNat_unpackExponent, toNat_unpackSign]
  unfold ofFloat
  dsimp only
  rw [BitVec.toNat_zero, BitVec.toNat_one (by decide)]
  simp only [beq_iff_eq]
  rfl

theorem sign_ofFloat (x : Float) : (ofFloat x).sign = Sign.ofBitVec (unpackSign (bitsOf x)) := by
  have hnegative : (ofFloat x).negative = (unpackSign (bitsOf x) = 1#1 : Bool) := by
    rw [ofFloat_eq]
    split <;> rfl
  rw [sign, hnegative, Sign.ofBitVec]
  rcases BitVec.eq_zero_or_eq_one (unpackSign (bitsOf x)) with h | h <;> simp [h]

/-- The first bit of a significand with all its bits is not stored. -/
theorem toNat_one_append (m : BitVec 52) : (1#1 ++ m).toNat = 2 ^ 52 + m.toNat := by
  show 2 ^ 52 ||| m.toNat = _
  rw [Nat.or_comm, Nat.or_two_pow_eq_add_of_lt m.isLt, Nat.add_comm]

theorem unpacked_eq_zero {d : Dyadic} {s : Sign} (hs : d.sign = s) (hm : d.significand = 0) :
    d.unpacked = .zero s := by
  rw [unpacked, dif_pos hm, hs]

theorem unpacked_eq_finite {d : Dyadic} {s : Sign} {m : Nat} {e : Int} {hpos : 0 < m}
    (hs : d.sign = s) (hm : d.significand = m) (he : d.exponent = e) :
    d.unpacked = .finite s m e hpos := by
  subst hs hm he
  exact dif_neg (Nat.ne_of_gt hpos)

/-- Infinities and NaN have all bits of the exponent. -/
theorem unpack_of_special {x : Float} (hspecial : unpackExponent (bitsOf x) = -1#_) :
    x.toModel.unpack = .infinity (ofFloat x).sign ∨ x.toModel.unpack = .notANumber := by
  by_cases hmantissa : unpackMantissa (bitsOf x) = 0#_
  · left
    rw [sign_ofFloat]
    exact (if_pos hspecial).trans (if_pos hmantissa)
  · right
    exact (if_pos hspecial).trans (if_neg hmantissa)

/-- What the model of floats computes with is the float's value where that is finite. -/
theorem unpack_of_not_special {x : Float} (hspecial : unpackExponent (bitsOf x) ≠ -1#_) :
    x.toModel.unpack = (ofFloat x).unpacked := by
  have hofFloat := ofFloat_eq x
  have hbias : Format.binary64.exponentBias = 1023 := rfl
  by_cases hzero : unpackExponent (bitsOf x) = 0#_
  · rw [if_pos hzero] at hofFloat
    by_cases hmantissa : unpackMantissa (bitsOf x) = 0#_
    · have hunpack : x.toModel.unpack = .zero (Sign.ofBitVec (unpackSign (bitsOf x))) :=
        (if_neg hspecial).trans ((if_pos hzero).trans (dif_pos hmantissa))
      rw [hunpack]
      refine (unpacked_eq_zero (sign_ofFloat x) ?_).symm
      rw [hofFloat, hmantissa]
      rfl
    · have hunpack : x.toModel.unpack = _ :=
        (if_neg hspecial).trans ((if_pos hzero).trans (dif_neg hmantissa))
      rw [hunpack]
      refine (unpacked_eq_finite (sign_ofFloat x) ?_ ?_).symm
      · rw [hofFloat]
      · rw [hofFloat, hzero, hbias]
        rfl
  · have hunpack : x.toModel.unpack = _ := (if_neg hspecial).trans (if_neg hzero)
    rw [if_neg hzero] at hofFloat
    rw [hunpack]
    refine (unpacked_eq_finite (sign_ofFloat x) ?_ ?_).symm
    · rw [hofFloat, toNat_one_append]
    · rw [hofFloat, hbias]
      show -1074 + (((unpackExponent (bitsOf x)).toNat : Int) - 1) =
        (unpackExponent (bitsOf x)).toNat - (1023 + 52)
      omega

theorem isFinite_unpacked (d : Dyadic) : d.unpacked.isFinite := by
  rcases Nat.eq_zero_or_pos d.significand with hzero | hpos
  · rw [unpacked_eq_zero rfl hzero]
    rfl
  · have hunpacked : d.unpacked = .finite d.sign d.significand d.exponent hpos :=
      unpacked_eq_finite rfl rfl rfl
    rw [hunpacked]
    rfl

/-- What the model of floats computes with is the float's value, or an infinity. -/
theorem unpack_eq {x : Float} (hx : x.isNaN = false) :
    x.toModel.unpack = if x.isInf then .infinity (ofFloat x).sign else (ofFloat x).unpacked := by
  change x.toModel.unpack.isNaN = false at hx
  change _ = if x.toModel.unpack.isInf then _ else _
  by_cases hspecial : unpackExponent (bitsOf x) = -1#_
  · rcases unpack_of_special hspecial with hunpack | hunpack
    · rw [hunpack]
      rfl
    · rw [hunpack] at hx
      cases hx
  · have hfinite := isFinite_unpacked (ofFloat x)
    rw [unpack_of_not_special hspecial]
    cases hunpacked : (ofFloat x).unpacked with
    | zero | finite => rfl
    | infinity | notANumber =>
      rw [hunpacked] at hfinite
      cases hfinite

/-! ## Comparison -/

/-- What has a smaller exponent is less than what has a significand with all its bits. -/
theorem Canonical.magnitude_lt_unit {d : Dyadic} (hd : d.Canonical) {e : Int}
    (hlt : d.exponent < e) : (d.significand * 2 ^ d.exponent : ℚ) < 2 ^ 52 * 2 ^ e := by
  have hsignificand : (d.significand : ℚ) < 2 ^ 53 := by exact_mod_cast hd.significand_lt
  calc (d.significand * 2 ^ d.exponent : ℚ)
      < 2 ^ 53 * 2 ^ d.exponent := by gcongr
    _ = 2 ^ 52 * 2 ^ (d.exponent + 1) := by rw [zpow_add_one₀ (by norm_num)]; ring
    _ ≤ 2 ^ 52 * 2 ^ e := by gcongr <;> [norm_num; omega]

theorem magnitude_lt {c d : Dyadic} (hc : c.Canonical) (hd : d.Canonical)
    (hlt : c.exponent < d.exponent) :
    (c.significand * 2 ^ c.exponent : ℚ) < d.significand * 2 ^ d.exponent := by
  have hexponent := hc.exponent_ge
  have hfull : (2 : ℚ) ^ 52 ≤ d.significand := by
    exact_mod_cast hd.full.resolve_right (by omega)
  calc (c.significand * 2 ^ c.exponent : ℚ)
      < 2 ^ 52 * 2 ^ d.exponent := hc.magnitude_lt_unit hlt
    _ ≤ d.significand * 2 ^ d.exponent := by gcongr

/-- Magnitudes are ordered by exponent and then by significand. -/
theorem compare_magnitude {c d : Dyadic} (hc : c.Canonical) (hd : d.Canonical) :
    (compare c.exponent d.exponent).then (compare c.significand d.significand) =
      cmp (c.significand * 2 ^ c.exponent : ℚ) (d.significand * 2 ^ d.exponent) := by
  rcases lt_trichotomy c.exponent d.exponent with hlt | heq | hgt
  · rw [compare_lt_iff_lt.2 hlt, (cmp_eq_lt_iff _ _).2 (magnitude_lt hc hd hlt)]
    rfl
  · have hunit : (0 : ℚ) < 2 ^ d.exponent := by positivity
    rw [heq, compare_eq_iff_eq.2 rfl, Ordering.eq_then, cmp_mul_pos_right hunit,
      (Nat.strictMono_cast : StrictMono (Nat.cast : ℕ → ℚ)).cmp_map_eq, cmp_eq_compare]
  · rw [compare_gt_iff_gt.2 hgt, (cmp_eq_gt_iff _ _).2 (magnitude_lt hd hc hgt)]
    rfl

theorem abs_toRat (d : Dyadic) : |d.toRat| = d.significand * 2 ^ d.exponent := by
  rw [toRat, abs_mul, abs_of_nonneg (by positivity : (0 : ℚ) ≤ d.significand * 2 ^ d.exponent)]
  split <;> norm_num

/-- What is unpacked is a zero, or a positive or a negative number. -/
theorem unpacked_cases (d : Dyadic) :
    (d.unpacked = .zero d.sign ∧ d.toRat = 0) ∨
    (∃ hpos, d.unpacked = .finite .positive d.significand d.exponent hpos ∧
      d.toRat = d.significand * 2 ^ d.exponent) ∨
    ∃ hpos, d.unpacked = .finite .negative d.significand d.exponent hpos ∧
      d.toRat = -(d.significand * 2 ^ d.exponent) := by
  rcases Nat.eq_zero_or_pos d.significand with hzero | hpos
  · refine .inl ⟨unpacked_eq_zero rfl hzero, ?_⟩
    rw [toRat, hzero, Nat.cast_zero, zero_mul, mul_zero]
  · cases hnegative : d.negative with
    | false =>
      refine .inr (.inl ⟨hpos, unpacked_eq_finite (by simp [sign, hnegative]) rfl rfl, ?_⟩)
      rw [toRat, hnegative, if_neg Bool.false_ne_true, one_mul]
    | true =>
      refine .inr (.inr ⟨hpos, unpacked_eq_finite (by simp [sign, hnegative]) rfl rfl, ?_⟩)
      rw [toRat, if_pos hnegative, neg_one_mul]

/-- Infinities are beyond all numbers. -/
theorem compare_infinity (d : Dyadic) :
    (UnpackedFloat.infinity .positive).compare d.unpacked = some .gt ∧
      (UnpackedFloat.infinity .negative).compare d.unpacked = some .lt ∧
      d.unpacked.compare (.infinity .positive) = some .lt ∧
      d.unpacked.compare (.infinity .negative) = some .gt := by
  rcases unpacked_cases d with ⟨h, -⟩ | ⟨_, h, -⟩ | ⟨_, h, -⟩ <;> rw [h] <;>
    exact ⟨rfl, rfl, rfl, rfl⟩

/-- Finite floats are compared by value. -/
theorem compare_unpacked {c d : Dyadic} (hc : c.Canonical) (hd : d.Canonical) :
    c.unpacked.compare d.unpacked = some (cmp c.toRat d.toRat) := by
  have hcompare := compare_magnitude hc hd
  rcases unpacked_cases c with ⟨hu, hv⟩ | ⟨hpos, hu, hv⟩ | ⟨hpos, hu, hv⟩ <;>
    rcases unpacked_cases d with ⟨hu', hv'⟩ | ⟨hpos', hu', hv'⟩ | ⟨hpos', hu', hv'⟩ <;>
    rw [hu, hu', hv, hv']
  · exact congrArg some (cmp_self_eq_eq (0 : ℚ)).symm
  · exact congrArg some ((cmp_eq_lt_iff _ _).2 (by positivity)).symm
  · exact congrArg some ((cmp_eq_gt_iff _ _).2 (neg_neg_of_pos (by positivity))).symm
  · exact congrArg some ((cmp_eq_gt_iff _ _).2 (by positivity)).symm
  · exact congrArg some hcompare
  · exact congrArg some ((cmp_eq_gt_iff _ _).2
      ((neg_neg_of_pos (by positivity)).trans (by positivity))).symm
  · exact congrArg some ((cmp_eq_lt_iff _ _).2 (neg_neg_of_pos (by positivity))).symm
  · exact congrArg some ((cmp_eq_lt_iff _ _).2
      ((neg_neg_of_pos (by positivity)).trans (by positivity))).symm
  · have hanti : StrictAnti fun q : ℚ => -q := fun _ _ => neg_lt_neg
    rw [hanti.cmp_map_eq, ← cmp_swap, ← hcompare]
    rfl

/-- Numbers of the same value have the same significand. -/
theorem significand_eq {c d : Dyadic} (hc : c.Canonical) (hd : d.Canonical)
    (hvalue : c.toRat = d.toRat) : c.significand = d.significand := by
  have hmagnitude : (c.significand * 2 ^ c.exponent : ℚ) = d.significand * 2 ^ d.exponent := by
    rw [← abs_toRat, ← abs_toRat, hvalue]
  rcases lt_trichotomy c.exponent d.exponent with hlt | heq | hgt
  · exact absurd hmagnitude (magnitude_lt hc hd hlt).ne
  · rw [heq, mul_left_inj' (by positivity)] at hmagnitude
    exact_mod_cast hmagnitude
  · exact absurd hmagnitude (magnitude_lt hd hc hgt).ne'

end Dyadic

/-! ## Floats in order -/

/-- Where a float stands among the numbers, with the infinities at their ends. -/
def place (x : Float) : WithBot (WithTop ℚ) :=
  if x.isInf then if (Dyadic.ofFloat x).negative then ⊥ else ⊤
  else (((Dyadic.ofFloat x).toRat : WithTop ℚ) : WithBot (WithTop ℚ))

variable {x y : Float}

theorem place_of_not_isInf (hx : x.isInf = false) :
    place x = (((Dyadic.ofFloat x).toRat : WithTop ℚ) : WithBot (WithTop ℚ)) := by
  rw [place, hx, if_neg Bool.false_ne_true]

theorem isNaN_eq_false (hx : x.isFinite) : x.isNaN = false := by
  change x.toModel.unpack.isFinite at hx
  show x.toModel.unpack.isNaN = false
  cases h : x.toModel.unpack <;> rw [h] at hx <;> first | rfl | cases hx

theorem isInf_eq_false (hx : x.isFinite) : x.isInf = false := by
  change x.toModel.unpack.isFinite at hx
  show x.toModel.unpack.isInf = false
  cases h : x.toModel.unpack <;> rw [h] at hx <;> first | rfl | cases hx

theorem unpack_of_isFinite (hx : x.isFinite) : x.toModel.unpack = (Dyadic.ofFloat x).unpacked := by
  rw [Dyadic.unpack_eq (isNaN_eq_false hx), isInf_eq_false hx, if_neg Bool.false_ne_true]

theorem place_of_isFinite (hx : x.isFinite) :
    place x = (((Dyadic.ofFloat x).toRat : WithTop ℚ) : WithBot (WithTop ℚ)) :=
  place_of_not_isInf (isInf_eq_false hx)

/-- A float other than NaN is an infinity or a number. -/
theorem unpack_cases (hx : x.isNaN = false) :
    (x.toModel.unpack = .infinity .positive ∧ place x = ⊤) ∨
    (x.toModel.unpack = .infinity .negative ∧ place x = ⊥) ∨
    (x.toModel.unpack = (Dyadic.ofFloat x).unpacked ∧
      place x = (((Dyadic.ofFloat x).toRat : WithTop ℚ) : WithBot (WithTop ℚ))) := by
  have hunpack := Dyadic.unpack_eq hx
  cases hinf : x.isInf with
  | false =>
    rw [hinf, if_neg Bool.false_ne_true] at hunpack
    exact .inr (.inr ⟨hunpack, place_of_not_isInf hinf⟩)
  | true =>
    rw [if_pos hinf, Dyadic.sign] at hunpack
    rw [place, if_pos hinf]
    cases hnegative : (Dyadic.ofFloat x).negative with
    | false =>
      rw [hnegative] at hunpack
      exact .inl ⟨hunpack, rfl⟩
    | true =>
      rw [hnegative] at hunpack
      exact .inr (.inl ⟨hunpack, rfl⟩)

/-- Floats other than NaN are compared by their places. -/
theorem compare_unpack (hx : x.isNaN = false) (hy : y.isNaN = false) :
    x.toModel.unpack.compare y.toModel.unpack = some (cmp (place x) (place y)) := by
  have hmono : StrictMono fun q : ℚ => ((q : WithTop ℚ) : WithBot (WithTop ℚ)) :=
    WithBot.coe_strictMono.comp WithTop.coe_strictMono
  obtain ⟨htop, hbot, -, -⟩ := Dyadic.compare_infinity (.ofFloat y)
  obtain ⟨-, -, htop', hbot'⟩ := Dyadic.compare_infinity (.ofFloat x)
  rcases unpack_cases hx with ⟨hu, hp⟩ | ⟨hu, hp⟩ | ⟨hu, hp⟩ <;>
    rcases unpack_cases hy with ⟨hu', hp'⟩ | ⟨hu', hp'⟩ | ⟨hu', hp'⟩ <;>
    rw [hu, hu', hp, hp']
  · exact congrArg some (cmp_self_eq_eq _).symm
  · exact congrArg some ((cmp_eq_gt_iff _ _).2 bot_lt_top).symm
  · rw [htop, (cmp_eq_gt_iff _ _).2 (WithBot.coe_lt_coe.2 (WithTop.coe_lt_top _))]
  · exact congrArg some ((cmp_eq_lt_iff _ _).2 bot_lt_top).symm
  · exact congrArg some (cmp_self_eq_eq _).symm
  · rw [hbot, (cmp_eq_lt_iff _ _).2 (WithBot.bot_lt_coe _)]
  · rw [htop', (cmp_eq_lt_iff _ _).2 (WithBot.coe_lt_coe.2 (WithTop.coe_lt_top _))]
  · rw [hbot', (cmp_eq_gt_iff _ _).2 (WithBot.bot_lt_coe _)]
  · rw [Dyadic.compare_unpacked (Dyadic.canonical_ofFloat x) (Dyadic.canonical_ofFloat y)]
    exact congrArg some (hmono.cmp_map_eq _ _).symm

theorem isFinite_of_place {q : ℚ} (hx : x.isNaN = false)
    (hplace : place x = ((q : WithTop ℚ) : WithBot (WithTop ℚ))) : x.isFinite := by
  rcases unpack_cases hx with ⟨-, h⟩ | ⟨-, h⟩ | ⟨hunpack, -⟩
  · rw [h] at hplace
    exact absurd hplace (by simp)
  · rw [h] at hplace
    exact absurd hplace (by simp)
  · show x.toModel.unpack.isFinite
    rw [hunpack]
    rcases Dyadic.unpacked_cases (.ofFloat x) with ⟨h, -⟩ | ⟨_, h, -⟩ | ⟨_, h, -⟩ <;> rw [h] <;> rfl

/-- Finite floats stand in the order of their values. -/
theorem cmp_place (hx : x.isFinite) (hy : y.isFinite) :
    cmp (place x) (place y) = cmp (Dyadic.ofFloat x).toRat (Dyadic.ofFloat y).toRat := by
  have hmono : StrictMono fun q : ℚ => ((q : WithTop ℚ) : WithBot (WithTop ℚ)) :=
    WithBot.coe_strictMono.comp WithTop.coe_strictMono
  rw [place_of_isFinite hx, place_of_isFinite hy, hmono.cmp_map_eq]

theorem lt_iff (hx : x.isNaN = false) (hy : y.isNaN = false) : x < y ↔ place x < place y := by
  have hlt : x < y ↔ x.toModel.unpack.compare y.toModel.unpack == some .lt := by
    show (decide (x.toModel.lt y.toModel = true) = true) ↔ _
    rw [decide_eq_true_iff]
    rfl
  rw [hlt, compare_unpack hx hy, beq_iff_eq, Option.some.injEq, cmp_eq_lt_iff]

theorem beq_iff (hx : x.isNaN = false) (hy : y.isNaN = false) : x == y ↔ place x = place y := by
  have hbeq : (x == y) = (x.toModel.unpack.compare y.toModel.unpack == some .eq) := rfl
  rw [hbeq, compare_unpack hx hy, beq_iff_eq, Option.some.injEq, cmp_eq_eq_iff]

end Bytecode.Decimal
