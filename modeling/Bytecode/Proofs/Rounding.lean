import Bytecode.Proofs.Nearest

set_option autoImplicit false

/-!
# Rounding

The model of floats drops bits of a mantissa one at a time and keeps two of them for rounding.  That
is enough to tell the nearest float.

Main statement: `exists_isNearest`.
-/

namespace Bytecode.Decimal

open Float.Model
open Float.Model.UnpackedFloat (ExtendedMantissa shiftToExponent shiftToTargetExponent
  roundWithAccuracy)

/-! ## Residual bits -/

/-- What may be left of a number behind the round bit: less than half, and something only if the
sticky bit is set. -/
def IsRest (sticky : Bool) (rest : ℚ) : Prop :=
  if sticky then 0 < rest ∧ rest < 1 / 2 else rest = 0

/-- The number is the mantissa, a half if the round bit is set, and a rest. -/
def Represents (em : ExtendedMantissa) (q : ℚ) : Prop :=
  ∃ rest, IsRest em.stickyBit rest ∧ q = em.mantissa + (if em.roundBit then 1 / 2 else 0) + rest

theorem half_natCast (m : Nat) :
    (m : ℚ) / 2 = (m / 2 : ℕ) + if m % 2 != 0 then 1 / 2 else 0 := by
  have hhalves : ((m % 2 : ℕ) : ℚ) + 2 * (m / 2 : ℕ) = m := by exact_mod_cast Nat.mod_add_div m 2
  rcases Nat.mod_two_eq_zero_or_one m with hparity | hparity <;> rw [hparity] at hhalves ⊢ <;>
    norm_num at hhalves ⊢ <;> linarith

namespace Represents

variable {em : ExtendedMantissa} {q : ℚ}

theorem exact (m : Nat) : Represents (.ofMantissaAndAccuracy m .exact) m :=
  ⟨0, rfl, by simp [ExtendedMantissa.ofMantissaAndAccuracy]⟩

theorem shiftRightOne (h : Represents em q) : Represents em.shiftRightOne (q / 2) := by
  obtain ⟨m, round, sticky⟩ := em
  obtain ⟨rest, hrest, rfl⟩ := h
  refine ⟨(if round then 1 / 4 else 0) + rest / 2, ?_, ?_⟩
  · -- The round bit becomes part of the rest.
    unfold IsRest ExtendedMantissa.shiftRightOne at *
    cases round <;> cases sticky <;> norm_num at hrest ⊢
    · exact hrest
    · exact ⟨hrest.1, by linarith⟩
    · rw [hrest]
      norm_num
    · exact ⟨by linarith, by linarith⟩
  · rw [add_div, add_div, half_natCast, add_assoc, add_assoc]
    show _ = ((m / 2 : ℕ) : ℚ) + (if m % 2 != 0 then 1 / 2 else 0) + _
    rw [add_assoc]
    congr 3
    cases round <;> norm_num

theorem shiftRight (h : Represents em q) (n : Nat) : Represents (em >>> n) (q / 2 ^ n) := by
  induction n with
  | zero => rwa [pow_zero, div_one]
  | succ n ih =>
    rw [pow_succ, ← div_div]
    exact ih.shiftRightOne

/-- Rounding goes to an integer that is nearer than half, or half away and even. -/
theorem rounded (h : Represents em q) :
    |(em.roundedMantissa : ℚ) - q| < 1 / 2 ∨
      |(em.roundedMantissa : ℚ) - q| = 1 / 2 ∧ Even em.roundedMantissa := by
  obtain ⟨m, round, sticky⟩ := em
  obtain ⟨rest, hrest, rfl⟩ := h
  cases round <;> cases sticky
  · have hrest : rest = 0 := hrest
    left
    show |(m : ℚ) - (m + 0 + rest)| < 1 / 2
    rw [hrest, abs_lt]
    constructor <;> linarith
  · obtain ⟨hpos, hlt⟩ : 0 < rest ∧ rest < 1 / 2 := hrest
    left
    show |(m : ℚ) - (m + 0 + rest)| < 1 / 2
    rw [abs_lt]
    constructor <;> linarith
  · have hrest : rest = 0 := hrest
    refine .inr ⟨?_, show Even (m + m % 2) from Nat.even_iff.2 (by omega)⟩
    show |((m + m % 2 : ℕ) : ℚ) - (m + 1 / 2 + rest)| = 1 / 2
    rw [hrest, abs_eq (by norm_num)]
    rcases Nat.mod_two_eq_zero_or_one m with hparity | hparity <;> rw [hparity] <;> push_cast
    · exact .inr (by ring)
    · exact .inl (by ring)
  · obtain ⟨hpos, hlt⟩ : 0 < rest ∧ rest < 1 / 2 := hrest
    left
    show |((m + 1 : ℕ) : ℚ) - (m + 1 / 2 + rest)| < 1 / 2
    rw [abs_lt]
    push_cast
    constructor <;> linarith

end Represents

/-! ## Multiples of a unit -/

namespace Dyadic

/-- The float with the significand `r`, which may be too long by one. -/
def carried (r : Nat) (t : Int) : Dyadic :=
  if r = 2 ^ 53 then ⟨false, 2 ^ 52, t + 1⟩ else ⟨false, r, t⟩

variable {r : Nat} {t : Int}

theorem carried_canonical (hge : 2 ^ 52 ≤ r) (hle : r ≤ 2 ^ 53) (ht : -1074 ≤ t) :
    (carried r t).Canonical := by
  unfold carried
  split
  · exact ⟨by norm_num, by simp only; omega, .inl (by norm_num)⟩
  · exact ⟨by simp only; omega, ht, .inl hge⟩

theorem toRat_carried :
    (carried r t).toRat = r * 2 ^ t := by
  unfold carried toRat
  split
  · next h =>
    rw [h, zpow_add_one₀ (by norm_num), if_neg Bool.false_ne_true]
    push_cast
    ring
  · rw [if_neg Bool.false_ne_true, one_mul]

theorem even_carried (h : Even r) : Even (carried r t).significand := by
  unfold carried
  split
  · exact ⟨2 ^ 51, by norm_num⟩
  · exact h

/-- In any units, a float is an integer or less than those with a significand of full length. -/
theorem Canonical.onGrid {c : Dyadic} (hc : c.Canonical) (t : Int) :
    (∃ k : ℤ, c.toRat = k * 2 ^ t) ∨ |c.toRat| < 2 ^ 52 * 2 ^ t := by
  rcases le_or_gt t c.exponent with hle | hlt
  · refine .inl ⟨(if c.negative then -1 else 1) *
      (c.significand * 2 ^ (c.exponent - t).toNat : ℕ), ?_⟩
    rw [toRat, magnitude_eq_mul hle, Int.cast_mul, mul_assoc]
    split <;> simp
  · rw [abs_toRat]
    exact .inr (hc.magnitude_lt_unit hlt)

/-- An integer that is no further than half is as near as any other; if another is as near, it is
half. -/
theorem dist_le_of_int {k l : ℤ} {x : ℚ} (hdist : |(k : ℚ) - x| ≤ 1 / 2) :
    |(k : ℚ) - x| ≤ |(l : ℚ) - x| ∧
      (|(l : ℚ) - x| = |(k : ℚ) - x| → (l : ℚ) ≠ k → |(k : ℚ) - x| = 1 / 2) := by
  rcases eq_or_ne l k with rfl | hne
  · exact ⟨le_rfl, fun _ h => absurd rfl h⟩
  · have hone : (1 : ℚ) ≤ |(l : ℚ) - k| := by exact_mod_cast Int.one_le_abs (sub_ne_zero.2 hne)
    have htriangle : |(l : ℚ) - k| ≤ |(l : ℚ) - x| + |(k : ℚ) - x| := by
      rw [abs_sub_comm (k : ℚ) x]
      exact abs_sub_le _ _ _
    exact ⟨by linarith, fun h _ => by linarith⟩

/-- With an integer bound below, it is nearer than what is less than the bound. -/
theorem dist_lt_of_lt {k b : ℤ} {x y : ℚ} (hdist : |(k : ℚ) - x| ≤ 1 / 2) (hx : b ≤ x)
    (hy : y < b) : |(k : ℚ) - x| < |y - x| :=
  calc |(k : ℚ) - x|
      ≤ |(b : ℚ) - x| := (dist_le_of_int hdist).1
    _ < |y - x| := by
      rw [abs_of_nonpos (by linarith), abs_of_nonpos (by linarith)]
      linarith

/-- The integer nearest to a number is the nearest float too, in units in which the number has a
significand with all its bits: other floats are integers, or less. -/
theorem isNearest_carried {x : ℚ} (hge : 2 ^ 52 ≤ r) (hle : r ≤ 2 ^ 53) (ht : -1074 ≤ t)
    (hx : 2 ^ 52 ≤ x) (hrounded : |(r : ℚ) - x| < 1 / 2 ∨ |(r : ℚ) - x| = 1 / 2 ∧ Even r) :
    (carried r t).IsNearest (x * 2 ^ t) := by
  have hdist : |((r : ℤ) : ℚ) - x| ≤ 1 / 2 := by
    rw [Int.cast_natCast]
    exact hrounded.elim le_of_lt fun h => h.1.le
  have hunit : (0 : ℚ) < 2 ^ t := by positivity
  have hscale : ∀ y : ℚ, |y * 2 ^ t - x * 2 ^ t| = |y - x| * 2 ^ t := fun y => by
    rw [← sub_mul, abs_mul, abs_of_pos hunit]
  have hvalue : (carried r t).toRat = (r : ℤ) * 2 ^ t := by
    rw [toRat_carried, Int.cast_natCast]
  have hfar : ∀ {c : Dyadic}, |c.toRat| < 2 ^ 52 * 2 ^ t →
      |(carried r t).toRat - x * 2 ^ t| < |c.toRat - x * 2 ^ t| := fun {c} hc => by
    have hquotient : c.toRat = c.toRat / 2 ^ t * 2 ^ t := (div_mul_cancel₀ _ hunit.ne').symm
    rw [hvalue, hquotient, hscale, hscale]
    refine mul_lt_mul_of_pos_right ?_ hunit
    refine dist_lt_of_lt (b := 2 ^ 52) hdist (by push_cast; exact hx) ?_
    push_cast
    exact (div_lt_iff₀ hunit).2 (lt_of_le_of_lt (le_abs_self _) hc)
  refine ⟨carried_canonical hge hle ht, fun hc => ?_, fun hc htie hne => ?_⟩
  · rcases hc.onGrid t with ⟨k, hk⟩ | hsmall
    · rw [hvalue, hk, hscale, hscale]
      exact mul_le_mul_of_nonneg_right (dist_le_of_int hdist).1 hunit.le
    · exact (hfar hsmall).le
  · rcases hc.onGrid t with ⟨k, hk⟩ | hsmall
    · rw [hvalue, hk, hscale, hscale, mul_left_inj' hunit.ne'] at htie
      rw [hvalue, hk] at hne
      have hhalf := (dist_le_of_int hdist).2 htie fun h => hne (by rw [h])
      rw [Int.cast_natCast] at hhalf
      exact even_carried (hrounded.resolve_left hhalf.not_lt).2
    · exact absurd htie (hfar hsmall).ne'

end Dyadic

/-! ## Rounding -/

/-- A mantissa that is long enough is shifted until it has as many bits as a significand. -/
theorem shiftToTargetExponent_eq {m : Nat} {e t : Int} (ht : t = m.log2 + e - 52) (hle : e ≤ t)
    (hge : -1074 ≤ t) :
    shiftToTargetExponent Format.binary64 m e .exact =
      (ExtendedMantissa.ofMantissaAndAccuracy m .exact >>> (t - e).toNat, t) := by
  have htarget : Format.binary64.targetExponent (totalExponent m e) = t := by
    show max ((m.log2 : Int) + 1 + e - (1 + 52 : Nat)) (3 - 2 ^ 10 - (1 + 52 : Nat)) = t
    omega
  rw [shiftToTargetExponent, htarget, shiftToExponent, Prod.mk.injEq]
  exact ⟨rfl, by omega⟩

/-- A mantissa that is short enough is not shifted. -/
theorem shiftToTargetExponent_of_lt {r : Nat} {t : Int} (hr : r < 2 ^ 53) (ht : -1074 ≤ t) :
    shiftToTargetExponent Format.binary64 r t .exact = (.ofMantissaAndAccuracy r .exact, t) := by
  have hlog : r.log2 ≤ 52 := by
    rcases Nat.eq_zero_or_pos r with rfl | hpos
    · exact Nat.zero_le _
    · exact Nat.lt_succ_iff.1 ((Nat.log2_lt (Nat.ne_of_gt hpos)).2 hr)
  have htarget : Format.binary64.targetExponent (totalExponent r t) ≤ t := by
    show max ((r.log2 : Int) + 1 + t - (1 + 52 : Nat)) (3 - 2 ^ 10 - (1 + 52 : Nat)) ≤ t
    omega
  rw [shiftToTargetExponent, shiftToExponent, Int.toNat_eq_zero.2 (by omega)]
  exact congrArg (Prod.mk _) (Int.add_zero t)

/-- In units of its target exponent, a number has as many bits as a significand. -/
theorem scaled_bounds {m : Nat} {e t : Int} (hm : 0 < m) (ht : t = m.log2 + e - 52) :
    (2 : ℚ) ^ 52 ≤ m * 2 ^ e / 2 ^ t ∧ (m * 2 ^ e / 2 ^ t : ℚ) < 2 ^ 53 := by
  have hunit : (0 : ℚ) < 2 ^ t := by positivity
  have hpow : (2 : ℚ) ^ 52 * 2 ^ t = 2 ^ m.log2 * 2 ^ e := by
    rw [← zpow_natCast, ← zpow_natCast, ← zpow_add₀ (by norm_num), ← zpow_add₀ (by norm_num), ht]
    congr 1
    push_cast
    ring
  have hlog : (2 : ℚ) ^ m.log2 ≤ m := by exact_mod_cast Nat.log2_self_le (Nat.ne_of_gt hm)
  have hlog' : (m : ℚ) < 2 ^ (m.log2 + 1) := by exact_mod_cast Nat.lt_log2_self
  constructor
  · rw [le_div_iff₀ hunit, hpow]
    gcongr
  · rw [div_lt_iff₀ hunit]
    calc (m * 2 ^ e : ℚ) < 2 ^ (m.log2 + 1) * 2 ^ e := by gcongr
      _ = 2 * (2 ^ m.log2 * 2 ^ e) := by ring
      _ = 2 ^ 53 * 2 ^ t := by rw [← hpow]; ring

/-- The mantissa may become too long when it is rounded; then it is shifted once more. -/
theorem roundWithAccuracy_eq {m : Nat} {e t : Int} {em : ExtendedMantissa}
    (hfirst : shiftToTargetExponent Format.binary64 m e .exact = (em, t))
    (hpos : 0 < em.roundedMantissa) (hle : em.roundedMantissa ≤ 2 ^ 53) (ht : -1074 ≤ t) :
    roundWithAccuracy Format.binary64 .positive m e .exact =
      (Dyadic.carried em.roundedMantissa t).unpacked := by
  unfold roundWithAccuracy
  rw [hfirst]
  dsimp only
  generalize em.roundedMantissa = r at hpos hle ⊢
  rcases hle.lt_or_eq with hlt | rfl
  · rw [shiftToTargetExponent_of_lt hlt ht]
    have hcarried : Dyadic.carried r t = ⟨false, r, t⟩ := if_neg hlt.ne
    have hunpacked : (Dyadic.carried r t).unpacked = .finite .positive r t hpos := by
      rw [hcarried]
      exact Dyadic.unpacked_eq_finite rfl rfl rfl
    rw [hunpacked]
    exact dif_neg (Nat.ne_of_gt hpos)
  · have hlog : (2 ^ 53 : ℕ).log2 = 53 := Nat.log2_two_pow
    rw [shiftToTargetExponent_eq (t := t + 1) (by rw [hlog]; omega) (by omega) (by omega)]
    have hshift : (t + 1 - t).toNat = 1 := by omega
    rw [hshift]
    rfl

/-- A number above the least floats is rounded to the nearest float. -/
theorem exists_isNearest {m : Nat} {e t : Int} (hm : 0 < m) (ht : t = m.log2 + e - 52)
    (hle : e ≤ t) (hge : -1074 ≤ t) :
    ∃ d : Dyadic, roundWithAccuracy Format.binary64 .positive m e .exact = d.unpacked ∧
      d.IsNearest (m * 2 ^ e) ∧ d.exponent ≤ t + 1 := by
  obtain ⟨hlower, hupper⟩ := scaled_bounds hm ht
  have hrepresents : Represents (ExtendedMantissa.ofMantissaAndAccuracy m .exact >>> (t - e).toNat)
      (m * 2 ^ e / 2 ^ t) := by
    have hpow : (2 : ℚ) ^ e / 2 ^ t = (2 ^ (t - e).toNat)⁻¹ := by
      rw [← zpow_natCast, ← zpow_sub₀ (by norm_num), ← zpow_neg]
      congr 1
      omega
    rw [mul_div_assoc, hpow, ← div_eq_mul_inv]
    exact (Represents.exact m).shiftRight _
  have hrounded := hrepresents.rounded
  have hfirst := shiftToTargetExponent_eq ht hle hge
  generalize ExtendedMantissa.ofMantissaAndAccuracy m .exact >>> (t - e).toNat = em at *
  obtain ⟨hl, hr⟩ := abs_le.1 (hrounded.elim le_of_lt fun h => h.1.le)
  have hge' : 2 ^ 52 ≤ em.roundedMantissa := by
    have h : (2 ^ 52 : ℚ) < em.roundedMantissa + 1 := by linarith
    have h : 2 ^ 52 < em.roundedMantissa + 1 := by exact_mod_cast h
    omega
  have hle' : em.roundedMantissa ≤ 2 ^ 53 := by
    have h : (em.roundedMantissa : ℚ) < 2 ^ 53 + 1 := by linarith
    have h : em.roundedMantissa < 2 ^ 53 + 1 := by exact_mod_cast h
    omega
  have hunit : (0 : ℚ) < 2 ^ t := by positivity
  refine ⟨_, roundWithAccuracy_eq hfirst (by omega) hle' hge, ?_, ?_⟩
  · have hnearest := Dyadic.isNearest_carried hge' hle' hge hlower hrounded
    rwa [div_mul_cancel₀ _ hunit.ne'] at hnearest
  · unfold Dyadic.carried
    split <;> simp

end Bytecode.Decimal
