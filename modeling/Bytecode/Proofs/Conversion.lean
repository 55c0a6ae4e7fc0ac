import Bytecode.Json.Basic
import Bytecode.Proofs.Rounding
import Mathlib.Tactic.FieldSimp

set_option autoImplicit false

/-!
# Integers as floats

An integer of 64 bits is converted to the nearest float.  Integers with no more bits than a
significand are moved to its place, and multiplied by one; others are rounded.

Main statements: `Decimal.ofFloat_pack`, packing loses nothing, `Decimal.isRounded_ofInt`, and
`Numeral.isSome_toFloat?_of_integral`.
-/

namespace Bytecode

namespace Decimal

open Float.Model
open Float.Model.UnpackedFloat (Sign unpackSign unpackMantissa unpackExponent packComponents
  roundWithAccuracy unpackExponent_packComponents unpackMantissa_packComponents)

/-! ## Packing -/

theorem Dyadic.Canonical.log2_eq_iff {d : Dyadic} (hd : d.Canonical) (hpos : 0 < d.significand) :
    d.significand.log2 = 52 ↔ 2 ^ 52 ≤ d.significand :=
  (Nat.log2_eq_iff (Nat.ne_of_gt hpos)).trans (and_iff_left hd.significand_lt)

theorem unpackSign_packComponents (s : Sign) (e : BitVec 11) (m : BitVec 52) :
    unpackSign (packComponents Format.binary64 s e m) = s.toBitVec := by
  show (s.toBitVec ++ e ++ m).extractLsb' 63 1 = s.toBitVec
  rw [BitVec.extractLsb'_append_eq_of_le (by decide),
    BitVec.extractLsb'_append_eq_of_le (by decide)]
  cases s <;> rfl

theorem isFinite_of_unpackExponent {x : Float} (h : unpackExponent (Dyadic.bitsOf x) ≠ -1#_) :
    x.isFinite := by
  show x.toModel.unpack.isFinite
  rw [Dyadic.unpack_of_not_special h]
  exact Dyadic.isFinite_unpacked _

theorem toBitVec_sign (d : Dyadic) : decide (d.sign.toBitVec = 1#1) = d.negative := by
  unfold Dyadic.sign
  cases d.negative <;> rfl

/-- The number that is packed into these parts is the value of the float. -/
theorem ofFloat_eq_of_bits {d : Dyadic} {x : Float} {k m : Nat} (hk : k < 2047)
    (hbits : Dyadic.bitsOf x =
      packComponents Format.binary64 d.sign (BitVec.ofNat 11 k) (BitVec.ofNat 52 m))
    (hm : d.significand = m % 2 ^ 52 + if k = 0 then 0 else 2 ^ 52)
    (he : d.exponent = max k 1 - 1075) :
    x.isFinite ∧ Dyadic.ofFloat x = d := by
  have hexponent : (unpackExponent (Dyadic.bitsOf x)).toNat = k := by
    rw [hbits, unpackExponent_packComponents, BitVec.toNat_ofNat]
    exact Nat.mod_eq_of_lt (Nat.lt_succ_of_lt hk)
  have hmantissa : (unpackMantissa (Dyadic.bitsOf x)).toNat = m % 2 ^ 52 := by
    rw [hbits, unpackMantissa_packComponents, BitVec.toNat_ofNat]
  have hsign : decide (unpackSign (Dyadic.bitsOf x) = 1#1) = d.negative := by
    rw [hbits, unpackSign_packComponents, toBitVec_sign]
  constructor
  · refine isFinite_of_unpackExponent fun h => ?_
    have hmax : (unpackExponent (Dyadic.bitsOf x)).toNat = 2047 := congrArg BitVec.toNat h
    omega
  · rw [Dyadic.ofFloat_eq, hmantissa, hexponent, hsign]
    obtain ⟨negative, significand, exponent⟩ := d
    dsimp only at hm he
    split
    · next h =>
      have hzero : k = 0 := hexponent.symm.trans (congrArg BitVec.toNat h)
      rw [hm, he, if_pos hzero, hzero]
      rfl
    · next h =>
      have hne : k ≠ 0 := fun hzero => h (BitVec.eq_of_toNat_eq (hexponent.trans hzero))
      rw [hm, he, if_neg hne, Dyadic.mk.injEq]
      exact ⟨rfl, Nat.add_comm _ _, by omega⟩

/-- Packing keeps every number that is not too large. -/
theorem ofFloat_pack {d : Dyadic} (hd : d.Canonical) (hle : d.exponent ≤ 971) :
    (Float.ofModel (.pack d.unpacked)).isFinite ∧
      Dyadic.ofFloat (.ofModel (.pack d.unpacked)) = d := by
  have hlt := hd.significand_lt
  have hge := hd.exponent_ge
  rcases Nat.eq_zero_or_pos d.significand with hzero | hpos
  · have hleast := hd.full.resolve_left (by omega)
    rw [Dyadic.unpacked_eq_zero rfl hzero]
    exact ofFloat_eq_of_bits (k := 0) (m := 0) (by norm_num) rfl hzero hleast
  · have hbias : Format.binary64.exponentBias = 1023 := rfl
    have hbits : Dyadic.bitsOf (.ofModel (.pack d.unpacked)) =
        UnpackedFloat.pack Format.binary64 (.finite d.sign d.significand d.exponent hpos) :=
      congrArg (UnpackedFloat.pack Format.binary64) (Dyadic.unpacked_eq_finite rfl rfl rfl)
    have hfield : (d.exponent + Format.binary64.exponentBias +
        Format.binary64.mantissaBitsWithoutImplicit).toNat = (d.exponent + 1075).toNat := by
      have hlength : (Format.binary64.mantissaBitsWithoutImplicit : Int) = 52 := rfl
      rw [hbias, hlength]
      congr 1
      omega
    unfold UnpackedFloat.pack at hbits
    dsimp only at hbits
    rw [hfield, if_neg (by omega)] at hbits
    by_cases hfull : 2 ^ 52 ≤ d.significand
    · have hlog : d.significand.log2 + 1 = Format.binary64.mantissaBits :=
        congrArg (· + 1) ((hd.log2_eq_iff hpos).2 hfull)
      rw [if_pos hlog] at hbits
      refine ofFloat_eq_of_bits (by omega) hbits ?_ (by omega)
      rw [if_neg (by omega)]
      omega
    · have hlog : d.significand.log2 + 1 ≠ Format.binary64.mantissaBits := fun h =>
        hfull ((hd.log2_eq_iff hpos).1 (Nat.succ.inj h))
      have hleast := hd.full.resolve_left hfull
      rw [if_neg hlog] at hbits
      refine ofFloat_eq_of_bits (k := 0) (by omega) hbits ?_ hleast
      rw [if_pos rfl]
      omega

/-! ## Rounded floats -/

/-- The float is the nearest to the number, or of two that are equally near the even one. -/
def IsRounded (x : Float) (q : ℚ) : Prop :=
  x.isFinite ∧ (Dyadic.ofFloat x).IsNearest q

/-- What is rounded and packed is the nearest float. -/
theorem isRounded_pack {m : Nat} {e t : Int} (hm : 0 < m) (ht : t = m.log2 + e - 52) (hle : e ≤ t)
    (hge : -1074 ≤ t) (htop : t ≤ 970) :
    IsRounded (.ofModel (.pack (roundWithAccuracy Format.binary64 .positive m e .exact)))
      (m * 2 ^ e) := by
  obtain ⟨d, heq, hnearest, hexponent⟩ := exists_isNearest hm ht hle hge
  obtain ⟨hfinite, hofFloat⟩ := ofFloat_pack hnearest.canonical (by omega)
  rw [heq]
  exact ⟨hfinite, by rwa [hofFloat]⟩

/-! ## Negation -/

theorem exponent_le_of_isFinite {x : Float} (hx : x.isFinite) :
    (Dyadic.ofFloat x).exponent ≤ 971 := by
  have hne : unpackExponent (Dyadic.bitsOf x) ≠ -1#_ := by
    intro h
    change x.toModel.unpack.isFinite at hx
    rcases Dyadic.unpack_of_special h with hunpack | hunpack
    · rw [hunpack] at hx
      cases hx
    · rw [hunpack] at hx
      cases hx
  have hlt : (unpackExponent (Dyadic.bitsOf x)).toNat < 2047 := by
    refine lt_of_le_of_ne (Nat.le_of_lt_succ (BitVec.isLt _)) fun h => hne ?_
    exact BitVec.eq_of_toNat_eq h
  rw [Dyadic.ofFloat_eq]
  split
  · norm_num
  · dsimp only
    omega

theorem neg_unpacked (d : Dyadic) : d.unpacked.neg = d.neg.unpacked := by
  have hsign : d.neg.sign = -d.sign := by
    unfold Dyadic.neg Dyadic.sign
    cases d.negative <;> rfl
  rcases Nat.eq_zero_or_pos d.significand with hzero | hpos
  · rw [Dyadic.unpacked_eq_zero rfl hzero, Dyadic.unpacked_eq_zero hsign hzero]
    rfl
  · have hunpacked : d.unpacked = .finite d.sign d.significand d.exponent hpos :=
      Dyadic.unpacked_eq_finite rfl rfl rfl
    rw [hunpacked]
    exact (Dyadic.unpacked_eq_finite hsign rfl rfl).symm

theorem IsRounded.neg {x : Float} {q : ℚ} (h : IsRounded x q) : IsRounded x.neg (-q) := by
  obtain ⟨hfinite, hnearest⟩ := h
  have hdefinition : x.neg = .ofModel (.pack (Dyadic.ofFloat x).neg.unpacked) := by
    rw [← neg_unpacked, ← unpack_of_isFinite hfinite]
    rfl
  obtain ⟨hfinite', hofFloat⟩ :=
    ofFloat_pack hnearest.neg.canonical (exponent_le_of_isFinite hfinite)
  rw [hdefinition]
  exact ⟨hfinite', by rw [hofFloat]; exact hnearest.neg⟩

/-! ## Integers -/

theorem log2_mul_two_pow {n : Nat} (hn : 0 < n) (k : Nat) : (n * 2 ^ k).log2 = n.log2 + k := by
  induction k with
  | zero => simp
  | succ k ih => rw [pow_succ', mul_left_comm, Nat.log2_two_mul (by positivity), ih, Nat.add_assoc]

/-- Bits that are appended are taken off by the exponent. -/
theorem scaled_eq (n k : Nat) : ((n * 2 ^ k : ℕ) : ℚ) * 2 ^ (-k : ℤ) = n := by
  rw [zpow_neg, zpow_natCast]
  push_cast
  field_simp

theorem exists_canonical_natCast {n : Nat} (hn : n ≤ 2 ^ 53) :
    ∃ c : Dyadic, c.Canonical ∧ c.toRat = n := by
  rcases Nat.eq_zero_or_pos n with rfl | hpos
  · exact ⟨⟨false, 0, -1074⟩, ⟨by norm_num, le_rfl, .inr rfl⟩, by simp [Dyadic.toRat]⟩
  rcases hn.eq_or_lt with rfl | hlt
  · exact ⟨⟨false, 2 ^ 52, 1⟩, ⟨by norm_num, by norm_num, .inl le_rfl⟩, by norm_num [Dyadic.toRat]⟩
  · have hlog : n.log2 < 53 := (Nat.log2_lt (Nat.ne_of_gt hpos)).2 hlt
    have hscaled : (n * 2 ^ (52 - n.log2)).log2 = 52 := by
      rw [log2_mul_two_pow hpos]
      omega
    obtain ⟨hge, hlt⟩ := (Nat.log2_eq_iff (by positivity)).1 hscaled
    refine ⟨⟨false, n * 2 ^ (52 - n.log2), -(52 - n.log2 : ℕ)⟩, ⟨hlt, ?_, .inl hge⟩, ?_⟩
    · dsimp only
      omega
    · rw [Dyadic.toRat, if_neg Bool.false_ne_true, one_mul]
      exact scaled_eq _ _

/-- The integers up to the length of a significand are floats. -/
theorem exists_canonical {n : Int} (hn : |n| ≤ 2 ^ 53) :
    ∃ c : Dyadic, c.Canonical ∧ c.toRat = n := by
  rw [Int.abs_eq_natAbs] at hn
  obtain ⟨c, hc, hvalue⟩ := exists_canonical_natCast (n := n.natAbs) (by omega)
  rcases Int.natAbs_eq n with heq | heq
  · exact ⟨c, hc, by rw [hvalue, heq]; simp⟩
  · exact ⟨c.neg, hc.neg, by rw [Dyadic.toRat_neg, hvalue, heq]; simp⟩

/-- An integer of fewer bits than a significand has is moved to its place. -/
theorem isRounded_toFloat {n : Nat} (hpos : 0 < n) (hn : n < 2 ^ 53) :
    IsRounded n.toUInt64.toFloat n := by
  have hword : n.toUInt64.toNat = n := UInt64.toNat_ofNat_of_lt' (Nat.lt_trans hn (by decide))
  have hlog : n.log2 < 53 := (Nat.log2_lt (Nat.ne_of_gt hpos)).2 hn
  have htarget : (0 - Format.binary64.targetExponent (totalExponent n 0)).toNat = 52 - n.log2 := by
    show (0 - max ((n.log2 : Int) + 1 + 0 - (1 + 52 : Nat)) (3 - 2 ^ 10 - (1 + 52 : Nat))).toNat = _
    omega
  have hdefinition : n.toUInt64.toFloat = .ofModel (.pack (roundWithAccuracy Format.binary64
      .positive (n * 2 ^ (52 - n.log2)) (-(52 - n.log2 : ℕ)) .exact)) := by
    show Float.ofModel (.pack (UnpackedFloat.ofNat Format.binary64 n.toUInt64.toNat)) = _
    have hcompare : compare (n : Int) 0 = .gt := compare_gt_iff_gt.2 (by omega)
    rw [hword]
    unfold UnpackedFloat.ofNat UnpackedFloat.ofInt UnpackedFloat.normalize
    rw [hcompare]
    dsimp only
    unfold UnpackedFloat.round UnpackedFloat.decreaseExponent
    rw [Int.toNat_natCast]
    dsimp only
    rw [htarget, Nat.shiftLeft_eq, zero_sub]
  rw [hdefinition, ← scaled_eq n (52 - n.log2)]
  refine isRounded_pack (t := -(52 - n.log2 : ℕ)) (by positivity) ?_ le_rfl ?_ ?_
  · rw [log2_mul_two_pow hpos]
    omega
  · omega
  · omega

/-- The float that is a small positive integer has a significand with all its bits. -/
theorem unpacked_of_toRat_eq {d : Dyadic} (hd : d.Canonical) {n : Nat} (hpos : 0 < n)
    (hn : n < 2 ^ 53) (hvalue : d.toRat = n) :
    ∃ hpos, d.unpacked = .finite .positive d.significand d.exponent hpos ∧
      (n : ℚ) = d.significand * 2 ^ d.exponent ∧ d.significand.log2 = 52 ∧
      -52 ≤ d.exponent ∧ d.exponent ≤ 0 := by
  have hone : (1 : ℚ) ≤ n := by exact_mod_cast hpos
  have hlt : (n : ℚ) < 2 ^ 53 := by exact_mod_cast hn
  rw [← hvalue] at hone hlt
  rcases d.unpacked_cases with ⟨-, hzero⟩ | ⟨hm, hunpacked, hmagnitude⟩ | ⟨-, -, hnegative⟩
  · linarith
  · have hge : -52 ≤ d.exponent := by
      by_contra hgt
      have hsmall := hd.magnitude_lt_unit (e := -52) (by omega)
      rw [← hmagnitude] at hsmall
      norm_num at hsmall
      linarith
    have hfull : 2 ^ 52 ≤ d.significand := hd.full.resolve_right (by omega)
    have hle : d.exponent ≤ 0 := by
      by_contra hgt
      have hunit : (2 : ℚ) ^ (1 : ℤ) ≤ 2 ^ d.exponent := by gcongr <;> [norm_num; omega]
      have hfull' : (2 : ℚ) ^ 52 ≤ d.significand := by exact_mod_cast hfull
      have hlarge : (2 : ℚ) ^ 52 * 2 ^ (1 : ℤ) ≤ d.significand * 2 ^ d.exponent := by gcongr
      norm_num at hlarge
      linarith
    exact ⟨hm, hunpacked, by rw [← hvalue, hmagnitude], (hd.log2_eq_iff hm).2 hfull, hge, hle⟩
  · have hmagnitude : (0 : ℚ) ≤ d.significand * 2 ^ d.exponent := by positivity
    linarith

/-- Multiplication by one does not change the float of a small integer. -/
theorem isRounded_mul_one {n : Nat} {x : Float} (hpos : 0 < n) (hn : n < 2 ^ 53)
    (hx : IsRounded x n) : IsRounded (x * 1.0) n := by
  obtain ⟨hfinite, hnearest⟩ := hx
  obtain ⟨c, hc, hvalue⟩ := exists_canonical_natCast hn.le
  obtain ⟨hm, hunpacked, hmagnitude, hlog, hge, hle⟩ :=
    unpacked_of_toRat_eq hnearest.canonical hpos hn (hnearest.toRat_eq hc hvalue)
  have hproduct : x * 1.0 = .ofModel (.pack (UnpackedFloat.mul Format.binary64 x.toModel.unpack
      (.finite .positive (2 ^ 52) (-52) (by decide)))) := rfl
  have hvalue' : (n : ℚ) = ((Dyadic.ofFloat x).significand * 2 ^ 52 : ℕ) *
      2 ^ ((Dyadic.ofFloat x).exponent + -52) := by
    rw [hmagnitude, zpow_add₀ (by norm_num)]
    push_cast
    norm_num
    ring
  rw [hproduct, unpack_of_isFinite hfinite, hunpacked, hvalue']
  refine isRounded_pack (t := (Dyadic.ofFloat x).exponent) (by positivity) ?_ (by omega) (by omega)
    (by omega)
  rw [log2_mul_two_pow hm, hlog]
  omega

/-- Integers with more bits are rounded with as many bits appended as a significand has. -/
theorem isRounded_ofScientific {n : Nat} (hpos : 0 < n) (hn : n < 2 ^ 64) :
    IsRounded (Float.ofScientific n false 0) n := by
  rcases Nat.lt_or_ge n (2 ^ 53) with hsmall | hlarge
  · have hdefinition : Float.ofScientific n false 0 = n.toUInt64.toFloat * 1.0 := by
      unfold Float.ofScientific
      rw [dif_pos ⟨hsmall, by decide⟩]
      rfl
    rw [hdefinition]
    exact isRounded_mul_one hpos hsmall (isRounded_toFloat hpos hsmall)
  · have hrange : (2 : Int) ^ Format.binary64.exponentBits = 2048 := rfl
    have hlog : 53 ≤ n.log2 := (Nat.le_log2 (Nat.ne_of_gt hpos)).2 hlarge
    have hlog' : n.log2 < 64 := (Nat.log2_lt (Nat.ne_of_gt hpos)).2 hn
    have hrounding : UnpackedFloat.ofScientific Format.binary64 n 0 =
        roundWithAccuracy Format.binary64 .positive (n <<< 53 * 10 ^ 0) (-53 + 0) .exact := by
      unfold UnpackedFloat.ofScientific
      rw [dif_neg (Nat.ne_of_gt hpos), if_neg (by omega), if_neg (by omega), if_pos (Int.le_refl 0)]
      rfl
    have hdefinition : Float.ofScientific n false 0 =
        .ofModel (.pack (UnpackedFloat.ofScientific Format.binary64 n 0)) := by
      unfold Float.ofScientific
      rw [dif_neg (by omega)]
      rfl
    rw [hdefinition, hrounding, pow_zero, mul_one, add_zero, Nat.shiftLeft_eq, ← scaled_eq n 53]
    refine isRounded_pack (t := n.log2 - 52) (by positivity) ?_ (by omega) (by omega) (by omega)
    rw [log2_mul_two_pow hpos]
    omega

/-- An integer of 64 bits is converted to the nearest float. -/
theorem isRounded_ofInt {n : Int} (hn : n.natAbs < 2 ^ 64) : IsRounded (Float.ofInt n) n := by
  cases n with
  | ofNat n =>
    rcases Nat.eq_zero_or_pos n with rfl | hpos
    · have hofFloat : Dyadic.ofFloat (Float.ofInt 0) = ⟨false, 0, -1074⟩ := rfl
      refine ⟨rfl, .of_toRat_eq (Dyadic.canonical_ofFloat _) ?_⟩
      show (Dyadic.ofFloat (Float.ofInt 0)).toRat = _
      rw [hofFloat]
      simp [Dyadic.toRat]
    · exact isRounded_ofScientific hpos hn
  | negSucc n =>
    have h := (isRounded_ofScientific n.succ_pos hn).neg
    rw [Int.negSucc_eq]
    push_cast at h ⊢
    exact h

end Decimal

/-- An integer of 64 bits is within the range of floats. -/
theorem Numeral.isSome_toFloat?_of_integral {n : Numeral} (hexponent : n.exponent = 0)
    (hlt : n.significand < UInt64.size) : n.toFloat?.isSome := by
  have hfinite : n.magnitude.isInf = false := by
    have hdigits : (Nat.toDigits 10 n.significand).length ≤ 20 := by
      rw [Nat.length_toDigits_le_iff (by decide) (by decide)]
      exact Nat.lt_trans hlt (by decide)
    unfold magnitude exponentBound
    simp only [hexponent]
    split
    · rfl
    · next hzero =>
      rw [if_neg (by omega)]
      have hpos : 0 < n.significand := Nat.pos_of_ne_zero (by simpa using hzero)
      exact Decimal.isInf_eq_false (Decimal.isRounded_ofScientific hpos hlt).1
  rw [toFloat?, hfinite]
  rfl

end Bytecode
