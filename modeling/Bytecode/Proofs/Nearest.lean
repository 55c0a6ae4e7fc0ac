import Bytecode.Proofs.FloatValue
import Mathlib.Tactic.Linarith

set_option autoImplicit false

/-!
# The nearest float

Which float is the nearest to a number, and of two that are equally near, which one has an even
significand.  There is a float between any two with even significands, so the nearest one is
determined up to the sign of zero.  No bound is put on the exponents here.

Main statements: `Dyadic.IsNearest.cmp_eq`, the nearest float to a number is on the same side of
all others as the number is, `Dyadic.IsNearest.unique` and `Dyadic.IsNearest.toRat_mono`.
-/

namespace Bytecode.Decimal.Dyadic

/-- The float is the nearest to the number, and of two that are equally near, the one with the even
significand. -/
structure IsNearest (d : Dyadic) (q : ℚ) : Prop where
  canonical : d.Canonical
  dist_le {c : Dyadic} : c.Canonical → |d.toRat - q| ≤ |c.toRat - q|
  even_of_tie {c : Dyadic} : c.Canonical → |c.toRat - q| = |d.toRat - q| → c.toRat ≠ d.toRat →
    Even d.significand

/-! ## Signs and units -/

/-- The number with the other sign. -/
def neg (d : Dyadic) : Dyadic :=
  ⟨!d.negative, d.significand, d.exponent⟩

theorem toRat_neg (d : Dyadic) : d.neg.toRat = -d.toRat := by
  unfold neg toRat
  cases d.negative <;> simp

theorem neg_neg_self (d : Dyadic) : d.neg.neg = d := by
  simp [neg]

theorem Canonical.neg {d : Dyadic} (hd : d.Canonical) : d.neg.Canonical :=
  ⟨hd.significand_lt, hd.exponent_ge, hd.full⟩

theorem toRat_of_nonneg {d : Dyadic} (h : 0 ≤ d.toRat) :
    d.toRat = d.significand * 2 ^ d.exponent := by
  rw [← abs_toRat, abs_of_nonneg h]

/-- A number in smaller units. -/
theorem magnitude_eq_mul {m : Nat} {e t : Int} (hle : t ≤ e) :
    (m * 2 ^ e : ℚ) = (m * 2 ^ (e - t).toNat : ℕ) * 2 ^ t := by
  push_cast
  rw [mul_assoc, ← zpow_natCast, ← zpow_add₀ (by norm_num)]
  congr 2
  omega

/-! ## Nearest floats -/

namespace IsNearest

variable {c d : Dyadic} {p q : ℚ}

theorem neg (h : d.IsNearest q) : d.neg.IsNearest (-q) := by
  have hdist : ∀ c : Dyadic, |c.neg.toRat - -q| = |c.toRat - q| := fun c => by
    rw [toRat_neg, neg_sub_neg, abs_sub_comm]
  refine ⟨h.canonical.neg, fun {c} hc => ?_, fun {c} hc htie hne => ?_⟩
  · rw [hdist, ← c.neg_neg_self, hdist]
    exact h.dist_le hc.neg
  · rw [hdist, ← c.neg_neg_self, hdist] at htie
    refine h.even_of_tie hc.neg htie fun heq => hne ?_
    rw [toRat_neg, ← heq, toRat_neg, neg_neg]

/-- A float is nearest to the number that it is. -/
theorem of_toRat_eq (hd : d.Canonical) (hq : d.toRat = q) : d.IsNearest q := by
  refine ⟨hd, fun _ => ?_, fun _ htie hne => ?_⟩
  · rw [hq, sub_self, abs_zero]
    exact abs_nonneg _
  · rw [hq, sub_self, abs_zero, abs_eq_zero, sub_eq_zero] at htie
    exact absurd (htie.trans hq.symm) hne

/-- A float of the same value is as near. -/
theorem congr (h : d.IsNearest q) (hc : c.Canonical) (hvalue : c.toRat = d.toRat) :
    c.IsNearest q := by
  refine ⟨hc, fun hb => ?_, fun hb htie hne => ?_⟩
  · rw [hvalue]
    exact h.dist_le hb
  · rw [hvalue] at htie hne
    rw [significand_eq hc h.canonical hvalue]
    exact h.even_of_tie hb htie hne

/-- The nearest float is on the same side of other floats. -/
theorem cmp_eq (h : d.IsNearest q) (hc : c.Canonical) (hne : d.toRat ≠ c.toRat) :
    cmp d.toRat c.toRat = cmp q c.toRat := by
  have hle := h.dist_le hc
  rcases lt_or_gt_of_ne hne with hlt | hgt
  · have hlt' : q < c.toRat := by
      by_contra hge
      rw [abs_of_nonpos (by linarith), abs_of_nonpos (by linarith)] at hle
      linarith
    rw [(cmp_eq_lt_iff _ _).2 hlt, (cmp_eq_lt_iff _ _).2 hlt']
  · have hgt' : c.toRat < q := by
      by_contra hge
      rw [abs_of_nonneg (by linarith), abs_of_nonneg (by linarith)] at hle
      linarith
    rw [(cmp_eq_gt_iff _ _).2 hgt, (cmp_eq_gt_iff _ _).2 hgt']

/-- A number that is a float is rounded to itself. -/
theorem toRat_eq (h : d.IsNearest q) (hc : c.Canonical) (hq : c.toRat = q) : d.toRat = q := by
  have hle := h.dist_le hc
  rw [hq, sub_self, abs_zero] at hle
  exact sub_eq_zero.1 (abs_nonpos_iff.1 hle)

end IsNearest

/-- The number with the next significand, which is odd, is below any other even one. -/
theorem exists_between_of_nonneg {c d : Dyadic} (hc : c.Canonical) (hd : d.Canonical)
    (hec : Even c.significand) (hed : Even d.significand) (hnonneg : 0 ≤ c.toRat)
    (hlt : c.toRat < d.toRat) :
    ∃ b : Dyadic, b.Canonical ∧ c.toRat < b.toRat ∧ b.toRat < d.toRat := by
  have hsignificand := hc.significand_lt
  have hunit : (0 : ℚ) < 2 ^ c.exponent := by positivity
  have hvalue_d := toRat_of_nonneg (hnonneg.trans hlt.le)
  rw [toRat_of_nonneg hnonneg, hvalue_d] at hlt ⊢
  have hle : c.exponent ≤ d.exponent := by
    by_contra hgt
    exact absurd (magnitude_lt hd hc (by omega)) hlt.asymm
  rw [magnitude_eq_mul hle] at hlt ⊢
  have heven : Even (d.significand * 2 ^ (d.exponent - c.exponent).toNat) := hed.mul_right _
  generalize d.significand * 2 ^ (d.exponent - c.exponent).toNat = n at hlt heven ⊢
  rw [mul_lt_mul_iff_left₀ hunit, Nat.cast_lt] at hlt
  rw [Nat.even_iff] at hec heven
  have hvalue : toRat ⟨false, c.significand + 1, c.exponent⟩ =
      (c.significand + 1 : ℕ) * 2 ^ c.exponent := by
    rw [toRat, if_neg Bool.false_ne_true, one_mul]
  refine ⟨⟨false, c.significand + 1, c.exponent⟩,
    ⟨by simp only; omega, hc.exponent_ge, hc.full.imp_left Nat.le_succ_of_le⟩, ?_, ?_⟩
  · rw [hvalue]
    gcongr
    omega
  · rw [hvalue]
    gcongr
    omega

/-- There is a float between any two with even significands. -/
theorem exists_between {c d : Dyadic} (hc : c.Canonical) (hd : d.Canonical)
    (hec : Even c.significand) (hed : Even d.significand) (hlt : c.toRat < d.toRat) :
    ∃ b : Dyadic, b.Canonical ∧ c.toRat < b.toRat ∧ b.toRat < d.toRat := by
  rcases le_or_gt 0 c.toRat with hnonneg | hneg
  · exact exists_between_of_nonneg hc hd hec hed hnonneg hlt
  · rcases le_or_gt d.toRat 0 with hnonpos | hpos
    · obtain ⟨b, hb, hl, hr⟩ := exists_between_of_nonneg hd.neg hc.neg hed hec
        (by rw [toRat_neg]; linarith) (by rw [toRat_neg, toRat_neg]; linarith)
      rw [toRat_neg] at hl hr
      exact ⟨b.neg, hb.neg, by rw [toRat_neg]; linarith, by rw [toRat_neg]; linarith⟩
    · have hzero : toRat ⟨false, 0, -1074⟩ = 0 := by simp [toRat]
      exact ⟨⟨false, 0, -1074⟩, ⟨by norm_num, le_rfl, .inr rfl⟩, by rwa [hzero], by rwa [hzero]⟩

namespace IsNearest

variable {c d : Dyadic} {p q : ℚ}

theorem toRat_not_lt (h : c.IsNearest q) (h' : d.IsNearest q) : ¬ c.toRat < d.toRat := by
  intro hlt
  have htie : |d.toRat - q| = |c.toRat - q| :=
    le_antisymm (h'.dist_le h.canonical) (h.dist_le h'.canonical)
  -- A float between them is nearer than both.
  obtain ⟨b, hb, hl, hr⟩ := exists_between h.canonical h'.canonical
    (h.even_of_tie h'.canonical htie hlt.ne') (h'.even_of_tie h.canonical htie.symm hlt.ne) hlt
  have hle := h.dist_le hb
  rcases abs_cases (c.toRat - q) with h₁ | h₁ <;> rcases abs_cases (d.toRat - q) with h₂ | h₂ <;>
    rcases abs_cases (b.toRat - q) with h₃ | h₃ <;> linarith

/-- The nearest floats to a number have the same value. -/
theorem unique (h : c.IsNearest q) (h' : d.IsNearest q) : c.toRat = d.toRat :=
  le_antisymm (le_of_not_gt (h'.toRat_not_lt h)) (le_of_not_gt (h.toRat_not_lt h'))

/-- Rounding does not change the order of numbers. -/
theorem toRat_mono (h : c.IsNearest p) (h' : d.IsNearest q) (hpq : p ≤ q) : c.toRat ≤ d.toRat := by
  rcases hpq.eq_or_lt with rfl | hlt
  · exact (h.unique h').le
  by_contra hgt
  have hle := h.dist_le h'.canonical
  have hle' := h'.dist_le h.canonical
  rcases abs_cases (c.toRat - p) with h₁ | h₁ <;> rcases abs_cases (d.toRat - p) with h₂ | h₂ <;>
    rcases abs_cases (d.toRat - q) with h₃ | h₃ <;> rcases abs_cases (c.toRat - q) with h₄ | h₄ <;>
    linarith

end IsNearest

end Bytecode.Decimal.Dyadic
