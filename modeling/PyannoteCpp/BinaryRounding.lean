import Mathlib.Data.Int.Log
import Mathlib.Tactic

set_option autoImplicit false

/-!
# Rounding to a binary precision

Numbers with a significand of `p` bits and an exponent without bounds. The
nearest one is taken, of two as near the one with an even significand.
-/
namespace PyannoteCpp.BinaryRounding

def roundEven (q : ℚ) : ℤ :=
  if q - ⌊q⌋ < 1 / 2 then ⌊q⌋
  else if 1 / 2 < q - ⌊q⌋ then ⌊q⌋ + 1
  else if ⌊q⌋ % 2 = 0 then ⌊q⌋
  else ⌊q⌋ + 1

/-- The distance of two neighbours of `p` bits around `q`. -/
def ulp (p : ℕ) (q : ℚ) : ℚ := 2 ^ (Int.log 2 |q| - (p - 1))

def roundTo (p : ℕ) (q : ℚ) : ℚ := if q = 0 then 0 else roundEven (q / ulp p q) * ulp p q

def Representable (p : ℕ) (q : ℚ) : Prop := ∃ m e : ℤ, |m| < 2 ^ p ∧ q = m * 2 ^ e

@[simp] theorem roundEven_intCast (n : ℤ) : roundEven n = n := by
  unfold roundEven
  rw [Int.floor_intCast, sub_self, if_pos (by norm_num)]

theorem roundEven_eq_or (q : ℚ) : roundEven q = ⌊q⌋ ∨ roundEven q = ⌊q⌋ + 1 := by
  unfold roundEven
  split_ifs
  · exact .inl rfl
  · exact .inr rfl
  · exact .inl rfl
  · exact .inr rfl

theorem roundEven_mono {q r : ℚ} (h : q ≤ r) : roundEven q ≤ roundEven r := by
  rcases (Int.floor_le_floor h).lt_or_eq with hlt | heq
  · have hq := roundEven_eq_or q
    have hr := roundEven_eq_or r
    omega
  · unfold roundEven
    rw [← heq]
    have hfract : q - ⌊q⌋ ≤ r - ⌊q⌋ := sub_le_sub_right h _
    split_ifs <;> first | omega | (exfalso; linarith)

theorem ulp_pos (p : ℕ) (q : ℚ) : 0 < ulp p q := zpow_pos (by norm_num) _

theorem roundTo_zero (p : ℕ) : roundTo p 0 = 0 := if_pos rfl

theorem roundTo_of_ne {p : ℕ} {q : ℚ} (h : q ≠ 0) : roundTo p q = roundEven (q / ulp p q) * ulp p q := if_neg h

theorem roundTo_nonneg {p : ℕ} {q : ℚ} (h : 0 ≤ q) : 0 ≤ roundTo p q := by
  rcases h.eq_or_lt with rfl | hpos
  · rw [roundTo_zero]
  · have hround : roundEven ((0 : ℤ) : ℚ) ≤ roundEven (q / ulp p q) :=
      roundEven_mono (by rw [Int.cast_zero]; exact div_nonneg h (ulp_pos p q).le)
    rw [roundEven_intCast] at hround
    rw [roundTo_of_ne hpos.ne']
    exact mul_nonneg (by exact_mod_cast hround) (ulp_pos p q).le

theorem roundTo_nonpos {p : ℕ} {q : ℚ} (h : q ≤ 0) : roundTo p q ≤ 0 := by
  rcases h.eq_or_lt with rfl | hneg
  · rw [roundTo_zero]
  · have hround : roundEven (q / ulp p q) ≤ roundEven ((0 : ℤ) : ℚ) :=
      roundEven_mono (by rw [Int.cast_zero]; exact div_nonpos_of_nonpos_of_nonneg h (ulp_pos p q).le)
    rw [roundEven_intCast] at hround
    rw [roundTo_of_ne hneg.ne]
    exact mul_nonpos_of_nonpos_of_nonneg (by exact_mod_cast hround) (ulp_pos p q).le

theorem ulp_mul_pow (p : ℕ) (q : ℚ) : ulp p q * 2 ^ p = 2 ^ (Int.log 2 |q| + 1) := by
  unfold ulp
  rw [← zpow_natCast, ← zpow_add₀ (by norm_num)]
  congr 1
  ring

theorem roundTo_representable {p : ℕ} {q : ℚ} (h : Representable p q) : roundTo p q = q := by
  obtain ⟨m, e, hm, rfl⟩ := h
  by_cases hzero : (m : ℚ) * 2 ^ e = 0
  · rw [hzero, roundTo_zero]
  · have hle := Int.zpow_log_le_self (b := 2) (by norm_num) (abs_pos.2 hzero)
    have hulp : ulp p (m * 2 ^ e) = 2 ^ (Int.log 2 |(m : ℚ) * 2 ^ e| - (p - 1)) := rfl
    rw [roundTo_of_ne hzero, hulp]
    generalize Int.log 2 |(m : ℚ) * 2 ^ e| = L at hle
    -- The significand is an integer at the scale of the rounding.
    have hscale : L - (p - 1) ≤ e := by
      by_contra hlow
      have hsmall : |(m : ℚ)| * 2 ^ e < 2 ^ p * 2 ^ e :=
        mul_lt_mul_of_pos_right (by exact_mod_cast hm) (zpow_pos (by norm_num) e)
      have htop : (2 : ℚ) ^ p * 2 ^ e ≤ 2 ^ L := by
        rw [← zpow_natCast, ← zpow_add₀ (by norm_num)]
        exact zpow_le_zpow_right₀ (by norm_num) (by omega)
      rw [abs_mul, abs_of_pos (zpow_pos (by norm_num : (0 : ℚ) < 2) e)] at hle
      push_cast at hle
      exact absurd hle (not_le.2 (hsmall.trans_le htop))
    obtain ⟨k, hk⟩ := Int.eq_ofNat_of_zero_le (sub_nonneg.2 hscale)
    have hsplit : (2 : ℚ) ^ e = 2 ^ k * 2 ^ (L - (p - 1)) := by
      rw [← zpow_natCast, ← zpow_add₀ (by norm_num)]
      congr 1
      omega
    have hinteger : (m : ℚ) * 2 ^ e / 2 ^ (L - (p - 1)) = ((m * 2 ^ k : ℤ) : ℚ) := by
      rw [hsplit, ← mul_assoc, mul_div_cancel_right₀ _ (zpow_ne_zero _ (by norm_num))]
      push_cast
      rfl
    rw [hinteger, roundEven_intCast, hsplit]
    push_cast
    ring

section Order

variable {p : ℕ} (hp : 0 < p)
include hp

theorem roundTo_between {q : ℚ} (hq : 0 < q) : 2 ^ Int.log 2 |q| ≤ roundTo p q ∧ roundTo p q ≤ 2 ^ (Int.log 2 |q| + 1) := by
  have hpos := ulp_pos p q
  have habs : |q| = q := abs_of_pos hq
  have hle := Int.zpow_log_le_self (b := 2) (by norm_num) (habs.symm ▸ hq : 0 < |q|)
  have hlt := Int.lt_zpow_succ_log_self (b := 2) (by norm_num) |q|
  push_cast at hle hlt
  have hhalf : ulp p q * 2 ^ (p - 1) = 2 ^ Int.log 2 |q| := by
    unfold ulp
    rw [← zpow_natCast, ← zpow_add₀ (by norm_num), Nat.cast_sub hp]
    congr 1
    push_cast
    ring
  rw [roundTo_of_ne hq.ne']
  constructor
  · have hround : roundEven ((2 ^ (p - 1) : ℤ) : ℚ) ≤ roundEven (q / ulp p q) := by
      refine roundEven_mono ((le_div_iff₀ hpos).2 ?_)
      push_cast
      rw [mul_comm, hhalf]
      exact hle.trans_eq habs
    rw [roundEven_intCast] at hround
    have hcast : (2 : ℚ) ^ (p - 1) ≤ roundEven (q / ulp p q) := by exact_mod_cast hround
    rw [← hhalf, mul_comm]
    exact mul_le_mul_of_nonneg_right hcast hpos.le
  · have hround : roundEven (q / ulp p q) ≤ roundEven ((2 ^ p : ℤ) : ℚ) := by
      refine roundEven_mono ((div_le_iff₀ hpos).2 ?_)
      push_cast
      rw [mul_comm, ulp_mul_pow]
      exact habs.symm.trans_le hlt.le
    rw [roundEven_intCast] at hround
    have hcast : (roundEven (q / ulp p q) : ℚ) ≤ 2 ^ p := by exact_mod_cast hround
    rw [← ulp_mul_pow p q, mul_comm (ulp p q)]
    exact mul_le_mul_of_nonneg_right hcast hpos.le

theorem roundTo_mono {q r : ℚ} (hq : 0 ≤ q) (h : q ≤ r) : roundTo p q ≤ roundTo p r := by
  rcases hq.eq_or_lt with rfl | hqpos
  · rw [roundTo_zero]
    exact roundTo_nonneg h
  · have hrpos := hqpos.trans_le h
    have hlog : Int.log 2 |q| ≤ Int.log 2 |r| := by
      rw [abs_of_pos hqpos, abs_of_pos hrpos]
      exact Int.log_mono_right hqpos h
    rcases hlog.lt_or_eq with hlt | heq
    · calc roundTo p q ≤ 2 ^ (Int.log 2 |q| + 1) := (roundTo_between hp hqpos).2
        _ ≤ 2 ^ Int.log 2 |r| := zpow_le_zpow_right₀ (by norm_num) hlt
        _ ≤ roundTo p r := (roundTo_between hp hrpos).1
    · have hulp : ulp p q = ulp p r := by
        unfold ulp
        rw [heq]
      rw [roundTo_of_ne hqpos.ne', roundTo_of_ne hrpos.ne', hulp]
      have hround := roundEven_mono (div_le_div_of_nonneg_right h (ulp_pos p r).le)
      exact mul_le_mul_of_nonneg_right (by exact_mod_cast hround) (ulp_pos p r).le

theorem roundTo_le {q r : ℚ} (hq : 0 ≤ q) (h : q ≤ r) (hr : Representable p r) : roundTo p q ≤ r :=
  (roundTo_mono hp hq h).trans_eq (roundTo_representable hr)

theorem le_roundTo {q r : ℚ} (hq : 0 ≤ q) (h : q ≤ r) (hr : Representable p q) : q ≤ roundTo p r :=
  (roundTo_representable hr).symm.trans_le (roundTo_mono hp hq h)

end Order

theorem representable_intCast {p : ℕ} {n : ℤ} (h : |n| < 2 ^ p) : Representable p n :=
  ⟨n, 0, h, by rw [zpow_zero, mul_one]⟩

end PyannoteCpp.BinaryRounding
