import Mathlib.Tactic

set_option autoImplicit false

/-!
# Reversing the bits of an index

The first `width` bits of an index in the opposite order. The reversal undoes
itself, and a loop that swaps every index with a larger image applies such a
permutation once.
-/
namespace PyannoteCpp.BitReversal

def reversed : ℕ → ℕ → ℕ
  | 0, _ => 0
  | width + 1, i => i % 2 * 2 ^ width + reversed width (i / 2)

theorem reversed_lt (width i : ℕ) : reversed width i < 2 ^ width := by
  induction width generalizing i with
  | zero => exact Nat.one_pos
  | succ width ih =>
    have htail := ih (i / 2)
    have hbit : i % 2 * 2 ^ width ≤ 1 * 2 ^ width := Nat.mul_le_mul_right _ (by omega)
    change i % 2 * 2 ^ width + reversed width (i / 2) < 2 ^ (width + 1)
    rw [pow_succ]
    omega

theorem reversed_even (width c : ℕ) : reversed (width + 1) (2 * c) = reversed width c := by
  change 2 * c % 2 * 2 ^ width + reversed width (2 * c / 2) = _
  rw [Nat.mul_mod_right, Nat.zero_mul, Nat.zero_add, Nat.mul_div_cancel_left _ (by omega)]

theorem reversed_odd (width c : ℕ) : reversed (width + 1) (2 * c + 1) = 2 ^ width + reversed width c := by
  have hbit : (2 * c + 1) % 2 = 1 := by omega
  have hrest : (2 * c + 1) / 2 = c := by omega
  change (2 * c + 1) % 2 * 2 ^ width + reversed width ((2 * c + 1) / 2) = _
  rw [hbit, hrest, Nat.one_mul]

theorem reversed_high (width b : ℕ) {i : ℕ} (hi : i < 2 ^ width) :
    reversed (width + 1) (b % 2 * 2 ^ width + i) = 2 * reversed width i + b % 2 := by
  induction width generalizing i with
  | zero =>
    have hi : i = 0 := by simpa using hi
    subst hi
    change (b % 2 * 1 + 0) % 2 * 1 + 0 = 2 * 0 + b % 2
    omega
  | succ width ih =>
    rw [pow_succ] at hi
    have hlow : (b % 2 * 2 ^ (width + 1) + i) % 2 = i % 2 := by
      rw [pow_succ, ← Nat.mul_assoc, Nat.mul_add_mod_self_right]
    have hhigh : (b % 2 * 2 ^ (width + 1) + i) / 2 = b % 2 * 2 ^ width + i / 2 := by
      rw [pow_succ, ← Nat.mul_assoc, Nat.mul_comm _ 2, Nat.mul_add_div (by omega)]
    change (b % 2 * 2 ^ (width + 1) + i) % 2 * 2 ^ (width + 1) +
      reversed (width + 1) ((b % 2 * 2 ^ (width + 1) + i) / 2) = 2 * (i % 2 * 2 ^ width + reversed width (i / 2)) + b % 2
    rw [hlow, hhigh, ih (by omega), pow_succ]
    ring

theorem reversed_reversed {width i : ℕ} (hi : i < 2 ^ width) : reversed width (reversed width i) = i := by
  induction width generalizing i with
  | zero =>
    have hi : i = 0 := by simpa using hi
    rw [hi]
    rfl
  | succ width ih =>
    rw [pow_succ] at hi
    change reversed (width + 1) (i % 2 * 2 ^ width + reversed width (i / 2)) = i
    rw [reversed_high width i (reversed_lt width _), ih (by omega)]
    omega

theorem foldl_bits (width i start : ℕ) :
    (List.range width).foldl (fun j k => j ||| (((i >>> k) &&& 1) <<< (width - 1 - k))) start =
      start ||| reversed width i := by
  induction width generalizing i start with
  | zero => exact (Nat.or_zero start).symm
  | succ width ih =>
    have hfirst : (((i >>> 0) &&& 1) <<< (width + 1 - 1 - 0)) = i % 2 * 2 ^ width := by
      rw [Nat.shiftRight_zero, Nat.and_one_is_mod, Nat.shiftLeft_eq, Nat.add_sub_cancel, Nat.sub_zero]
    have hrest (k : ℕ) : (((i >>> (k + 1)) &&& 1) <<< (width + 1 - 1 - (k + 1))) =
        (((i / 2) >>> k) &&& 1) <<< (width - 1 - k) := by
      have hshift : width + 1 - 1 - (k + 1) = width - 1 - k := by omega
      rw [hshift, Nat.add_comm k 1, Nat.shiftRight_add, Nat.shiftRight_one]
    have hjoin : i % 2 * 2 ^ width ||| reversed width (i / 2) = reversed (width + 1) i := by
      rw [Nat.mul_comm]
      exact (Nat.two_pow_add_eq_or_of_lt (reversed_lt width (i / 2)) (i % 2)).symm.trans (by rw [Nat.mul_comm]; rfl)
    rw [List.range_succ_eq_map, List.foldl_cons, List.foldl_map]
    simp only [Nat.succ_eq_add_one, hrest, hfirst]
    rw [ih, Nat.or_assoc, hjoin]

section Swaps

variable {R : Type*} {n : ℕ} {σ : ℕ → ℕ}

def swapTurn (σ : ℕ → ℕ) (f : ℕ → R) (i : ℕ) : ℕ → R :=
  if i < σ i then Function.update (Function.update f i (f (σ i))) (σ i) (f i) else f

/-- What is swapped, in the order of the loop. -/
def swaps (σ : ℕ → ℕ) (n : ℕ) : List (ℕ × ℕ) := ((List.range n).filter (fun i => i < σ i)).map (fun i => (i, σ i))

variable (hlt : ∀ i < n, σ i < n) (hσ : ∀ i < n, σ (σ i) = i)
include hlt hσ

/-- After `i` turns the pairs with an index below `i` are swapped. -/
theorem foldl_swapTurn_take (f : ℕ → R) {i : ℕ} (hi : i ≤ n) {p : ℕ} (hp : p < n) :
    (List.range i).foldl (swapTurn σ) f p = if p < i ∨ σ p < i then f (σ p) else f p := by
  induction i generalizing p with
  | zero =>
    rw [if_neg (by omega)]
    rfl
  | succ i ih =>
    have hback := hσ p hp
    have hbefore {q : ℕ} (hq : q < n) := ih (by omega) hq
    rw [List.range_succ, List.foldl_append, List.foldl_cons, List.foldl_nil]
    generalize (List.range i).foldl (swapTurn σ) f = g at hbefore ⊢
    unfold swapTurn
    split_ifs with hturn hlater hlater
    · by_cases hpσ : p = σ i
      · subst hpσ
        rw [Function.update_self, hbefore (by omega), if_neg (by omega), hσ i (by omega)]
      · rw [Function.update_of_ne hpσ]
        by_cases hpi : p = i
        · subst hpi
          rw [Function.update_self, hbefore (hlt p hp), hback, if_neg (by omega)]
        · have hne : σ p ≠ i := by
            rintro rfl
            exact hpσ hback.symm
          rw [Function.update_of_ne hpi, hbefore hp, if_pos (by omega)]
    · have hpi : p ≠ i := by omega
      have hpσ : p ≠ σ i := by
        rintro rfl
        rw [hσ i (by omega)] at hlater
        omega
      rw [Function.update_of_ne hpσ, Function.update_of_ne hpi, hbefore hp, if_neg (by omega)]
    · rw [hbefore hp]
      split_ifs with hdone
      · rfl
      · have hfixed : σ p = p := by
          rcases hlater with h | h
          · have hpi : i = p := by omega
            rw [hpi] at hturn hdone
            omega
          · have hpi : σ p = i := by omega
            rw [hpi] at hback
            omega
        rw [hfixed]
    · rw [hbefore hp, if_neg (by omega)]

theorem foldl_swapTurn (f : ℕ → R) {p : ℕ} (hp : p < n) : (List.range n).foldl (swapTurn σ) f p = f (σ p) := by
  rw [foldl_swapTurn_take hlt hσ f le_rfl hp, if_pos (.inl hp)]

/-- Every index that moves is in exactly one of the swapped pairs. -/
theorem swaps_unique {i : ℕ} (hi : i < n) (hmoves : σ i ≠ i) :
    ∃! p, p ∈ swaps σ n ∧ (p.1 = i ∨ p.2 = i) := by
  have hmem (a b : ℕ) : (a, b) ∈ swaps σ n ↔ a < n ∧ a < σ a ∧ b = σ a := by
    unfold swaps
    simp only [List.mem_map, List.mem_filter, List.mem_range, decide_eq_true_eq]
    constructor
    · rintro ⟨j, ⟨hj, hlarger⟩, h⟩
      cases h
      exact ⟨hj, hlarger, rfl⟩
    · rintro ⟨hj, hlarger, himage⟩
      exact ⟨a, ⟨hj, hlarger⟩, Prod.ext rfl himage.symm⟩
  have hback := hσ i hi
  refine ⟨(min i (σ i), max i (σ i)), ⟨?_, ?_⟩, ?_⟩
  · rw [hmem]
    rcases le_total i (σ i) with h | h
    · rw [min_eq_left h, max_eq_right h]
      exact ⟨hi, by omega, rfl⟩
    · rw [min_eq_right h, max_eq_left h, hback]
      exact ⟨hlt i hi, by omega, rfl⟩
  · rcases le_total i (σ i) with h | h
    · exact .inl (min_eq_left h)
    · exact .inr (max_eq_left h)
  · rintro ⟨a, b⟩ ⟨hab, hin⟩
    rw [hmem] at hab
    obtain ⟨ha, hlarger, rfl⟩ := hab
    have haback := hσ a ha
    rcases hin with rfl | rfl
    · rw [min_eq_left hlarger.le, max_eq_right hlarger.le]
    · change (a, σ a) = (min (σ a) (σ (σ a)), max (σ a) (σ (σ a)))
      rw [haback, min_eq_right hlarger.le, max_eq_left hlarger.le]

end Swaps

theorem swaps_nodup (σ : ℕ → ℕ) (n : ℕ) : (swaps σ n).Nodup :=
  (List.nodup_range.filter _).map (fun _ _ h => congrArg Prod.fst h)

end PyannoteCpp.BitReversal
