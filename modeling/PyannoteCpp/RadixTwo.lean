import PyannoteCpp.BitReversal

set_option autoImplicit false

/-!
# The radix-two transform

A transform of even length is made from those of its even and odd entries. The
stages of the loop make every block of the bit-reversed input the transform of
a subsequence, until one block is left.
-/
namespace PyannoteCpp.RadixTwo
open BitReversal Finset

variable {R : Type*} [CommRing R] {ω : R}

def dft (n : ℕ) (ω : R) (f : ℕ → R) (j : ℕ) : R := ∑ t ∈ range n, f t * ω ^ (j * t)

theorem dft_double (n : ℕ) (ω : R) (f : ℕ → R) (j : ℕ) :
    dft (2 * n) ω f j = dft n (ω ^ 2) (fun t => f (2 * t)) j + ω ^ j * dft n (ω ^ 2) (fun t => f (2 * t + 1)) j := by
  unfold dft
  induction n with
  | zero => simp
  | succ n ih =>
    have heven : ω ^ (j * (2 * n)) = (ω ^ 2) ^ (j * n) := by rw [← pow_mul]; congr 1; ring
    have hodd : ω ^ (j * (2 * n + 1)) = ω ^ j * (ω ^ 2) ^ (j * n) := by rw [← pow_mul, ← pow_add]; congr 1; ring
    rw [Nat.mul_succ, sum_range_succ, sum_range_succ, ih, sum_range_succ, sum_range_succ, heven, hodd]
    ring

theorem dft_periodic {n : ℕ} (h : ω ^ n = 1) (f : ℕ → R) (j : ℕ) : dft n ω f (n + j) = dft n ω f j := by
  refine sum_congr rfl (fun t _ => ?_)
  rw [Nat.add_mul, pow_add, pow_mul, h, one_pow, one_mul]

/-- The second half of a transform, when `ω` is a primitive root. -/
theorem dft_double_upper {n : ℕ} (h : ω ^ n = -1) (f : ℕ → R) (j : ℕ) :
    dft (2 * n) ω f (n + j) =
      dft n (ω ^ 2) (fun t => f (2 * t)) j - ω ^ j * dft n (ω ^ 2) (fun t => f (2 * t + 1)) j := by
  have hsquare : (ω ^ 2) ^ n = 1 := by rw [← pow_mul, Nat.mul_comm, pow_mul, h]; ring
  rw [dft_double, dft_periodic hsquare, dft_periodic hsquare, pow_add, h]
  ring

/-- All the butterflies of a stage: every block of `2 * half` cells at once. -/
def stage (ω : R) (half : ℕ) (f : ℕ → R) (p : ℕ) : R :=
  if p % (2 * half) < half then f p + ω ^ (p % (2 * half)) * f (p + half)
  else f (p - half) - ω ^ (p % (2 * half) - half) * f p

theorem stage_congr {half : ℕ} (hhalf : 0 < half) {f g : ℕ → R} {p : ℕ}
    (h : ∀ q, q / (2 * half) = p / (2 * half) → f q = g q) : stage ω half f p = stage ω half g p := by
  have hpos : 0 < 2 * half := by omega
  have hsplit := Nat.div_add_mod' p (2 * half)
  have hmod := Nat.mod_lt p hpos
  have hin (q : ℕ) (hlow : p / (2 * half) * (2 * half) ≤ q) (hhigh : q < p / (2 * half) * (2 * half) + 2 * half) :
      f q = g q := by
    refine h q ((Nat.div_eq_iff hpos).2 ?_)
    omega
  unfold stage
  split_ifs with hlower
  · rw [h p rfl, hin (p + half) (by omega) (by omega)]
  · rw [h p rfl, hin (p - half) (by omega) (by omega)]

/-- Every block of `2 ^ s` cells is the transform of a subsequence. -/
def Level (K s : ℕ) (ω : R) (x f : ℕ → R) : Prop :=
  ∀ p < 2 ^ K, f p = dft (2 ^ s) ω (fun t => x (t * 2 ^ (K - s) + reversed (K - s) (p / 2 ^ s))) (p % 2 ^ s)

theorem level_zero (K : ℕ) (ω : R) (x : ℕ → R) : Level K 0 ω x (fun p => x (reversed K p)) := by
  intro p _
  simp [dft]

theorem level_full {K : ℕ} {x f : ℕ → R} (h : Level K K ω x f) {p : ℕ} (hp : p < 2 ^ K) : f p = dft (2 ^ K) ω x p := by
  rw [h p hp, Nat.mod_eq_of_lt hp, Nat.sub_self]
  simp [reversed]

theorem level_succ {K s : ℕ} (hs : s < K) {x f : ℕ → R} (h : Level K s (ω ^ 2) x f) (hω : ω ^ 2 ^ s = -1) :
    Level K (s + 1) ω x (stage ω (2 ^ s) f) := by
  intro p hp
  obtain ⟨w, rfl⟩ : ∃ w, K = s + 1 + w := ⟨K - (s + 1), by omega⟩
  have hpos : 0 < 2 ^ s := Nat.two_pow_pos s
  have hhalf : 2 ^ (s + 1) = 2 * 2 ^ s := pow_succ' 2 s
  have hwidth : s + 1 + w - s = w + 1 := by omega
  have hwidth' : s + 1 + w - (s + 1) = w := by omega
  have hblock (q r : ℕ) (hr : r < 2 ^ s) (hq : q * 2 ^ s + r < 2 ^ (s + 1 + w)) :
      f (q * 2 ^ s + r) = dft (2 ^ s) (ω ^ 2) (fun t => x (t * 2 ^ (w + 1) + reversed (w + 1) q)) r := by
    have hsplit : (q * 2 ^ s + r) / 2 ^ s = q ∧ (q * 2 ^ s + r) % 2 ^ s = r :=
      (Nat.div_mod_unique hpos).2 ⟨by ring, hr⟩
    rw [h _ hq, hsplit.1, hsplit.2, hwidth]
  obtain ⟨c, r, hr, rfl⟩ : ∃ c r, r < 2 * 2 ^ s ∧ p = c * (2 * 2 ^ s) + r :=
    ⟨p / (2 * 2 ^ s), p % (2 * 2 ^ s), Nat.mod_lt _ (by omega), (Nat.div_add_mod' p _).symm⟩
  have hsplit : (c * (2 * 2 ^ s) + r) / (2 * 2 ^ s) = c ∧ (c * (2 * 2 ^ s) + r) % (2 * 2 ^ s) = r :=
    (Nat.div_mod_unique (by omega)).2 ⟨by ring, hr⟩
  have hlast : c * (2 * 2 ^ s) + 2 * 2 ^ s ≤ 2 ^ (s + 1 + w) := by
    have hc : c < 2 ^ w := by
      rw [pow_add, hhalf, Nat.mul_comm (2 * 2 ^ s) (2 ^ w)] at hp
      exact Nat.lt_of_mul_lt_mul_right (Nat.lt_of_le_of_lt (Nat.le_add_right _ r) hp)
    have := Nat.mul_le_mul_right (2 * 2 ^ s) (show c + 1 ≤ 2 ^ w from hc)
    rw [pow_add, hhalf, Nat.mul_comm (2 * 2 ^ s)]
    linarith
  -- The block of the even entries and that of the odd ones lie side by side.
  have heven (j : ℕ) (hj : j < 2 ^ s) : f (c * (2 * 2 ^ s) + j) =
      dft (2 ^ s) (ω ^ 2) (fun t => x (2 * t * 2 ^ w + reversed w c)) j := by
    have hcell : c * (2 * 2 ^ s) + j = 2 * c * 2 ^ s + j := by ring
    have hsub (t : ℕ) : t * 2 ^ (w + 1) + reversed (w + 1) (2 * c) = 2 * t * 2 ^ w + reversed w c := by
      rw [reversed_even, pow_succ]
      ring
    rw [hcell, hblock _ j hj (by omega)]
    simp only [hsub]
  have hodd (j : ℕ) (hj : j < 2 ^ s) : f (c * (2 * 2 ^ s) + j + 2 ^ s) =
      dft (2 ^ s) (ω ^ 2) (fun t => x ((2 * t + 1) * 2 ^ w + reversed w c)) j := by
    have hcell : c * (2 * 2 ^ s) + j + 2 ^ s = (2 * c + 1) * 2 ^ s + j := by ring
    have hsub (t : ℕ) : t * 2 ^ (w + 1) + reversed (w + 1) (2 * c + 1) = (2 * t + 1) * 2 ^ w + reversed w c := by
      rw [reversed_odd, pow_succ]
      ring
    rw [hcell, hblock _ j hj (by omega)]
    simp only [hsub]
  unfold stage
  rw [hwidth', hhalf, hsplit.1, hsplit.2]
  split_ifs with hlower
  · rw [heven r hlower, hodd r hlower, dft_double]
  · obtain ⟨j, rfl⟩ : ∃ j, r = 2 ^ s + j := ⟨r - 2 ^ s, by omega⟩
    have hfirst : c * (2 * 2 ^ s) + (2 ^ s + j) - 2 ^ s = c * (2 * 2 ^ s) + j := by omega
    have hsecond : c * (2 * 2 ^ s) + (2 ^ s + j) = c * (2 * 2 ^ s) + j + 2 ^ s := by ring
    rw [hfirst, hsecond, Nat.add_sub_cancel_left, heven j (by omega), hodd j (by omega), dft_double_upper hω]

/-- The stages one after the other, with a root for each. -/
theorem level_stages {K : ℕ} {x f : ℕ → R} (root : ℕ → R) (step : ℕ → (ℕ → R) → ℕ → R)
    (hstep : ∀ s < K, ∀ f, ∀ p < 2 ^ K, step s f p = stage (root (s + 1)) (2 ^ s) f p)
    (hroot : ∀ s < K, root (s + 1) ^ 2 = root s) (hhalf : ∀ s < K, root (s + 1) ^ 2 ^ s = -1)
    (h : Level K 0 (root 0) x f) {s : ℕ} (hs : s ≤ K) :
    Level K s (root s) x ((List.range s).foldl (fun f s => step s f) f) := by
  induction s with
  | zero => exact h
  | succ s ih =>
    have hlevel := ih (by omega)
    rw [← hroot s (by omega)] at hlevel
    intro p hp
    rw [List.range_succ, List.foldl_append, List.foldl_cons, List.foldl_nil, hstep s (by omega) _ p hp]
    exact level_succ (by omega) hlevel (hhalf s (by omega)) p hp

end PyannoteCpp.RadixTwo
