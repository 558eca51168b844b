import Mathlib.Analysis.SpecialFunctions.Complex.Circle
import Mathlib.RingTheory.RootsOfUnity.Complex
import PyannoteCpp.Fft
import PyannoteCpp.RadixTwo

set_option autoImplicit false

/-!
# The discrete Fourier transform

Over exact complex numbers the loops of `fft` are the stages of the radix-two
transform, and the powers of `wm` are its roots.
-/
namespace PyannoteCpp.Fft
open MachineInt CheckedVector BitReversal RadixTwo

section Stages

variable {Z : Type} [CommRing Z]

def partialBlock (wm : Z) (half k i : ℕ) (f : ℕ → Z) (p : ℕ) : Z :=
  if k ≤ p ∧ p < k + i then f p + wm ^ (p - k) * f (p + half)
  else if k + half ≤ p ∧ p < k + half + i then f (p - half) - wm ^ (p - half - k) * f p
  else f p

theorem butterflyTurn_partialBlock (wm : Z) {half i : ℕ} (k : ℕ) (hi : i < half) (f : ℕ → Z) :
    butterflyTurn wm half k (partialBlock wm half k i f, wm ^ i) i = (partialBlock wm half k (i + 1) f, wm ^ (i + 1)) := by
  have hlower : partialBlock wm half k i f (k + i) = f (k + i) := by
    unfold partialBlock
    rw [if_neg (by omega), if_neg (by omega)]
  have hupper : partialBlock wm half k i f (k + i + half) = f (k + i + half) := by
    unfold partialBlock
    rw [if_neg (by omega), if_neg (by omega)]
  refine Prod.ext (funext (fun p => ?_)) (pow_succ wm i).symm
  simp only [butterflyTurn, hlower, hupper]
  by_cases hpu : p = k + i + half
  · have hback : p - half = k + i := by omega
    have hpower : k + i - k = i := by omega
    unfold partialBlock
    rw [hpu, Function.update_self, if_neg (by omega), if_pos (by omega), ← hpu, hback, hpower]
  · rw [Function.update_of_ne hpu]
    by_cases hpl : p = k + i
    · unfold partialBlock
      rw [hpl, Function.update_self, if_pos (by omega), Nat.add_sub_cancel_left]
    · have hfirst : k ≤ p ∧ p < k + (i + 1) ↔ k ≤ p ∧ p < k + i := by omega
      have hsecond : k + half ≤ p ∧ p < k + half + (i + 1) ↔ k + half ≤ p ∧ p < k + half + i := by omega
      rw [Function.update_of_ne hpl]
      simp only [partialBlock, hfirst, hsecond]

theorem foldl_butterflyTurn (wm : Z) {half i : ℕ} (k : ℕ) (hi : i ≤ half) (f : ℕ → Z) :
    (List.range i).foldl (butterflyTurn wm half k) (f, 1) = (partialBlock wm half k i f, wm ^ i) := by
  induction i with
  | zero =>
    refine Prod.ext (funext (fun p => ?_)) (pow_zero wm).symm
    change f p = partialBlock wm half k 0 f p
    unfold partialBlock
    rw [if_neg (by omega), if_neg (by omega)]
  | succ i ih =>
    rw [List.range_succ, List.foldl_append, List.foldl_cons, List.foldl_nil, ih (by omega)]
    exact butterflyTurn_partialBlock wm k hi f

theorem blockTurn_eq (wm : Z) {half : ℕ} (hhalf : 0 < half) (c : ℕ) (f : ℕ → Z) (p : ℕ) :
    blockTurn wm (2 * half) f (c * (2 * half)) p = if p / (2 * half) = c then stage wm half f p else f p := by
  have hpos : 0 < 2 * half := by omega
  have hsplit := Nat.div_add_mod p (2 * half)
  have hmod := Nat.mod_lt p hpos
  have hcell : p / (2 * half) = c ↔ c * (2 * half) ≤ p ∧ p < c * (2 * half) + 2 * half := by
    rw [Nat.div_eq_iff hpos]
    omega
  unfold blockTurn
  rw [Nat.mul_div_cancel_left half (by omega), foldl_butterflyTurn wm _ le_rfl]
  change partialBlock wm half (c * (2 * half)) half f p = _
  unfold partialBlock stage
  by_cases hin : p / (2 * half) = c
  · have hplace : p = c * (2 * half) + p % (2 * half) := by rw [← hin, Nat.mul_comm]; exact hsplit.symm
    rw [if_pos hin]
    by_cases hlower : p % (2 * half) < half
    · have hpower : p - c * (2 * half) = p % (2 * half) := by omega
      rw [if_pos (by omega), if_pos hlower, hpower]
    · have hpower : p - half - c * (2 * half) = p % (2 * half) - half := by omega
      rw [if_neg (by omega), if_pos (by omega), if_neg hlower, hpower]
  · rw [if_neg hin, if_neg (by omega), if_neg (by omega)]

theorem foldl_blockTurn (wm : Z) {half : ℕ} (hhalf : 0 < half) (count : ℕ) (f : ℕ → Z) (p : ℕ) :
    ((List.range count).map (fun c => c * (2 * half))).foldl (blockTurn wm (2 * half)) f p =
      if p / (2 * half) < count then stage wm half f p else f p := by
  induction count generalizing p with
  | zero => rfl
  | succ count ih =>
    rw [List.range_succ, List.map_append, List.foldl_append, List.map_cons, List.map_nil, List.foldl_cons,
      List.foldl_nil, blockTurn_eq wm hhalf]
    by_cases hlast : p / (2 * half) = count
    · have hfresh (q : ℕ) (hq : q / (2 * half) = p / (2 * half)) :
          ((List.range count).map (fun c => c * (2 * half))).foldl (blockTurn wm (2 * half)) f q = f q := by
        rw [ih q, if_neg (by omega)]
      rw [if_pos hlast, if_pos (by omega), stage_congr hhalf hfresh]
    · have hbefore : p / (2 * half) < count + 1 ↔ p / (2 * half) < count := by omega
      rw [if_neg hlast, ih p]
      simp only [hbefore]

/-- A turn of the outer loop is a stage of the transform. -/
theorem stageTurn_eq (wm : ℕ → Z) {K s : ℕ} (hs : s < K) (f : ℕ → Z) {p : ℕ} (hp : p < 2 ^ K) :
    stageTurn wm (2 ^ K) f (s + 1) p = stage (wm (2 ^ (s + 1))) (2 ^ s) f p := by
  obtain ⟨w, rfl⟩ := Nat.exists_eq_add_of_le (show s + 1 ≤ K from hs)
  have hsize : 2 ^ (s + 1) = 2 * 2 ^ s := pow_succ' 2 s
  have hin : p / (2 * 2 ^ s) < 2 ^ w := by
    rw [pow_add, hsize] at hp
    exact Nat.div_lt_of_lt_mul hp
  unfold stageTurn
  rw [strided_two_pow, Nat.one_shiftLeft, hsize, foldl_blockTurn _ (Nat.two_pow_pos s), if_pos hin]

/-- With roots for all the stages, the values at the end are the transform. -/
theorem transformed_eq (wm : ℕ → Z) {K : ℕ} (hroot : ∀ s < K, wm (2 ^ (s + 1)) ^ 2 = wm (2 ^ s))
    (hhalf : ∀ s < K, wm (2 ^ (s + 1)) ^ 2 ^ s = -1) (x : ℕ → Z) {j : ℕ} (hj : j < 2 ^ K) :
    transformed wm K x j = dft (2 ^ K) (wm (2 ^ K)) x j := by
  have hstart : Level K 0 (wm (2 ^ 0)) x ((List.range (2 ^ K)).foldl (swapTurn (reversed K)) x) := by
    intro p hp
    rw [foldl_swapTurn (fun i _ => reversed_lt K i) (fun i hi => reversed_reversed hi) x hp]
    exact level_zero K _ x p hp
  have hlevels := level_stages (fun s => wm (2 ^ s)) (fun s f => stageTurn wm (2 ^ K) f (s + 1))
    (fun s hs f p hp => stageTurn_eq wm hs f hp) hroot hhalf hstart le_rfl
  unfold transformed
  rw [List.foldl_map]
  exact level_full hlevels hj

end Stages

section Reversal

variable {Z : Type} {K : ℕ}

/-- What the first loop does to a vector: it applies the bit reversal once, by swaps of disjoint pairs. -/
structure SwapsOnce (K : ℕ) (x : Fin (2 ^ K) → Z) : Prop where
  applied : ∃ σ : Equiv.Perm (Fin (2 ^ K)), (∀ i, σ (σ i) = i) ∧ (∀ i, (σ i : ℕ) = reversedIndex K i) ∧
    (List.range (2 ^ K)).foldlM (reverseTurn K) (List.ofFn x) = .ok (List.ofFn (fun i => x (σ i)))
  swapped : (List.range (2 ^ K)).foldlM (reverseTurn K) (List.ofFn x) =
    (swaps (reversedIndex K) (2 ^ K)).foldlM (fun v p => swapAt v p.1 p.2) (List.ofFn x)
  distinct : (swaps (reversedIndex K) (2 ^ K)).Nodup
  once : ∀ i < 2 ^ K, reversedIndex K i ≠ i → ∃! p, p ∈ swaps (reversedIndex K) (2 ^ K) ∧ (p.1 = i ∨ p.2 = i)

theorem foldlM_reverseTurn (l : List ℕ) (v : List Z) : l.foldlM (reverseTurn K) v =
    ((l.filter (fun i => i < reversedIndex K i)).map (fun i => (i, reversedIndex K i))).foldlM
      (fun v p => swapAt v p.1 p.2) v := by
  induction l generalizing v with
  | nil => rfl
  | cons i l ih =>
    rw [List.foldlM_cons]
    unfold reverseTurn
    by_cases h : i < reversedIndex K i
    · rw [List.filter_cons_of_pos (by simpa using h), List.map_cons, List.foldlM_cons]
      change (if i < reversedIndex K i then _ else _) >>= _ = _
      rw [if_pos h]
      exact congrArg _ (funext ih)
    · rw [List.filter_cons_of_neg (by simpa using h)]
      change (if i < reversedIndex K i then _ else _) >>= _ = _
      rw [if_neg h]
      exact ih v

/-- The reversal as a permutation of the cells. -/
def reversal (K : ℕ) : Equiv.Perm (Fin (2 ^ K)) :=
  Function.Involutive.toPerm (fun i => ⟨reversed K i, reversed_lt K i⟩) (fun i => Fin.ext (reversed_reversed i.isLt))

theorem swapsOnce (x : Fin (2 ^ K) → Z) : SwapsOnce K x := by
  have hindex : reversedIndex K = reversed K := funext (reversedIndex_eq K)
  refine ⟨⟨reversal K, fun i => Fin.ext (reversed_reversed i.isLt), fun i => (reversedIndex_eq K i).symm, ?_⟩,
    foldlM_reverseTurn _ _, swaps_nodup _ _, ?_⟩
  · rw [ofFn_eq_cells x (x ⟨0, Nat.two_pow_pos K⟩), reverse_cells]
    refine congrArg (fun f => Except.ok (List.ofFn f)) (funext (fun i => ?_))
    rw [foldl_swapTurn (fun i _ => reversed_lt K i) (fun i hi => reversed_reversed hi) _ i.isLt,
      padded_of_lt _ _ (reversed_lt K i)]
    rfl
  · rw [hindex]
    intro i hi hmoves
    exact swaps_unique (fun i _ => reversed_lt K i) (fun i hi => reversed_reversed hi) hi hmoves

end Reversal

noncomputable section Exact

open Complex Finset

def twiddle (m : ℕ) : ℂ := exp (-2.0 * Real.pi * I / m)

def fourier {n : ℕ} (x : Fin n → ℂ) (j : Fin n) : ℂ := ∑ t, x t * exp (-2.0 * Real.pi * I * j * t / n)

theorem two_literal : (2.0 : ℂ) = 2 := by norm_num

theorem twiddle_double (m : ℕ) : twiddle (2 * m) ^ 2 = twiddle m := by
  unfold twiddle
  rw [two_literal, ← Complex.exp_nat_mul]
  congr 1
  push_cast
  ring

theorem twiddle_half {m : ℕ} (hm : 0 < m) : twiddle (2 * m) ^ m = -1 := by
  have hne : (m : ℂ) ≠ 0 := by exact_mod_cast hm.ne'
  have hangle : (m : ℂ) * (-2 * Real.pi * I / (2 * m : ℕ)) = -(Real.pi * I) := by
    push_cast
    field_simp
  unfold twiddle
  rw [two_literal, ← Complex.exp_nat_mul, hangle, Complex.exp_neg, Complex.exp_pi_mul_I]
  norm_num

theorem fourier_eq_dft {n : ℕ} (x : Fin n → ℂ) (j : Fin n) :
    fourier x j = dft n (twiddle n) (padded x 0) j := by
  unfold fourier dft
  rw [Finset.sum_range]
  refine sum_congr rfl (fun t _ => ?_)
  have hpower : twiddle n ^ ((j : ℕ) * t) = exp (-2 * Real.pi * I * j * t / n) := by
    unfold twiddle
    rw [two_literal, ← Complex.exp_nat_mul]
    congr 1
    push_cast
    ring
  rw [padded_of_lt _ _ t.isLt, hpower, two_literal]

def impulse (n : ℕ) (t : Fin n) : ℂ := if (t : ℕ) = 0 then 1 else 0

theorem fourier_impulse {n : ℕ} (hn : 0 < n) (j : Fin n) : fourier (impulse n) j = 1 := by
  unfold fourier
  rw [sum_eq_single ⟨0, hn⟩]
  · simp [impulse]
  · intro t _ ht
    have ht : (t : ℕ) ≠ 0 := fun h => ht (Fin.ext h)
    simp [impulse, ht]
  · simp

/-- `fft` gives the discrete Fourier transform of every vector whose length is a power of two that fits. -/
theorem fft_fourier {K : ℕ} (hK : K ≤ 30) (x : Fin (2 ^ K) → ℂ) :
    fft twiddle (List.ofFn x) = .ok (List.ofFn (fourier x)) ∧ SwapsOnce K x := by
  refine ⟨?_, swapsOnce x⟩
  rcases Nat.eq_zero_or_pos K with rfl | hpos
  · rw [fft_unchanged]
    · refine congrArg (fun f => Except.ok (List.ofFn f)) (funext (fun j => ?_))
      obtain rfl : j = ⟨0, Nat.one_pos⟩ := Fin.ext (Nat.lt_one_iff.1 j.isLt)
      rw [fourier_eq_dft]
      simp [dft, padded]
    · rw [List.length_ofFn]
      exact (toInt_of_inRange (by unfold InRange; norm_num)).le.trans (by norm_num)
  · have hroot : ∀ s < K, twiddle (2 ^ (s + 1)) ^ 2 = twiddle (2 ^ s) := fun s _ => by
      rw [pow_succ' 2 s]
      exact twiddle_double _
    have hhalf : ∀ s < K, twiddle (2 ^ (s + 1)) ^ 2 ^ s = -1 := fun s _ => by
      rw [pow_succ' 2 s]
      exact twiddle_half (Nat.two_pow_pos s)
    rw [ofFn_eq_cells x 0, fft_cells twiddle hpos hK]
    refine congrArg (fun f => Except.ok (List.ofFn f)) (funext (fun j => ?_))
    rw [transformed_eq twiddle hroot hhalf _ j.isLt, fourier_eq_dft]

/-- The reversal moves the only cell of eight that is not zero. -/
theorem fft_fourier_eight :
    fft twiddle (List.ofFn (fun t : Fin (2 ^ 3) => if (t : ℕ) = 1 then 1 else 0)) =
      .ok (List.ofFn (fun j : Fin (2 ^ 3) => exp (-2.0 * Real.pi * I * j / 8))) ∧
    ∃! p, p ∈ swaps (reversedIndex 3) (2 ^ 3) ∧ (p.1 = 1 ∨ p.2 = 1) := by
  obtain ⟨htransform, hreversal⟩ := fft_fourier (K := 3) (by norm_num) (fun t => if (t : ℕ) = 1 then 1 else 0)
  refine ⟨htransform.trans (congrArg (fun f => Except.ok (List.ofFn f)) (funext fun j => ?_)),
    hreversal.once 1 (by norm_num) (by decide)⟩
  unfold fourier
  rw [sum_eq_single ⟨1, by norm_num⟩]
  · simp
  · intro t _ ht
    have ht : (t : ℕ) ≠ 1 := fun h => ht (Fin.ext h)
    simp [ht]
  · simp

theorem toInt_two_pow_le {K : ℕ} (hK : 31 ≤ K) : toInt ((2 ^ K : ℕ) : ℤ) ≤ 0 := by
  obtain ⟨w, rfl⟩ := Nat.exists_eq_add_of_le hK
  obtain ⟨q, hq⟩ := toInt_dvd ((2 ^ (31 + w) : ℕ) : ℤ)
  have hrange := toInt_inRange ((2 ^ (31 + w) : ℕ) : ℤ)
  have hfactor : ((2 ^ (31 + w) : ℕ) : ℤ) = 2 ^ 31 * 2 ^ w := by push_cast; exact pow_add 2 31 w
  unfold InRange at hrange
  omega

theorem fft_impulse_unchanged {K : ℕ} (hK : 31 ≤ K) :
    fft twiddle (List.ofFn (impulse (2 ^ K))) ≠ .ok (List.ofFn (fourier (impulse (2 ^ K)))) := by
  have hsize : 1 < 2 ^ K := Nat.one_lt_two_pow (by omega)
  rw [fft_unchanged]
  · intro h
    have hsame := List.ofFn_injective (Except.ok.inj h)
    have hone := congrFun hsame ⟨1, hsize⟩
    rw [fourier_impulse (by omega)] at hone
    simp [impulse] at hone
  · rw [List.length_ofFn]
    exact (toInt_two_pow_le hK).trans (by norm_num)

/-- A vector of `2 ^ 31` numbers is not transformed. -/
theorem fft_31_unchanged : ¬∀ x : Fin (2 ^ 31) → ℂ, fft twiddle (List.ofFn x) = .ok (List.ofFn (fourier x)) :=
  fun h => fft_impulse_unchanged (by norm_num) (h (impulse (2 ^ 31)))

end Exact

end PyannoteCpp.Fft
