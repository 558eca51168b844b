import Mathlib.Algebra.BigOperators.Intervals
import Mathlib.Tactic

set_option autoImplicit false

/-!
# Row-major order

Two nested counted loops visit the pairs `(i, j)` in the order of the flat
index `i * n + j`, so they are one loop, and a double sum is one sum.
-/
namespace PyannoteCpp.RowMajor

variable {α M : Type*} [AddCommMonoid M] {m n i j : ℕ}

theorem row_div (hj : j < n) : (i * n + j) / n = i := by
  rw [Nat.add_comm, Nat.add_mul_div_right _ _ (Nat.zero_lt_of_lt hj), Nat.div_eq_of_lt hj, Nat.zero_add]

theorem row_mod (hj : j < n) : (i * n + j) % n = j := by
  rw [Nat.add_comm, Nat.add_mul_mod_self_right, Nat.mod_eq_of_lt hj]

theorem row_lt (hi : i < m) (hj : j < n) : i * n + j < m * n := by
  have hrow : (i + 1) * n ≤ m * n := Nat.mul_le_mul_right n hi
  rw [Nat.succ_mul] at hrow
  omega

theorem div_lt {e : ℕ} (he : e < m * n) : e / n < m := Nat.div_lt_of_lt_mul (Nat.mul_comm m n ▸ he)

theorem mod_lt {e : ℕ} (he : e < m * n) : e % n < n := Nat.mod_lt e (Nat.pos_of_lt_mul_left he)

theorem row_inj {i' j' : ℕ} (hj : j < n) (hj' : j' < n) (h : i * n + j = i' * n + j') : i = i' ∧ j = j' := by
  refine ⟨?_, ?_⟩
  · rw [← row_div (i := i) hj, h, row_div hj']
  · rw [← row_mod (i := i) hj, h, row_mod hj']

theorem map_range_mul (m n : ℕ) (f : ℕ → ℕ → α) :
    (List.range m).flatMap (fun i => (List.range n).map (f i)) =
      (List.range (m * n)).map (fun e => f (e / n) (e % n)) := by
  induction m with
  | zero => rw [Nat.zero_mul, List.range_zero, List.flatMap_nil, List.map_nil]
  | succ m ih =>
    rw [List.range_succ, List.flatMap_append, ih, Nat.succ_mul, List.range_add, List.map_append, List.map_map,
      List.flatMap_singleton]
    congr 1
    refine List.map_congr_left (fun j hj => ?_)
    rw [List.mem_range] at hj
    rw [Function.comp_apply, row_div hj, row_mod hj]

theorem flatMap_range_mul (m n : ℕ) (f : ℕ → ℕ → List α) :
    (List.range m).flatMap (fun i => (List.range n).flatMap (f i)) =
      (List.range (m * n)).flatMap (fun e => f (e / n) (e % n)) := by
  have hpairs := map_range_mul m n f
  calc (List.range m).flatMap (fun i => (List.range n).flatMap (f i))
      = (List.range m).flatMap (fun i => ((List.range n).map (f i)).flatMap id) := by
        simp only [List.flatMap_map, id]
    _ = ((List.range m).flatMap (fun i => (List.range n).map (f i))).flatMap id := List.flatMap_assoc.symm
    _ = _ := by rw [hpairs, List.flatMap_map]; rfl

theorem sum_range_mul (m n : ℕ) (f : ℕ → ℕ → M) :
    ∑ e ∈ Finset.range (m * n), f (e / n) (e % n) = ∑ i ∈ Finset.range m, ∑ j ∈ Finset.range n, f i j := by
  induction m with
  | zero => rw [Nat.zero_mul, Finset.sum_range_zero, Finset.sum_range_zero]
  | succ m ih =>
    rw [Nat.succ_mul, Finset.sum_range_add, ih, Finset.sum_range_succ]
    congr 1
    refine Finset.sum_congr rfl (fun j hj => ?_)
    rw [Finset.mem_range] at hj
    rw [row_div hj, row_mod hj]

theorem foldl_range_add (f : ℕ → M) (n : ℕ) (a : M) :
    (List.range n).foldl (fun acc l => acc + f l) a = a + ∑ l ∈ Finset.range n, f l := by
  induction n with
  | zero => rw [Finset.sum_range_zero, add_zero]; rfl
  | succ n ih =>
    rw [List.range_succ, List.foldl_append, ih, Finset.sum_range_succ, ← add_assoc]
    rfl

theorem sum_option {w : Option (ℕ × ℕ)} (hw : ∀ p ∈ w, p.1 < m ∧ p.2 < n) (f : ℕ × ℕ → M) :
    ∑ p ∈ Finset.range m ×ˢ Finset.range n, (if w = some p then f p else 0) = w.elim 0 f := by
  cases w with
  | none => exact Finset.sum_eq_zero (fun p _ => if_neg (by simp))
  | some q =>
    have hq := hw q rfl
    rw [Finset.sum_eq_single q]
    · exact if_pos rfl
    · exact fun p _ hne => if_neg (fun h => hne (Option.some.inj h).symm)
    · exact fun h => absurd (Finset.mem_product.2 ⟨Finset.mem_range.2 hq.1, Finset.mem_range.2 hq.2⟩) h

end PyannoteCpp.RowMajor
