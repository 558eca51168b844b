import Mathlib.Algebra.BigOperators.Group.Finset.Basic
import Mathlib.Data.Fintype.BigOperators
import Mathlib.Tactic

set_option autoImplicit false

/-!
# Two-dimensional tensors over flat data

The first index is the contiguous one: entry `(i₀, i₁)` of a tensor with first
dimension `ne₀` lies at `i₀ + i₁ * ne₀`. The product contracts the contiguous
dimensions of both factors.
-/
namespace PyannoteCpp.FlatTensor

variable {K : Type*} {ne₀ ne₁ m : ℕ}

abbrev Tensor (K : Type*) (ne₀ ne₁ : ℕ) := Fin ne₀ → Fin ne₁ → K

def ofData (ne₀ ne₁ : ℕ) (data : ℕ → K) : Tensor K ne₀ ne₁ := fun i j => data (i + j * ne₀)

def toData [Zero K] (T : Tensor K ne₀ ne₁) : ℕ → K := fun n =>
  if h : 0 < ne₀ ∧ n / ne₀ < ne₁ then T ⟨n % ne₀, Nat.mod_lt _ h.1⟩ ⟨n / ne₀, h.2⟩ else 0

def mulMat [AddCommMonoid K] [Mul K] (A : Tensor K ne₀ m) (B : Tensor K ne₀ ne₁) : Tensor K m ne₁ :=
  fun i j => ∑ l, A l i * B l j

theorem toData_apply [Zero K] (T : Tensor K ne₀ ne₁) (i : Fin ne₀) (j : Fin ne₁) :
    toData T (i + j * ne₀) = T i j := by
  have hpos : 0 < ne₀ := Nat.zero_lt_of_lt i.isLt
  have hdiv : ((i : ℕ) + j * ne₀) / ne₀ = j := by
    rw [Nat.add_mul_div_right _ _ hpos, Nat.div_eq_of_lt i.isLt, Nat.zero_add]
  have hmod : ((i : ℕ) + j * ne₀) % ne₀ = i := by
    rw [Nat.add_mul_mod_self_right, Nat.mod_eq_of_lt i.isLt]
  have hcell : 0 < ne₀ ∧ ((i : ℕ) + j * ne₀) / ne₀ < ne₁ := by
    rw [hdiv]
    exact ⟨hpos, j.isLt⟩
  unfold toData
  rw [dif_pos hcell]
  exact congrArg₂ T (Fin.ext hmod) (Fin.ext hdiv)

end PyannoteCpp.FlatTensor
