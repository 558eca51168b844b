import PyannoteCpp.MachineInt
import PyannoteCpp.TensorView

set_option autoImplicit false

/-!
# Permuting the axes of a tensor

A permuted tensor is a view with the sizes and strides in another order. On their way
they stand in arrays of type `int`.
-/
namespace PyannoteCpp.TensorViews
open MachineInt

def ggmlViewTensor (src : Tensor) : Except Abort Tensor := do
  let result ← ggmlNewTensorImpl src.type 4 src.ne src 0
  pure { result with nb := src.nb }

def AxesAsserted (axis : Fin 4 → ℤ) : Prop := (∀ k, 0 ≤ axis k ∧ axis k < 4) ∧ ∀ j k, j < k → axis j ≠ axis k

instance (axis : Fin 4 → ℤ) : Decidable (AxesAsserted axis) := inferInstanceAs (Decidable (_ ∧ _))

theorem neZero_four : NeZero 4 := ⟨by decide⟩

/-- An array of type `int` whose element `axis k` is assigned the value of `k`, for each `k` in turn. -/
def storeAxes (axis value : Fin 4 → ℤ) : Fin 4 → ℤ :=
  (List.finRange 4).foldl
    (fun array k => Function.update array (@Fin.ofNat 4 neZero_four (axis k).toNat) (toInt (value k))) fun _ => 0

def ggmlPermute (a : Tensor) (axis : Fin 4 → ℤ) : Except Abort Tensor :=
  if AxesAsserted axis then do
    let result ← ggmlViewTensor a
    let ne := storeAxes axis a.ne
    let nb := storeAxes axis fun k => a.nb k
    pure { result with ne := ne, nb := fun i => wrapInt (nb i) }
  else .error .assertion

def axes (σ : Equiv.Perm (Fin 4)) : Fin 4 → ℤ := fun k => (σ k).val

def home (t : Tensor) : Storage × ℕ := t.view.getD (t.toStorage, 0)

def address (t : Tensor) (index : Fin 4 → ℕ) : Storage × ℕ :=
  ((home t).1, wrap64 ((home t).2 + ∑ k, index k * t.nb k))

/-- Permuting gives a view of the same elements, and permuting back restores sizes and strides. -/
def PermuteLaw (a : Tensor) (σ : Equiv.Perm (Fin 4)) : Prop :=
  ∃ b, ggmlPermute a (axes σ) = .ok b ∧ b.view.isSome = true ∧
    (∀ index : Fin 4 → ℕ, (∀ k, (index k : ℤ) < a.ne k) → address b (fun j => index (σ.symm j)) = address a index) ∧
    ∃ c, ggmlPermute b (axes σ.symm) = .ok c ∧ c.ne = a.ne ∧ c.nb = a.nb

/-- A `size_t` that an `int` can stand for. -/
def StrideKept (nb : ℕ) : Prop := nb < 2 ^ 31 ∨ 2 ^ 64 - 2 ^ 31 ≤ nb ∧ nb < 2 ^ 64

/-- Sizes and strides pass through an `int`, and the view that is made of either shape is accepted. -/
structure Permutable (a : Tensor) (σ : Equiv.Perm (Fin 4)) : Prop where
  sizes : ∀ k, InRange (a.ne k)
  strides : ∀ k, StrideKept (a.nb k)
  accepted : ViewAsserted a.type 4 a.ne (viewBase a 0)
  acceptedBack : ViewAsserted a.type 4 (fun j => a.ne (σ.symm j)) (viewBase a 0)

section Integers

theorem wrapInt_toInt_iff (nb : ℕ) : wrapInt (toInt nb) = nb ↔ StrideKept nb := by
  have hrange := toInt_inRange nb
  obtain ⟨q, hq⟩ := toInt_dvd nb
  unfold InRange at hrange
  unfold wrapInt StrideKept
  omega

theorem toInt_wrapInt (z : ℤ) (h : InRange z) : toInt (wrapInt z) = z := by
  have hrange := toInt_inRange (wrapInt z)
  obtain ⟨q, hq⟩ := toInt_dvd (wrapInt z)
  unfold InRange at h hrange
  have hwrap : ((wrapInt z : ℕ) : ℤ) = z % 2 ^ 64 := by
    unfold wrapInt
    omega
  omega

end Integers

section Axes

variable {a : Tensor} {σ : Equiv.Perm (Fin 4)}

theorem axes_asserted (σ : Equiv.Perm (Fin 4)) : AxesAsserted (axes σ) := by
  refine ⟨fun k => ⟨Int.natCast_nonneg _, by unfold axes; omega⟩, fun j k hjk hsame => ?_⟩
  exact hjk.ne (σ.injective (Fin.ext (Int.ofNat.inj hsame)))

theorem foldl_update {l : List (Fin 4)} (hl : l.Nodup) (σ : Equiv.Perm (Fin 4)) (value : Fin 4 → ℤ) (array : Fin 4 → ℤ)
    (k : Fin 4) :
    l.foldl (fun array k => Function.update array (σ k) (value k)) array (σ k) = if k ∈ l then value k else array (σ k) := by
  induction l generalizing array with
  | nil => rfl
  | cons j l ih =>
    obtain ⟨hnew, hl⟩ := List.nodup_cons.mp hl
    rw [List.foldl_cons, ih hl]
    by_cases hjk : k = j
    · subst hjk
      rw [if_neg hnew, if_pos List.mem_cons_self, Function.update_self]
    · rw [Function.update_of_ne (σ.injective.ne hjk)]
      simp only [List.mem_cons, hjk, false_or]

theorem storeAxes_axes (σ : Equiv.Perm (Fin 4)) (value : Fin 4 → ℤ) (j : Fin 4) :
    storeAxes (axes σ) value j = toInt (value (σ.symm j)) := by
  have hindex : ∀ k, Fin.ofNat 4 (axes σ k).toNat = σ k := fun k => by
    unfold axes
    rw [Int.toNat_natCast]
    exact Fin.ofNat_val_eq_self (σ k)
  unfold storeAxes
  simp only [hindex]
  have hstored := foldl_update (List.nodup_finRange 4) σ (fun k => toInt (value k)) (fun _ => 0) (σ.symm j)
  rw [Equiv.apply_symm_apply, if_pos (List.mem_finRange _)] at hstored
  exact hstored

/-- Permuting is accepted exactly when a view of the whole tensor is. -/
theorem ggmlPermute_ok {b : Tensor} : ggmlPermute a (axes σ) = .ok b ↔
    ViewAsserted a.type 4 a.ne (viewBase a 0) ∧
      b = ⟨⟨a.type, fun j => toInt (a.ne (σ.symm j)), fun j => wrapInt (toInt (a.nb (σ.symm j)))⟩, some (viewBase a 0)⟩ := by
  have hne : storeAxes (axes σ) a.ne = fun j => toInt (a.ne (σ.symm j)) := funext (storeAxes_axes σ a.ne)
  have hnb : (storeAxes (axes σ) fun k => a.nb k) = fun j => toInt (a.nb (σ.symm j)) :=
    funext (storeAxes_axes σ fun k => a.nb k)
  unfold ggmlPermute ggmlViewTensor ggmlNewTensorImpl
  rw [if_pos (axes_asserted σ), hne, hnb]
  by_cases hasserted : ViewAsserted a.type 4 a.ne (viewBase a 0)
  · dsimp only
    rw [if_pos hasserted]
    exact ⟨fun h => ⟨hasserted, (Except.ok.inj h).symm⟩, fun h => congrArg Except.ok h.2.symm⟩
  · dsimp only
    rw [if_neg hasserted]
    exact iff_of_false nofun fun h => hasserted h.1

theorem viewBase_view (a : Tensor) (t : Storage) : viewBase ⟨t, some (viewBase a 0)⟩ 0 = viewBase a 0 := by
  unfold viewBase
  cases a.view with
  | none => rfl
  | some base =>
    dsimp only
    unfold wrap64
    rw [Nat.zero_add, Nat.zero_add, Nat.mod_mod]

theorem address_view (a : Tensor) (t : Storage) (index : Fin 4 → ℕ) :
    address ⟨t, some (viewBase a 0)⟩ index = ((home a).1, wrap64 ((home a).2 + ∑ k, index k * t.nb k)) := by
  unfold address home viewBase
  cases a.view with
  | none => rfl
  | some base =>
    dsimp only [Option.getD_some]
    unfold wrap64
    rw [Nat.zero_add, Nat.mod_add_mod]

/-- Permuting the axes is right exactly when every size and stride passes through an `int` unchanged, for the tensors of
which a view is made. -/
theorem permute_law_iff (a : Tensor) (σ : Equiv.Perm (Fin 4)) : PermuteLaw a σ ↔ Permutable a σ := by
  constructor
  · rintro ⟨b, hb, -, -, c, hc, hne, hnb⟩
    obtain ⟨haccepted, rfl⟩ := ggmlPermute_ok.mp hb
    obtain ⟨hback, rfl⟩ := ggmlPermute_ok.mp hc
    have hsizes : ∀ k, toInt (a.ne k) = a.ne k := fun k => by
      have hk := congrFun hne k
      dsimp only at hk
      rw [Equiv.symm_symm, Equiv.symm_apply_apply, toInt_of_inRange (toInt_inRange _)] at hk
      exact hk
    refine ⟨fun k => (toInt_eq_iff _).mp (hsizes k), fun k => ?_, haccepted, ?_⟩
    · have hk := congrFun hnb k
      dsimp only at hk
      rw [Equiv.symm_symm, Equiv.symm_apply_apply, toInt_wrapInt _ (toInt_inRange _)] at hk
      exact (wrapInt_toInt_iff _).mp hk
    · rw [viewBase_view] at hback
      simp only [hsizes] at hback
      exact hback
  · rintro ⟨hsizes, hstrides, haccepted, hback⟩
    have hsame : ∀ k, toInt (a.ne k) = a.ne k := fun k => toInt_of_inRange (hsizes k)
    have hkept : ∀ k, wrapInt (toInt (a.nb k)) = a.nb k := fun k => (wrapInt_toInt_iff _).mpr (hstrides k)
    refine ⟨_, ggmlPermute_ok.mpr ⟨haccepted, rfl⟩, rfl, fun index _ => ?_, _, ggmlPermute_ok.mpr ⟨?_, rfl⟩, ?_, ?_⟩
    · rw [address_view]
      unfold address
      dsimp only
      simp only [hkept]
      rw [Equiv.sum_comp σ.symm fun k => index k * a.nb k]
    · rw [viewBase_view]
      simp only [hsame]
      exact hback
    · funext k
      dsimp only
      rw [Equiv.symm_symm, Equiv.symm_apply_apply, hsame, hsame]
    · funext k
      dsimp only
      rw [Equiv.symm_symm, Equiv.symm_apply_apply, hkept, hkept]

def twoVolumes : Tensor := ⟨⟨.f32, ![1024, 1024, 1024, 2], ![4, 2 ^ 12, 2 ^ 22, 2 ^ 32]⟩, none⟩

/-- The second volume of the permuted tensor is where the first one is. -/
theorem not_permute_law : ¬PermuteLaw twoVolumes (Equiv.swap 0 1) := by
  rintro ⟨b, hb, -, haddress, -⟩
  obtain ⟨-, rfl⟩ := ggmlPermute_ok.mp hb
  have hsecond := congrArg Prod.snd (haddress ![0, 0, 0, 1] (by decide))
  exact absurd hsecond (by decide)

end Axes

end PyannoteCpp.TensorViews
