import Mathlib.Data.Fintype.Basic
import Mathlib.Logic.Function.Basic
import Mathlib.Logic.Relation
import Mathlib.Tactic

set_option autoImplicit false

/-!
# Parent pointers that never point upwards

Every index points at itself or at a smaller index, so following the pointers
ends at a root. Linking one root under another moves its class; pointing an
index at its own root moves nothing.
-/
namespace PyannoteCpp

structure ParentForest (n : ℕ) where
  parent : Fin n → Fin n
  parent_le : ∀ i, parent i ≤ i

namespace ParentForest

variable {n : ℕ}

def discrete (n : ℕ) : ParentForest n := ⟨fun i => i, fun _ => le_rfl⟩

def root (F : ParentForest n) (i : Fin n) : Fin n :=
  if F.parent i = i then i else F.root (F.parent i)
termination_by i.val
decreasing_by exact lt_of_le_of_ne (F.parent_le i) (fun h => absurd (Fin.ext h) (by assumption))

def point (F : ParentForest n) (j i : Fin n) (h : i ≤ j) : ParentForest n where
  parent := Function.update F.parent j i
  parent_le k := by
    by_cases hk : k = j
    · rw [hk, Function.update_self]
      exact h
    · rw [Function.update_of_ne hk]
      exact F.parent_le k

variable (F : ParentForest n)

theorem root_of_self {i : Fin n} (h : F.parent i = i) : F.root i = i := by
  rw [root, if_pos h]

theorem root_parent (i : Fin n) : F.root (F.parent i) = F.root i := by
  by_cases h : F.parent i = i
  · rw [h]
  · conv_rhs => rw [root, if_neg h]

/-- Induction along the pointers, from the roots. -/
theorem chain_induct {P : Fin n → Prop} (self : ∀ i, F.parent i = i → P i)
    (up : ∀ i, F.parent i ≠ i → P (F.parent i) → P i) (i : Fin n) : P i := by
  induction i using WellFoundedLT.induction with
  | ind i ih =>
    by_cases h : F.parent i = i
    · exact self i h
    · exact up i h (ih _ (lt_of_le_of_ne (F.parent_le i) h))

theorem parent_root (i : Fin n) : F.parent (F.root i) = F.root i := by
  induction i using F.chain_induct with
  | self i h => rw [F.root_of_self h, h]
  | up i _ ih => rwa [F.root_parent] at ih

theorem root_le (i : Fin n) : F.root i ≤ i := by
  induction i using F.chain_induct with
  | self i h => rw [F.root_of_self h]
  | up i _ ih =>
    rw [F.root_parent] at ih
    exact ih.trans (F.parent_le i)

@[simp] theorem root_discrete (i : Fin n) : (discrete n).root i = i :=
  root_of_self _ rfl

theorem point_self {j i : Fin n} (h : i ≤ j) : (F.point j i h).parent j = i := Function.update_self ..

theorem point_other {j i k : Fin n} (h : i ≤ j) (hk : k ≠ j) : (F.point j i h).parent k = F.parent k :=
  Function.update_of_ne hk ..

theorem root_link {i j : Fin n} (hi : F.parent i = i) (hj : F.parent j = j) (h : i < j) (k : Fin n) :
    (F.point j i h.le).root k = if F.root k = j then i else F.root k := by
  have top : (F.point j i h.le).root i = i :=
    root_of_self _ (by rw [F.point_other h.le h.ne, hi])
  induction k using F.chain_induct with
  | self k hk =>
    rw [F.root_of_self hk]
    by_cases hkj : k = j
    · rw [if_pos hkj, ← root_parent, hkj, F.point_self, top]
    · rw [if_neg hkj]
      exact root_of_self _ (by rw [F.point_other h.le hkj, hk])
  | up k hk ih =>
    have hkj : k ≠ j := by
      rintro rfl
      exact hk hj
    rw [← root_parent, F.point_other h.le hkj, ih, F.root_parent]

theorem root_point {j r : Fin n} (hr : F.root j = r) (h : r ≤ j) (k : Fin n) :
    (F.point j r h).root k = F.root k := by
  have hp : F.parent r = r := hr ▸ F.parent_root j
  have top : (F.point j r h).root r = r := by
    refine root_of_self _ ?_
    by_cases hj : r = j
    · subst hj
      exact F.point_self h
    · rw [F.point_other h hj, hp]
  have here : (F.point j r h).root j = F.root j := by
    rw [← root_parent, F.point_self, top, hr]
  induction k using F.chain_induct with
  | self k hk =>
    by_cases hkj : k = j
    · rw [hkj, here]
    · rw [F.root_of_self hk]
      exact root_of_self _ (by rw [F.point_other h hkj, hk])
  | up k hk ih =>
    by_cases hkj : k = j
    · rw [hkj, here]
    · rw [← root_parent, F.point_other h hkj, ih, F.root_parent]

theorem parent_lt {r curr : Fin n} (hr : F.root curr = r) (h : F.parent curr ≠ r) :
    F.parent curr < curr := by
  refine lt_of_le_of_ne (F.parent_le curr) (fun hc => h ?_)
  rw [← hr, F.root_of_self hc, hc]

/-- The walk up from `curr` that points what it passes at the root `r`. -/
def compress (F : ParentForest n) (r curr : Fin n) (hr : F.root curr = r) : ParentForest n :=
  if F.parent curr = r then F
  else (F.point curr r (hr ▸ F.root_le curr)).compress r (F.parent curr)
    (by rw [F.root_point hr, F.root_parent, hr])
termination_by curr.val
decreasing_by exact F.parent_lt hr (by assumption)

theorem root_compress {r curr : Fin n} (hr : F.root curr = r) (k : Fin n) :
    (F.compress r curr hr).root k = F.root k := by
  induction curr using WellFoundedLT.induction generalizing F with
  | ind curr ih =>
    rw [compress]
    split_ifs with h
    · rfl
    · rw [ih _ (F.parent_lt hr h), F.root_point hr]

theorem parent_eq_iff (k : Fin n) : F.parent k = k ↔ F.root k = k := by
  constructor
  · exact F.root_of_self
  · intro h
    rw [← h]
    exact F.parent_root k

section Walks

/-! The loops of a program over the bare array, with a bound on their turns. -/

def rootWalk (parent : Fin n → Fin n) : ℕ → Fin n → Option (Fin n)
  | 0, _ => none
  | turns + 1, i => if parent i = i then some i else rootWalk parent turns (parent i)

def compressWalk (r : Fin n) : ℕ → (Fin n → Fin n) → Fin n → Option (Fin n → Fin n)
  | 0, _, _ => none
  | turns + 1, parent, curr =>
    if parent curr = r then some parent
    else compressWalk r turns (Function.update parent curr r) (parent curr)

/-- No walk up from `i` makes more than `i` steps. -/
theorem rootWalk_eq {turns : ℕ} {i : Fin n} (h : i.val < turns) : rootWalk F.parent turns i = some (F.root i) := by
  induction turns generalizing i with
  | zero => omega
  | succ turns ih =>
    rw [rootWalk]
    split_ifs with hi
    · rw [F.root_of_self hi]
    · have down : F.parent i < i := lt_of_le_of_ne (F.parent_le i) hi
      rw [ih (by omega), F.root_parent]

theorem compressWalk_eq {turns : ℕ} {r curr : Fin n} (hr : F.root curr = r) (h : curr.val < turns) :
    compressWalk r turns F.parent curr = some (F.compress r curr hr).parent := by
  induction turns generalizing F curr with
  | zero => omega
  | succ turns ih =>
    rw [compressWalk, compress]
    split_ifs with hc
    · rfl
    · have down := F.parent_lt hr hc
      exact ih (F.point curr r (hr ▸ F.root_le curr)) _ (by omega)

end Walks

/-- Linking two roots joins their classes and no others. -/
theorem link_eqvGen {r : Fin n → Fin n → Prop} (h : ∀ p q, F.root p = F.root q ↔ Relation.EqvGen r p q)
    {i j : Fin n} (hi : F.parent i = i) (hj : F.parent j = j) (hij : i < j) (p q : Fin n) :
    (F.point j i hij.le).root p = (F.point j i hij.le).root q ↔
      Relation.EqvGen (fun a b => r a b ∨ a = i ∧ b = j) p q := by
  have wider : ∀ {a b}, Relation.EqvGen r a b → Relation.EqvGen (fun a b => r a b ∨ a = i ∧ b = j) a b :=
    fun hab => hab.mono (fun _ _ => Or.inl)
  have own : ∀ a, Relation.EqvGen (fun a b => r a b ∨ a = i ∧ b = j) a (F.root a) :=
    fun a => wider ((h a (F.root a)).1 (F.root_of_self (F.parent_root a)).symm)
  have edge : Relation.EqvGen (fun a b => r a b ∨ a = i ∧ b = j) i j := .rel _ _ (Or.inr ⟨rfl, rfl⟩)
  constructor
  · intro hpq
    have rooted : ∀ a, Relation.EqvGen (fun a b => r a b ∨ a = i ∧ b = j) a ((F.point j i hij.le).root a) := by
      intro a
      rw [F.root_link hi hj hij]
      split_ifs with ha
      · exact .trans _ _ _ (own a) (ha ▸ edge.symm)
      · exact own a
    exact .trans _ _ _ (rooted p) (hpq ▸ (rooted q).symm)
  · intro hpq
    induction hpq with
    | rel a b hab =>
      rcases hab with hab | ⟨rfl, rfl⟩
      · rw [F.root_link hi hj hij, F.root_link hi hj hij, (h a b).2 (.rel _ _ hab)]
      · rw [F.root_link hi hj hij, F.root_link hi hj hij, F.root_of_self hi, F.root_of_self hj, if_pos rfl,
          if_neg hij.ne]
    | refl a => rfl
    | symm a b _ ih => exact ih.symm
    | trans a b c _ _ ihab ihbc => exact ihab.trans ihbc

end ParentForest
end PyannoteCpp
