import Mathlib.Data.List.OfFn
import PyannoteCpp.CheckedLoops
import PyannoteCpp.MachineInt

set_option autoImplicit false

/-!
# Vectors that are read and written by computed indices

An index is a number of type `int`, and an access has a result only inside the
vector. A vector of `n` cells is a function on `Fin n`.
-/
namespace PyannoteCpp.CheckedVector

inductive Fault
  | overflow
  | outOfBounds
  | lengthError
  | divisionByZero
  deriving DecidableEq

variable {F : Type} {n : ℕ}

def checked : Option ℤ → Except Fault ℤ
  | none => .error .overflow
  | some r => .ok r

/-- A new vector. A negative size is a size no vector can have. -/
def allocate (size : ℤ) (x : F) : Except Fault (List F) :=
  if size < 0 then .error .lengthError else .ok (List.replicate size.toNat x)

def readAt (v : List F) (i : ℤ) : Except Fault F :=
  if i < 0 then .error .outOfBounds
  else match v[i.toNat]? with
    | none => .error .outOfBounds
    | some x => .ok x

def writeAt (v : List F) (i : ℤ) (x : F) : Except Fault (List F) :=
  if 0 ≤ i ∧ i < v.length then .ok (v.set i.toNat x) else .error .outOfBounds

def copyInto (v data : List F) : Except Fault (List F) :=
  if data.length ≤ v.length then .ok (data ++ v.drop data.length) else .error .outOfBounds

theorem ok_bind {G : Type} (x : F) (next : F → Except Fault G) : Except.ok x >>= next = next x := rfl

theorem checked_fit {r : ℤ} (h : MachineInt.InRange r) : checked (MachineInt.fit r) = .ok r := by
  unfold MachineInt.fit
  rw [if_pos h]
  rfl

open CheckedLoops in
theorem readAt_returns {v : List F} {i : ℤ} (h : 0 ≤ i ∧ i < v.length) : Returns (readAt v i) (fun x => x ∈ v) := by
  unfold readAt
  rw [if_neg (by omega), List.getElem?_eq_getElem (by omega)]
  exact returns_ok (List.getElem_mem _)

open CheckedLoops in
theorem writeAt_returns {v : List F} {i : ℤ} (h : 0 ≤ i ∧ i < v.length) (x : F) :
    Returns (writeAt v i x) (fun w => w.length = v.length) := by
  unfold writeAt
  rw [if_pos h]
  exact returns_ok List.length_set

theorem allocate_natCast (x : F) : allocate n x = .ok (List.ofFn (fun _ : Fin n => x)) := by
  unfold allocate
  rw [if_neg (by omega), Int.toNat_natCast, List.ofFn_const]

theorem readAt_ofFn (f : Fin n → F) (i : Fin n) : readAt (List.ofFn f) (i : ℕ) = .ok (f i) := by
  unfold readAt
  rw [if_neg (by omega), Int.toNat_natCast, List.getElem?_ofFn, dif_pos i.isLt]

theorem set_ofFn (f : Fin n → F) (i : Fin n) (x : F) :
    (List.ofFn f).set i x = List.ofFn (Function.update f i x) := by
  refine List.ext_getElem (by simp) (fun k hk _ => ?_)
  have hkn : k < n := by simpa using hk
  rw [List.getElem_set, List.getElem_ofFn, List.getElem_ofFn]
  by_cases h : (i : ℕ) = k
  · subst h
    rw [if_pos rfl, Function.update_self]
  · rw [if_neg h, Function.update_of_ne]
    intro hki
    exact h (congrArg Fin.val hki).symm

theorem writeAt_ofFn (f : Fin n → F) (i : Fin n) (x : F) :
    writeAt (List.ofFn f) (i : ℕ) x = .ok (List.ofFn (Function.update f i x)) := by
  have hlength : (List.ofFn f).length = n := List.length_ofFn
  unfold writeAt
  rw [if_pos ⟨by omega, by omega⟩, Int.toNat_natCast, set_ofFn]

theorem copyInto_ofFn (f g : Fin n → F) : copyInto (List.ofFn f) (List.ofFn g) = .ok (List.ofFn g) := by
  unfold copyInto
  rw [List.length_ofFn, List.length_ofFn, if_pos le_rfl, List.drop_of_length_le (by rw [List.length_ofFn]),
    List.append_nil]

section Cells

def cells (n : ℕ) (f : ℕ → F) : List F := List.ofFn (fun i : Fin n => f i)

@[simp] theorem length_cells (n : ℕ) (f : ℕ → F) : (cells n f).length = n := List.length_ofFn

theorem cells_congr {f g : ℕ → F} (h : ∀ i < n, f i = g i) : cells n f = cells n g :=
  congrArg List.ofFn (funext (fun i => h i i.isLt))

theorem eq_cells (v : List F) (x : F) : v = cells v.length (fun i => v.getD i x) := by
  refine List.ext_getElem (by simp) (fun i hi _ => ?_)
  simp only [cells, List.getElem_ofFn]
  exact (List.getD_eq_getElem v x hi).symm

theorem readAt_cells (f : ℕ → F) {i : ℕ} (hi : i < n) : readAt (cells n f) i = .ok (f i) :=
  readAt_ofFn (fun i : Fin n => f i) ⟨i, hi⟩

theorem writeAt_cells (f : ℕ → F) {i : ℕ} (hi : i < n) (x : F) :
    writeAt (cells n f) i x = .ok (cells n (Function.update f i x)) := by
  have hupdate : Function.update (fun i : Fin n => f i) ⟨i, hi⟩ x = fun k : Fin n => Function.update f i x k := by
    funext k
    by_cases h : k = ⟨i, hi⟩
    · subst h
      rw [Function.update_self, Function.update_self]
    · rw [Function.update_of_ne h, Function.update_of_ne (fun hk => h (Fin.ext hk))]
  exact (writeAt_ofFn _ ⟨i, hi⟩ x).trans (congrArg (fun f => Except.ok (List.ofFn f)) hupdate)

theorem foldl_overwrite (g : ℕ → Option F) (f : ℕ → F) (count p : ℕ) :
    (List.range count).foldl (fun f j => (g j).elim f (Function.update f j)) f p =
      if p < count then (g p).getD (f p) else f p := by
  induction count generalizing p with
  | zero => rfl
  | succ count ih =>
    rw [List.range_succ, List.foldl_append, List.foldl_cons, List.foldl_nil]
    generalize (List.range count).foldl (fun f j => (g j).elim f (Function.update f j)) f = before at ih ⊢
    have hold := ih p
    by_cases hp : p = count
    · rw [if_neg (by omega)] at hold
      rw [if_pos (by omega), ← hp]
      cases g p with
      | none => exact hold
      | some x => exact Function.update_self ..
    · have hbound : p < count + 1 ↔ p < count := by omega
      have hkeep : (g count).elim before (Function.update before count) p = before p := by
        cases g count with
        | none => rfl
        | some x => exact Function.update_of_ne hp x before
      rw [hkeep, hold]
      simp only [hbound]

theorem foldlM_overwrite {body : List F → ℕ → Except Fault (List F)} (g : ℕ → Option F)
    (h : ∀ f, ∀ j < n, body (cells n f) j = .ok (cells n ((g j).elim f (Function.update f j)))) (f : ℕ → F) :
    (List.range n).foldlM body (cells n f) = .ok (cells n (fun p => (g p).getD (f p))) := by
  rw [CheckedLoops.foldlM_simulates (cells n) (List.range n) (fun f j hj => h f j (List.mem_range.1 hj)) f]
  refine congrArg Except.ok (cells_congr (fun p hp => ?_))
  rw [foldl_overwrite, if_pos hp]

/-- The cells of a vector, with a value behind its end. -/
def padded (x : Fin n → F) (d : F) (i : ℕ) : F := if h : i < n then x ⟨i, h⟩ else d

theorem padded_of_lt (x : Fin n → F) (d : F) {i : ℕ} (h : i < n) : padded x d i = x ⟨i, h⟩ := dif_pos h

theorem ofFn_eq_cells (x : Fin n → F) (d : F) : List.ofFn x = cells n (padded x d) :=
  congrArg List.ofFn (funext (fun i => (padded_of_lt x d i.isLt).symm))

theorem allocate_cells (n : ℕ) (x : F) : allocate n x = .ok (cells n (fun _ => x)) := allocate_natCast x

end Cells

end PyannoteCpp.CheckedVector
