import Mathlib.Algebra.BigOperators.Group.List.Basic
import Mathlib.Tactic

set_option autoImplicit false

/-!
# Accumulating a list of credits into cells

A credit adds its amount to one cell. Whatever the order of the credits, a
cell ends with what it held plus the amounts credited to it.
-/
namespace PyannoteCpp.ScatterAdd

variable {Cell M : Type*} [DecidableEq Cell] [AddCommMonoid M]

def scatter (credits : List (Cell × M)) (f : Cell → M) : Cell → M :=
  credits.foldl (fun f p => Function.update f p.1 (f p.1 + p.2)) f

def received (credits : List (Cell × M)) (c : Cell) : List M :=
  (credits.filter (fun p => p.1 = c)).map Prod.snd

theorem scatter_apply (credits : List (Cell × M)) (f : Cell → M) (c : Cell) :
    scatter credits f c = f c + (received credits c).sum := by
  induction credits generalizing f with
  | nil => simp [scatter, received]
  | cons p credits ih =>
    change scatter credits (Function.update f p.1 (f p.1 + p.2)) c = _
    rw [ih]
    by_cases h : p.1 = c
    · subst c
      rw [Function.update_self, received, received, List.filter_cons_of_pos (by simp),
        List.map_cons, List.sum_cons, add_assoc]
    · rw [Function.update_of_ne (Ne.symm h), received, received, List.filter_cons_of_neg (by simpa)]

omit [AddCommMonoid M] in
theorem received_flatMap {ι : Type*} (l : List ι) (f : ι → List (Cell × M)) (c : Cell) :
    received (l.flatMap f) c = l.flatMap (fun i => received (f i) c) := by
  induction l with
  | nil => rfl
  | cons i l ih =>
    rw [List.flatMap_cons, List.flatMap_cons, ← ih]
    simp [received]

omit [AddCommMonoid M] in
theorem scatter_ones {K : Type*} [Semiring K] (credits : List (Cell × M)) (c : Cell) :
    scatter (credits.map (fun p => (p.1, (1 : K)))) 0 c = ((received credits c).length : K) := by
  rw [scatter_apply, Pi.zero_apply, zero_add]
  induction credits with
  | nil => simp [received]
  | cons p credits ih =>
    by_cases h : p.1 = c
    · simp only [received, List.map_cons] at ih ⊢
      rw [List.filter_cons_of_pos (by simpa), List.filter_cons_of_pos (by simpa), List.map_cons,
        List.map_cons, List.sum_cons, ih, List.length_cons, Nat.cast_succ, add_comm]
    · simp only [received, List.map_cons] at ih ⊢
      rw [List.filter_cons_of_neg (by simpa), List.filter_cons_of_neg (by simpa), ih]

theorem flatMap_single {ι α : Type*} [DecidableEq ι] {l : List ι} (hl : l.Nodup) (f : ι → List α)
    (i : ι) (h : ∀ j ∈ l, j ≠ i → f j = []) : l.flatMap f = if i ∈ l then f i else [] := by
  induction l with
  | nil => rfl
  | cons a l ih =>
    obtain ⟨ha, hl⟩ := List.nodup_cons.1 hl
    have tail := ih hl (fun j hj => h j (List.mem_cons_of_mem _ hj))
    rw [List.flatMap_cons, tail]
    by_cases hai : a = i
    · subst i
      rw [if_neg ha, if_pos List.mem_cons_self, List.append_nil]
    · rw [h a List.mem_cons_self hai, List.nil_append]
      simp [Ne.symm hai]

end PyannoteCpp.ScatterAdd
