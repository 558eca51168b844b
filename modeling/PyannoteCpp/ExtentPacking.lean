import Mathlib.Tactic
import Mathlib.Order.Interval.Set.Disjoint
import Mathlib.Order.CompletePartialOrder

set_option autoImplicit false

/-!
# Packings of half-open intervals

A list of intervals is packed when no point lies in two of its entries. The
order of the list does not count, an interval may be cut in two or glued to its
neighbour, and an empty interval may come and go. An allocator needs no more.
-/
namespace PyannoteCpp

structure Extent where
  offset : ℕ
  size : ℕ
  deriving DecidableEq

namespace Extent

def stop (r : Extent) : ℕ := r.offset + r.size

def points (r : Extent) : Set ℕ := Set.Ico r.offset r.stop

def hits (r : Extent) (x : ℕ) : ℕ := if r.offset ≤ x ∧ x < r.offset + r.size then 1 else 0

def cover (l : List Extent) (x : ℕ) : ℕ := (l.map (fun r => hits r x)).sum

def Packed (l : List Extent) : Prop := ∀ x, cover l x ≤ 1

variable {l m : List Extent} {r s : Extent}

theorem cover_cons (r : Extent) (l : List Extent) (x : ℕ) : cover (r :: l) x = hits r x + cover l x := by
  simp only [cover, List.map_cons, List.sum_cons]

theorem cover_append (l m : List Extent) (x : ℕ) : cover (l ++ m) x = cover l x + cover m x := by
  simp only [cover, List.map_append, List.sum_append]

theorem cover_perm (h : l.Perm m) (x : ℕ) : cover l x = cover m x := (h.map _).sum_eq

theorem hits_of_mem {x : ℕ} (h : x ∈ r.points) : hits r x = 1 := if_pos h

theorem hits_split (a n k x : ℕ) : hits ⟨a, n + k⟩ x = hits ⟨a, n⟩ x + hits ⟨a + n, k⟩ x := by
  simp only [hits]
  split_ifs <;> omega

theorem packed_singleton (r : Extent) : Packed [r] := fun x => by
  rw [cover_cons]
  unfold hits cover
  split_ifs <;> simp

theorem Packed.perm (hl : Packed l) (h : l.Perm m) : Packed m := fun x => by
  rw [← cover_perm h]
  exact hl x

theorem Packed.tail (h : Packed (r :: l)) : Packed l := fun x => by
  have hx := h x
  rw [cover_cons] at hx
  omega

theorem packed_split (a n k : ℕ) : Packed (⟨a, n + k⟩ :: l) ↔ Packed (⟨a, n⟩ :: ⟨a + n, k⟩ :: l) := by
  unfold Packed
  simp only [cover_cons, hits_split, Nat.add_assoc]

theorem Packed.glue {a n b k : ℕ} (h : Packed (⟨a, n⟩ :: ⟨b, k⟩ :: l)) (hb : a + n = b) :
    Packed (⟨a, n + k⟩ :: l) := by
  subst hb
  exact (packed_split a n k).2 h

theorem Packed.disjoint (h : Packed (r :: s :: l)) : Disjoint r.points s.points := by
  apply Set.disjoint_left.2
  intro x hr hs
  have hx := h x
  rw [cover_cons, cover_cons, hits_of_mem hr, hits_of_mem hs] at hx
  omega

theorem Packed.disjoint_of_mem (h : Packed (r :: l)) (hs : s ∈ l) : Disjoint r.points s.points :=
  (h.perm ((List.perm_cons_erase hs).cons r)).disjoint

theorem Packed.pairwise (h : Packed l) : l.Pairwise (fun r s => Disjoint r.points s.points) := by
  induction l with
  | nil => exact List.Pairwise.nil
  | cons r l ih => exact List.pairwise_cons.2 ⟨fun s hs => h.disjoint_of_mem hs, ih h.tail⟩

theorem Packed.disjoint_append (h : Packed (l ++ m)) (hr : r ∈ l) (hs : s ∈ m) : Disjoint r.points s.points :=
  (List.pairwise_append.1 h.pairwise).2.2 r hr s hs

theorem Packed.right (h : Packed (l ++ m)) : Packed m := by
  intro x
  have hx := h x
  rw [cover_append] at hx
  omega

end Extent

end PyannoteCpp
