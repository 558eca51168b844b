import Mathlib.Data.Finset.Basic
import Mathlib.Data.List.Nodup
import Mathlib.Tactic

set_option autoImplicit false

/-!
# Merge trees and their cuts

A merge of two clusters at some height becomes a node over their trees. Two
points stay together in the cut of a tree when some subtree with only admitted
heights holds both. A node with a refused height below it separates nothing
further, so merges made after the admitted ones leave the cut alone, whatever
their own heights are.
-/
namespace PyannoteCpp

inductive MergeTree (K P : Type*) where
  | leaf (p : P)
  | node (height : K) (left right : MergeTree K P)

namespace MergeTree

variable {K P : Type*}

def points : MergeTree K P → List P
  | leaf p => [p]
  | node _ l r => l.points ++ r.points

def subtrees : MergeTree K P → List (MergeTree K P)
  | leaf p => [leaf p]
  | node h l r => node h l r :: (l.subtrees ++ r.subtrees)

/-- Every merge in the tree has an admitted height. -/
def Within (admits : K → Prop) : MergeTree K P → Prop
  | leaf _ => True
  | node h l r => admits h ∧ l.Within admits ∧ r.Within admits

def Together (admits : K → Prop) (t : MergeTree K P) (p q : P) : Prop :=
  ∃ s ∈ t.subtrees, s.Within admits ∧ p ∈ s.points ∧ q ∈ s.points

def Joined (admits : K → Prop) (F : List (MergeTree K P)) (p q : P) : Prop :=
  ∃ t ∈ F, t.Together admits p q

@[simp] theorem points_leaf (p : P) : (leaf p : MergeTree K P).points = [p] := rfl
@[simp] theorem points_node (h : K) (l r : MergeTree K P) :
    (node h l r).points = l.points ++ r.points := rfl

theorem self_mem_subtrees (t : MergeTree K P) : t ∈ t.subtrees := by
  cases t <;> simp [subtrees]

theorem points_subtree {s t : MergeTree K P} (h : s ∈ t.subtrees) {p : P} (hp : p ∈ s.points) :
    p ∈ t.points := by
  induction t with
  | leaf a =>
    rw [subtrees, List.mem_singleton] at h
    rwa [← h]
  | node a l r ihl ihr =>
    rw [subtrees, List.mem_cons, List.mem_append] at h
    rw [points_node, List.mem_append]
    rcases h with rfl | h | h
    · rwa [points_node, List.mem_append] at hp
    · exact Or.inl (ihl h)
    · exact Or.inr (ihr h)

variable {admits : K → Prop}

theorem together_within {t : MergeTree K P} (h : t.Within admits) {p q : P} :
    t.Together admits p q ↔ p ∈ t.points ∧ q ∈ t.points := by
  constructor
  · rintro ⟨s, hs, _, hp, hq⟩
    exact ⟨points_subtree hs hp, points_subtree hs hq⟩
  · intro hpq
    exact ⟨t, self_mem_subtrees t, h, hpq⟩

theorem together_node {a : K} {l r : MergeTree K P} (h : ¬ (node a l r).Within admits) {p q : P} :
    (node a l r).Together admits p q ↔ l.Together admits p q ∨ r.Together admits p q := by
  unfold Together
  simp only [subtrees, List.mem_cons, List.mem_append]
  constructor
  · rintro ⟨s, rfl | hs | hs, hw, hpq⟩
    · exact absurd hw h
    · exact Or.inl ⟨s, hs, hw, hpq⟩
    · exact Or.inr ⟨s, hs, hw, hpq⟩
  · rintro (⟨s, hs, hw⟩ | ⟨s, hs, hw⟩)
    · exact ⟨s, Or.inr (Or.inl hs), hw⟩
    · exact ⟨s, Or.inr (Or.inr hs), hw⟩

theorem joined_within {F : List (MergeTree K P)} (h : ∀ t ∈ F, t.Within admits) {p q : P} :
    Joined admits F p q ↔ ∃ t ∈ F, p ∈ t.points ∧ q ∈ t.points := by
  constructor
  · rintro ⟨t, ht, hj⟩
    exact ⟨t, ht, (together_within (h t ht)).1 hj⟩
  · rintro ⟨t, ht, hj⟩
    exact ⟨t, ht, (together_within (h t ht)).2 hj⟩

@[simp] theorem joined_singleton {t : MergeTree K P} {p q : P} :
    Joined admits [t] p q ↔ t.Together admits p q := by
  simp [Joined]

/-- A merge under a refused height leaves the cut of the forest as it was. -/
theorem joined_refused {a : K} {l r : MergeTree K P} (h : ¬ (node a l r).Within admits)
    {F G : List (MergeTree K P)} (hF : ∀ t, t ∈ F ↔ t = l ∨ t = r ∨ t ∈ G)
    {F' : List (MergeTree K P)} (hF' : ∀ t, t ∈ F' ↔ t = node a l r ∨ t ∈ G) {p q : P} :
    Joined admits F' p q ↔ Joined admits F p q := by
  unfold Joined
  simp only [hF, hF']
  constructor
  · rintro ⟨t, rfl | ht, hj⟩
    · rcases (together_node h).1 hj with hj | hj
      · exact ⟨l, Or.inl rfl, hj⟩
      · exact ⟨r, Or.inr (Or.inl rfl), hj⟩
    · exact ⟨t, Or.inr (Or.inr ht), hj⟩
  · rintro ⟨t, rfl | rfl | ht, hj⟩
    · exact ⟨_, Or.inl rfl, (together_node h).2 (Or.inl hj)⟩
    · exact ⟨_, Or.inl rfl, (together_node h).2 (Or.inr hj)⟩
    · exact ⟨t, Or.inr ht, hj⟩

end MergeTree
end PyannoteCpp
