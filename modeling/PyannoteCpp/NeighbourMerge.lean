import Mathlib.Data.List.SplitBy
import Mathlib.Tactic

set_option autoImplicit false

/-!
# Merging each entry into the last one emitted

One pass over a list joins an entry into the last emitted one when a relation
allows it, and emits it otherwise. As long as what the relation sees of the
emitted entry is what it saw of the last entry joined, the pass is a split of
the list into chains of the relation, each folded into one entry.
-/
namespace PyannoteCpp.NeighbourMerge

variable {α β : Type*} (r : α → α → Bool) (join : α → α → α)

def mergeFrom : α → List α → List α
  | last, [] => [last]
  | last, curr :: rest =>
    if r last curr then mergeFrom (join last curr) rest else last :: mergeFrom curr rest

def merge : List α → List α
  | [] => []
  | first :: rest => mergeFrom r join first rest

variable [Inhabited α]

def hull : List α → α
  | [] => default
  | first :: rest => rest.foldl join first

theorem hull_snoc {g : List α} (hg : g ≠ []) (a : α) :
    hull join (g ++ [a]) = join (hull join g) a := by
  cases g with
  | nil => exact absurd rfl hg
  | cons first rest => simp [hull]

variable {r join} {tail : α → β}

/-- Joining `b` to anything that looks like `a` looks like `b`. -/
def Tracks (r : α → α → Bool) (join : α → α → α) (tail : α → β) (a b : α) : Prop :=
  ∀ c, tail c = tail a → r a b = true → tail (join c b) = tail b

theorem mergeFrom_hull (sees : ∀ a b c, tail a = tail b → r a c = r b c) {g rest : List α}
    (hg : g ≠ []) (chain : g.IsChain (fun a b => r a b = true))
    (look : tail (hull join g) = tail (g.getLast hg))
    (tracks : (g.getLast hg :: rest).IsChain (Tracks r join tail)) :
    mergeFrom r join (hull join g) rest = ((g ++ rest).splitBy r).map (hull join) := by
  induction rest generalizing g with
  | nil => rw [mergeFrom, List.append_nil, List.splitBy_of_isChain hg chain, List.map_singleton]
  | cons curr rest ih =>
    rw [List.isChain_cons_cons] at tracks
    rw [mergeFrom, sees _ _ curr look]
    by_cases h : r (g.getLast hg) curr = true
    · have grown : g ++ [curr] ≠ [] := by simp
      have chain' : (g ++ [curr]).IsChain (fun a b => r a b = true) := by
        apply chain.append (List.isChain_singleton curr)
        intro a ha b hb
        rw [List.getLast?_eq_some_getLast hg, Option.mem_some_iff] at ha
        rw [List.head?_cons, Option.mem_some_iff] at hb
        rw [← ha, ← hb]
        exact h
      rw [if_pos h, ← hull_snoc join hg curr, ih grown chain']
      · rw [List.append_assoc, List.singleton_append]
      · rw [hull_snoc join hg curr, List.getLast_concat]
        exact tracks.1 _ look h
      · rw [List.getLast_concat]
        exact tracks.2
    · have cut : ∀ x ∈ g.getLast?, ∀ y ∈ (curr :: rest).head?, r x y = false := by
        intro x hx y hy
        rw [List.getLast?_eq_some_getLast hg, Option.mem_some_iff] at hx
        rw [List.head?_cons, Option.mem_some_iff] at hy
        rw [← hx, ← hy]
        simpa using h
      have next := ih (g := [curr]) (by simp) (List.isChain_singleton curr) rfl tracks.2
      rw [if_neg h, List.splitBy_append cut, List.splitBy_of_isChain hg chain, List.map_append,
        List.map_singleton, List.singleton_append]
      exact congrArg _ next

theorem merge_eq (sees : ∀ a b c, tail a = tail b → r a c = r b c) {l : List α}
    (tracks : l.IsChain (Tracks r join tail)) :
    merge r join l = (l.splitBy r).map (hull join) := by
  cases l with
  | nil => rfl
  | cons first rest =>
    exact mergeFrom_hull (g := [first]) sees (by simp) (List.isChain_singleton first) rfl tracks

theorem tail_hull {g : List α} (hg : g ≠ []) (chain : g.IsChain (fun a b => r a b = true))
    (tracks : g.IsChain (Tracks r join tail)) : tail (hull join g) = tail (g.getLast hg) := by
  induction g using List.reverseRecOn with
  | nil => exact absurd rfl hg
  | append_singleton g a ih =>
    by_cases he : g = []
    · subst g
      rfl
    · have upper := ih he chain.left_of_append tracks.left_of_append
      rw [List.isChain_append] at chain tracks
      have last : g.getLast he ∈ g.getLast? := by
        rw [List.getLast?_eq_some_getLast he]
        rfl
      rw [hull_snoc join he, List.getLast_concat]
      exact tracks.2.2 _ last a rfl _ upper (chain.2.2 _ last a rfl)

omit [Inhabited α]

/-- Cuts after `a` and before `b` put the stretch between them into groups of its own. -/
theorem splitBy_around {a b : α} (pre post : List α) {mid : List α} (hmid : mid ≠ [])
    (left : ∀ c ∈ mid, r a c = false) (right : ∀ c ∈ mid, r c b = false) :
    ∃ P g M k Q, (pre ++ a :: (mid ++ b :: post)).splitBy r = P ++ g :: (M ++ k :: Q) ∧
      g.getLast? = some a ∧ k.head? = some b ∧ M.flatten = mid := by
  have cutLeft : ∀ x ∈ (pre ++ [a]).getLast?, ∀ y ∈ (mid ++ b :: post).head?, r x y = false := by
    intro x hx y hy
    rw [List.getLast?_concat, Option.mem_some_iff] at hx
    rw [List.head?_append_of_ne_nil _ hmid] at hy
    rw [← hx]
    exact left y (List.mem_of_mem_head? hy)
  have cutRight : ∀ x ∈ mid.getLast?, ∀ y ∈ (b :: post).head?, r x y = false := by
    intro x hx y hy
    rw [List.head?_cons, Option.mem_some_iff] at hy
    rw [← hy]
    exact right x (List.mem_of_getLast? hx)
  have hpre : (pre ++ [a]).splitBy r ≠ [] := List.splitBy_ne_nil.2 (by simp)
  have hpost : (b :: post).splitBy r ≠ [] := List.splitBy_ne_nil.2 (by simp)
  refine ⟨((pre ++ [a]).splitBy r).dropLast, ((pre ++ [a]).splitBy r).getLast hpre,
    mid.splitBy r, ((b :: post).splitBy r).head hpost, ((b :: post).splitBy r).tail, ?_, ?_, ?_,
    List.flatten_splitBy r mid⟩
  · calc (pre ++ a :: (mid ++ b :: post)).splitBy r
        = ((pre ++ [a]) ++ (mid ++ b :: post)).splitBy r := by
          rw [List.append_assoc, List.singleton_append]
      _ = (pre ++ [a]).splitBy r ++ (mid.splitBy r ++ (b :: post).splitBy r) := by
          rw [List.splitBy_append cutLeft, List.splitBy_append cutRight]
      _ = (((pre ++ [a]).splitBy r).dropLast ++ [((pre ++ [a]).splitBy r).getLast hpre]) ++ _ := by
          rw [List.dropLast_append_getLast]
      _ = _ := by rw [List.append_assoc, List.singleton_append, List.cons_head_tail]
  · rw [List.getLast?_eq_some_getLast (List.ne_nil_of_mem_splitBy (List.getLast_mem hpre)),
      List.getLast_getLast_splitBy r (by simp), List.getLast_concat]
  · rw [List.head?_eq_some_head (List.ne_nil_of_mem_splitBy (List.head_mem hpost)),
      List.head_head_splitBy r (by simp), List.head_cons]

/-- Two groups of a split stand around the groups between them, and are cut when there is none. -/
theorem splitBy_groups {l g k : List α} {P M Q : List (List α)}
    (h : l.splitBy r = P ++ g :: (M ++ k :: Q)) : ∃ (hg : g ≠ []) (hk : k ≠ []),
      (∃ pre post, l = pre ++ g.getLast hg :: (M.flatten ++ k.head hk :: post)) ∧
      (M.flatten = [] → r (g.getLast hg) (k.head hk) = false) := by
  have hg : g ≠ [] := List.ne_nil_of_mem_splitBy (r := r) (l := l) (by rw [h]; simp)
  have hk : k ≠ [] := List.ne_nil_of_mem_splitBy (r := r) (l := l) (by rw [h]; simp)
  refine ⟨hg, hk, ⟨P.flatten ++ g.dropLast, k.tail ++ Q.flatten, ?_⟩, fun hM => ?_⟩
  · have parts : l = (P ++ g :: (M ++ k :: Q)).flatten := by
      rw [← h, List.flatten_splitBy]
    calc l = P.flatten ++ (g ++ (M.flatten ++ (k ++ Q.flatten))) := by
          rw [parts, List.flatten_append, List.flatten_cons, List.flatten_append, List.flatten_cons]
      _ = P.flatten ++ ((g.dropLast ++ [g.getLast hg]) ++
            (M.flatten ++ ((k.head hk :: k.tail) ++ Q.flatten))) := by
          rw [List.dropLast_append_getLast, List.cons_head_tail]
      _ = _ := by simp only [List.append_assoc, List.cons_append, List.nil_append]
  · have noGroup : M = [] := by
      cases M with
      | nil => rfl
      | cons m M =>
        have hm : m ≠ [] := List.ne_nil_of_mem_splitBy (r := r) (l := l) (by rw [h]; simp)
        rw [List.flatten_cons, List.append_eq_nil_iff] at hM
        exact absurd hM.1 hm
    have cuts := List.isChain_getLast_head_splitBy r l
    rw [h, noGroup, List.nil_append, List.isChain_append] at cuts
    obtain ⟨_, _, cut⟩ := (List.isChain_cons_cons.1 cuts.2.1).1
    exact cut

end PyannoteCpp.NeighbourMerge
