import PyannoteCpp.GraphAllocator
import PyannoteCpp.LinearProbing
import PyannoteCpp.CheckedLoops

set_option autoImplicit false

/-!
# Building a compute graph

A tensor is visited after its sources and becomes a leaf or a node. The visited
tensors are in a hash set, and the number of uses of a tensor stands at its
slot. Tensors are numbers with addresses.
-/
namespace PyannoteCpp.GraphBuild

open Gallocr (GgmlOp)
open LinearProbing PrefixGrammar CheckedLoops

inductive EvalOrder where
  | leftToRight | rightToLeft | count
  deriving DecidableEq

structure Tensor where
  op : GgmlOp
  param : Bool
  src : List ℕ
  addr : ℕ

structure Cgraph where
  size : ℕ
  nodes : List ℕ
  leafs : List ℕ
  useCounts : ℕ → ℕ
  visited : Table ℕ
  order : EvalOrder
  names : ℕ → String

inductive BuildAbort where
  | depth
  | hashFull
  | leafs
  | nodes
  | lastNode
  deriving DecidableEq

variable (tensor : ℕ → Tensor)

/-- The last four bits of an address are zero. -/
def ggmlHash (t : ℕ) : ℕ := (tensor t).addr / 16

def ggmlHashFind (table : Table ℕ) (t : ℕ) : Option ℕ := find table (ggmlHash tensor) t

def sourcesOf (order : EvalOrder) (t : ℕ) : List ℕ :=
  match order with
  | .rightToLeft => (tensor t).src.reverse
  | .leftToRight | .count => (tensor t).src

def isLeaf (t : ℕ) : Bool := (tensor t).op = .none && !(tensor t).param

def setName (names : ℕ → String) (t : ℕ) (name : String) : ℕ → String :=
  if (names t).length = 0 then Function.update names t name else names

def markVisited (g : Cgraph) (pos t : ℕ) : Cgraph :=
  { g with visited := put g.visited pos t, useCounts := Function.update g.useCounts pos 0 }

def countUse (g : Cgraph) (pos : ℕ) : Cgraph :=
  { g with useCounts := Function.update g.useCounts pos (g.useCounts pos + 1) }

def addLeaf (g : Cgraph) (t : ℕ) : Cgraph :=
  { g with names := setName g.names t ("leaf_" ++ toString g.leafs.length), leafs := g.leafs ++ [t] }

def addNode (g : Cgraph) (t : ℕ) : Cgraph :=
  { g with names := setName g.names t ("node_" ++ toString g.nodes.length), nodes := g.nodes ++ [t] }

def placeTensor (g : Cgraph) (t : ℕ) : Except BuildAbort Cgraph :=
  if isLeaf tensor t then if g.leafs.length < g.size then .ok (addLeaf g t) else .error .leafs
  else if g.nodes.length < g.size then .ok (addNode g t) else .error .nodes

def visitSource (visit : Cgraph → ℕ → Except BuildAbort (Cgraph × ℕ)) (g : Cgraph) (src : ℕ) :
    Except BuildAbort Cgraph :=
  match visit g src with
  | .error e => .error e
  | .ok (g, pos) => .ok (countUse g pos)

/-- The recursion marks a slot of the table in every call, so its depth is bounded by the free slots. -/
def ggmlVisitParents : ℕ → Cgraph → ℕ → Except BuildAbort (Cgraph × ℕ)
  | 0, _, _ => .error .depth
  | fuel + 1, g, node =>
    match ggmlHashFind tensor g.visited node with
    | none => .error .hashFull
    | some pos =>
      if g.visited.used pos then .ok (g, pos)
      else
        match (sourcesOf tensor g.order node).foldlM (visitSource (ggmlVisitParents fuel)) (markVisited g pos node) with
        | .error e => .error e
        | .ok g =>
          match placeTensor tensor g node with
          | .error e => .error e
          | .ok g => .ok (g, pos)

def ggmlBuildForwardExpand (g : Cgraph) (t : ℕ) : Except BuildAbort Cgraph :=
  match ggmlVisitParents tensor ((free g.visited).card + 1) g t with
  | .error e => .error e
  | .ok (g', _) =>
    if g.nodes.length < g'.nodes.length ∧ g'.nodes.getLast? ≠ some t then .error .lastNode else .ok g'

def buildForward (g : Cgraph) (roots : List ℕ) : Except BuildAbort Cgraph :=
  roots.foldlM (ggmlBuildForwardExpand tensor) g

def ggmlNodeGetUseCount (g : Cgraph) (i : ℕ) : Option ℕ :=
  match g.nodes[i]? with
  | none => none
  | some t =>
    match ggmlHashFind tensor g.visited t with
    | none => none
    | some pos => if g.visited.used pos then some (g.useCounts pos) else some 0

/-- A graph that is new, or cleared. The keys and counts of its table mean nothing yet. -/
def Fresh (g : Cgraph) : Prop := g.nodes = [] ∧ g.leafs = [] ∧ ∀ i, g.visited.used i = false

/-! The depth of the recursion is enough for every graph. -/

variable {tensor} {g g' : Cgraph} {t pos : ℕ}

theorem free_mark (hfind : ggmlHashFind tensor g.visited t = some pos) (hfree : g.visited.used pos = false) :
    (free (markVisited g pos t).visited).card + 1 = (free g.visited).card :=
  free_put (find_lt hfind) hfree

theorem placeTensor_visited (h : placeTensor tensor g t = .ok g') : g'.visited = g.visited := by
  unfold placeTensor at h
  split at h <;> split at h <;> cases h <;> rfl

theorem visitSource_ok {visit : Cgraph → ℕ → Except BuildAbort (Cgraph × ℕ)} (h : visitSource visit g t = .ok g') :
    ∃ g₁ pos, visit g t = .ok (g₁, pos) ∧ g' = countUse g₁ pos := by
  unfold visitSource at h
  cases hv : visit g t with
  | error e => rw [hv] at h; cases h
  | ok r =>
    rw [hv] at h
    cases h
    exact ⟨r.1, r.2, rfl, rfl⟩

theorem visitParents_ok {fuel : ℕ} (h : ggmlVisitParents tensor (fuel + 1) g t = .ok (g', pos)) :
    ggmlHashFind tensor g.visited t = some pos ∧
      ((g.visited.used pos = true ∧ g' = g) ∨
        (g.visited.used pos = false ∧ ∃ g₁,
          (sourcesOf tensor g.order t).foldlM (visitSource (ggmlVisitParents tensor fuel)) (markVisited g pos t) =
            .ok g₁ ∧ placeTensor tensor g₁ t = .ok g')) := by
  unfold ggmlVisitParents at h
  cases hfind : ggmlHashFind tensor g.visited t with
  | none => rw [hfind] at h; cases h
  | some p =>
    simp only [hfind] at h
    cases hused : g.visited.used p with
    | true =>
      rw [hused] at h
      cases h
      exact ⟨rfl, .inl ⟨hused, rfl⟩⟩
    | false =>
      rw [hused] at h
      simp only [Bool.false_eq_true, if_false] at h
      cases hloop : (sourcesOf tensor g.order t).foldlM (visitSource (ggmlVisitParents tensor fuel))
          (markVisited g p t) with
      | error e => rw [hloop] at h; cases h
      | ok g₁ =>
        simp only [hloop] at h
        cases hplace : placeTensor tensor g₁ t with
        | error e => rw [hplace] at h; cases h
        | ok g₂ =>
          rw [hplace] at h
          cases h
          exact ⟨rfl, .inr ⟨hused, g₁, hloop, hplace⟩⟩

theorem sources_free {fuel : ℕ} {srcs : List ℕ}
    (hvisit : ∀ g t g' pos, ggmlVisitParents tensor fuel g t = .ok (g', pos) →
      (free g'.visited).card ≤ (free g.visited).card)
    (h : srcs.foldlM (visitSource (ggmlVisitParents tensor fuel)) g = .ok g') :
    (free g'.visited).card ≤ (free g.visited).card := by
  refine foldlM_steps (I := fun _ u => (free u.visited).card ≤ (free g.visited).card) ?_ (Nat.le_refl _) h
  intro s rest u u' hu hs
  obtain ⟨g₁, pos, hv, rfl⟩ := visitSource_ok hs
  exact (hvisit u s g₁ pos hv).trans hu

theorem visitParents_free {fuel : ℕ} (h : ggmlVisitParents tensor fuel g t = .ok (g', pos)) :
    (free g'.visited).card ≤ (free g.visited).card := by
  induction fuel generalizing g t g' pos with
  | zero => cases h
  | succ fuel ih =>
    obtain ⟨hfind, ⟨-, rfl⟩ | ⟨hfree, g₁, hloop, hplace⟩⟩ := visitParents_ok h
    · exact Nat.le_refl _
    · have hmark := free_mark hfind hfree
      have hsources := sources_free (fun g t g' pos => ih) hloop
      rw [placeTensor_visited hplace]
      omega

theorem visitParents_depth {fuel : ℕ} (hfuel : (free g.visited).card < fuel) :
    ggmlVisitParents tensor fuel g t ≠ .error .depth := by
  induction fuel generalizing g t with
  | zero => omega
  | succ fuel ih =>
    intro h
    unfold ggmlVisitParents at h
    cases hfind : ggmlHashFind tensor g.visited t with
    | none => rw [hfind] at h; cases h
    | some p =>
      simp only [hfind] at h
      cases hused : g.visited.used p with
      | true => rw [hused] at h; cases h
      | false =>
        rw [hused] at h
        simp only [Bool.false_eq_true, if_false] at h
        have hmark := free_mark hfind hused
        cases hloop : (sourcesOf tensor g.order t).foldlM (visitSource (ggmlVisitParents tensor fuel))
            (markVisited g p t) with
        | error e =>
          rw [hloop] at h
          cases h
          obtain ⟨i, s, u, -, hu, hs⟩ := foldlM_error_iff.1 hloop
          have hle := sources_free (fun _ _ _ _ => visitParents_free) hu
          refine ih (g := u) (t := s) (by omega) ?_
          unfold visitSource at hs
          cases hv : ggmlVisitParents tensor fuel u s with
          | error e => rw [hv] at hs; cases hs; rfl
          | ok r => rw [hv] at hs; cases hs
        | ok g₁ =>
          simp only [hloop] at h
          cases hplace : placeTensor tensor g₁ t with
          | error e =>
            rw [hplace] at h
            cases h
            unfold placeTensor at hplace
            split at hplace <;> split at hplace <;> cases hplace
          | ok g₂ => rw [hplace] at h; cases h

/-- No sequence of calls runs out of depth. -/
theorem buildForward_depth {roots : List ℕ} : buildForward tensor g roots ≠ .error .depth := by
  intro h
  obtain ⟨i, root, u, -, -, hstop⟩ := foldlM_error_iff.1 h
  unfold ggmlBuildForwardExpand at hstop
  cases hv : ggmlVisitParents tensor ((free u.visited).card + 1) u root with
  | error e =>
    rw [hv] at hstop
    cases hstop
    exact visitParents_depth (Nat.lt_succ_self _) hv
  | ok r =>
    simp only [hv] at hstop
    split at hstop <;> cases hstop

end PyannoteCpp.GraphBuild
