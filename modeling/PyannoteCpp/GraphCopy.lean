import PyannoteCpp.CheckedLoops
import PyannoteCpp.GraphBuild
import PyannoteCpp.HashSetRefinement

set_option autoImplicit false

/-!
# Copying a compute graph

The arrays of nodes and leafs are copied as they are, while use counts and gradients
stand at the slots of the tensors, which differ in the two tables. Every access to an
array is checked.
-/
namespace PyannoteCpp.GraphCopy
open GraphBuild (EvalOrder)
open LinearProbing PrefixGrammar CheckedLoops HashSets

inductive Stop where
  | assertion
  | hashSet (e : HashSets.Stop)
  | outOfBounds
  deriving DecidableEq

/-- `nodes` and `leafs` are the memory behind the pointers; `nNodes` and `nLeafs` of it are in use. -/
structure Cgraph where
  size : ℕ
  nNodes : ℕ
  nLeafs : ℕ
  nodes : List (BitVec 64)
  grads : Option (List (BitVec 64))
  gradAccs : Option (List (BitVec 64))
  leafs : List (BitVec 64)
  useCounts : List (BitVec 32)
  visited : HashSet
  order : EvalOrder

section Checked

variable {α : Type}

def readAt (l : List α) (i : ℕ) : Except Stop α :=
  match l[i]? with
  | some a => .ok a
  | none => .error .outOfBounds

def writeAt (l : List α) (i : ℕ) (a : α) : Except Stop (List α) :=
  if i < l.length then .ok (l.set i a) else .error .outOfBounds

def ggmlAssert (p : Prop) [Decidable p] : Except Stop Unit := if p then .ok () else .error .assertion

def zeroFirst (n : ℕ) (l : List (BitVec 64)) : Except Stop (List (BitVec 64)) :=
  if n ≤ l.length then .ok (List.replicate n 0#64 ++ l.drop n) else .error .outOfBounds

end Checked

section Copy

def copyPointers (n : ℕ) (src dst : List (BitVec 64)) : Except Stop (List (BitVec 64)) :=
  (List.range n).foldlM (fun dst i => do
    let p ← readAt src i
    writeAt dst i p) dst

def copySlot (src : Cgraph) (st : HashSet × List (BitVec 32)) (i : ℕ) : Except Stop (HashSet × List (BitVec 32)) :=
  if ggmlBitsetGet src.visited.used i = true then do
    let key ← readAt src.visited.keys i
    let r ← (ggmlHashInsert st.1 key).mapError Stop.hashSet
    let count ← readAt src.useCounts i
    let counts ← writeAt st.2 r.2 count
    pure (r.1, counts)
  else pure st

def clearGrads (n : ℕ) (grads accs : Option (List (BitVec 64))) :
    Except Stop (Option (List (BitVec 64)) × Option (List (BitVec 64))) :=
  match grads with
  | none => pure (none, accs)
  | some grads => do
    let grads ← zeroFirst n grads
    let accs ← zeroFirst n (accs.getD [])
    pure (some grads, some accs)

def findSlot (visited : HashSet) (t : BitVec 64) : Except Stop ℕ :=
  match ggmlHashFind visited t with
  | some i => .ok i
  | none => .error (.hashSet .noEnd)

def copyGrad (src : Cgraph) (grads accs : List (BitVec 64)) (nodes : List (BitVec 64)) (visited : HashSet)
    (st : List (BitVec 64) × List (BitVec 64)) (i : ℕ) : Except Stop (List (BitVec 64) × List (BitVec 64)) := do
  let nodeSrc ← readAt src.nodes i
  let igradSrc ← findSlot src.visited nodeSrc
  let nodeDst ← readAt nodes i
  let igradDst ← findSlot visited nodeDst
  ggmlAssert (igradSrc ≠ hashsetFull)
  ggmlAssert (ggmlBitsetGet src.visited.used igradSrc = true)
  ggmlAssert (igradDst ≠ hashsetFull)
  ggmlAssert (ggmlBitsetGet visited.used igradDst = true)
  let grad ← readAt grads igradSrc
  let dstGrads ← writeAt st.1 igradDst grad
  let acc ← readAt accs igradSrc
  let dstAccs ← writeAt st.2 igradDst acc
  pure (dstGrads, dstAccs)

def copyGrads (src : Cgraph) (nodes : List (BitVec 64)) (visited : HashSet)
    (cleared : Option (List (BitVec 64)) × Option (List (BitVec 64))) :
    Except Stop (Option (List (BitVec 64)) × Option (List (BitVec 64))) :=
  match src.grads with
  | none => pure cleared
  | some grads =>
    match cleared with
    | (some dstGrads, some dstAccs) => do
      let r ← (List.range src.nNodes).foldlM (copyGrad src grads (src.gradAccs.getD []) nodes visited) (dstGrads, dstAccs)
      pure (some r.1, some r.2)
    | _ => throw .assertion

def ggmlGraphCpy (src dst : Cgraph) : Except Stop Cgraph := do
  ggmlAssert (src.nLeafs ≤ dst.size)
  ggmlAssert (src.nNodes ≤ dst.size)
  ggmlAssert (src.visited.size ≤ dst.visited.size)
  let leafs ← copyPointers src.nLeafs src.leafs dst.leafs
  let nodes ← copyPointers src.nNodes src.nodes dst.nodes
  let slots ← (List.range src.visited.size).foldlM (copySlot src) (dst.visited, dst.useCounts)
  let cleared ← clearGrads slots.1.size dst.grads dst.gradAccs
  let grads ← copyGrads src nodes slots.1 cleared
  pure { dst with
    nNodes := src.nNodes, nLeafs := src.nLeafs, order := src.order, nodes := nodes, leafs := leafs,
    visited := slots.1, useCounts := slots.2, grads := grads.1, gradAccs := grads.2 }

end Copy

/-- A graph or a slice of one: the arrays have room for what is in use, and every used slot is the place of its key. -/
structure WellFormed (g : Cgraph) : Prop where
  nodes : g.size ≤ g.nodes.length ∧ g.nNodes ≤ g.nodes.length
  leafs : g.size ≤ g.leafs.length ∧ g.nLeafs ≤ g.leafs.length
  useCounts : g.useCounts.length = g.visited.size
  placed : Placed g.visited.table ggmlHash
  grads : ∀ l ∈ g.grads, l.length = g.visited.size
  gradAccs : ∀ l ∈ g.gradAccs, l.length = g.visited.size
  paired : g.grads.isSome = g.gradAccs.isSome

def slotValue {α : Type} (visited : HashSet) (l : List α) (t : BitVec 64) : Option α :=
  (ggmlHashFind visited t).bind fun i => l[i]?

structure Copied (src dst : Cgraph) : Prop where
  nodes : dst.nNodes = src.nNodes ∧ dst.nodes.take dst.nNodes = src.nodes.take src.nNodes
  leafs : dst.nLeafs = src.nLeafs ∧ dst.leafs.take dst.nLeafs = src.leafs.take src.nLeafs
  order : dst.order = src.order
  visited : src.visited.members ⊆ dst.visited.members
  useCounts : ∀ t ∈ src.visited.members, ∃ count, slotValue src.visited src.useCounts t = some count ∧
    slotValue dst.visited dst.useCounts t = some count
  grads : ∀ grads ∈ src.grads, ∀ accs ∈ src.gradAccs, ∃ dstGrads ∈ dst.grads, ∃ dstAccs ∈ dst.gradAccs,
    ∀ t ∈ src.nodes.take src.nNodes, ∃ grad acc,
      slotValue src.visited grads t = some grad ∧ slotValue dst.visited dstGrads t = some grad ∧
      slotValue src.visited accs t = some acc ∧ slotValue dst.visited dstAccs t = some acc

section Arrays

variable {α : Type} {l : List α} {i : ℕ} {a : α}

theorem readAt_ok : readAt l i = .ok a ↔ l[i]? = some a := by
  unfold readAt
  cases l[i]? with
  | none => exact iff_of_false nofun nofun
  | some b => exact ⟨fun h => congrArg some (Except.ok.inj h), fun h => congrArg Except.ok (Option.some.inj h)⟩

theorem writeAt_ok {l' : List α} : writeAt l i a = .ok l' ↔ i < l.length ∧ l' = l.set i a := by
  unfold writeAt
  split
  · exact ⟨fun h => ⟨‹_›, (Except.ok.inj h).symm⟩, fun h => congrArg Except.ok h.2.symm⟩
  · exact iff_of_false nofun fun h => absurd h.1 ‹_›

theorem ggmlAssert_ok {p : Prop} [Decidable p] {u : Unit} : ggmlAssert p = .ok u ↔ p := by
  unfold ggmlAssert
  split
  · exact iff_of_true rfl ‹_›
  · exact iff_of_false nofun ‹_›

theorem copyPointers_ok {n : ℕ} {src dst : List (BitVec 64)} (hsrc : n ≤ src.length) (hdst : n ≤ dst.length) :
    ∃ out, copyPointers n src dst = .ok out ∧ out.length = dst.length ∧ out.take n = src.take n := by
  induction n with
  | zero => exact ⟨dst, rfl, rfl, rfl⟩
  | succ n ih =>
    obtain ⟨out, hrun, hlength, htake⟩ := ih (by omega) (by omega)
    have hlt : n < src.length := hsrc
    refine ⟨out.set n src[n], ?_, by rw [List.length_set, hlength], ?_⟩
    · unfold copyPointers at hrun ⊢
      rw [List.range_succ, List.foldlM_append]
      refine except_bind_ok.mpr ⟨out, hrun, ?_⟩
      rw [List.foldlM_cons]
      refine except_bind_ok.mpr ⟨out.set n src[n], ?_, rfl⟩
      exact except_bind_ok.mpr ⟨src[n], readAt_ok.mpr (List.getElem?_eq_getElem hlt), writeAt_ok.mpr ⟨by omega, rfl⟩⟩
    · rw [List.take_succ_eq_append_getElem hlt, List.take_succ_eq_append_getElem (by rw [List.length_set]; omega),
        List.getElem_set_self, List.take_set_of_le (Nat.le_refl n), htake]

end Arrays

end PyannoteCpp.GraphCopy
