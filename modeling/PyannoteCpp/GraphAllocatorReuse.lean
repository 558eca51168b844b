import PyannoteCpp.GraphAllocatorOutputs
import Mathlib.Data.List.ReduceOption

set_option autoImplicit false

/-!
# Plans that are used again

An allocator keeps the plan of the last graph. A graph that has as many nodes
and leafs, and whose tensors fit where the plan has them, gets the old
addresses. How its tensors depend on each other is not compared.
-/
namespace PyannoteCpp.Gallocr

open Tallocr PrefixGrammar CheckedLoops

/-- A graph with the slots that the sources of a tensor are in. -/
structure SlottedGraph extends Cgraph where
  slots : ℕ → List (Option ℕ)
  src_slots : ∀ t, (tensor t).src = (slots t).reduceOption

/-- The plan of the last graph, by the position of its nodes and leafs and the slot of their sources. -/
structure GgmlGallocr where
  nodeAllocs : List (TensorAlloc × List TensorAlloc)
  leafAllocs : List TensorAlloc
  deriving DecidableEq

abbrev Placement := ℕ → Option TensorAlloc

def gallocrNew : GgmlGallocr := ⟨[], []⟩

def unusedAlloc : TensorAlloc := ⟨-1, none, 0⟩

variable (buffers : Buffers)

section source

variable (g : SlottedGraph)

def nodeAlloc (s : GallocrState) (node : ℕ) : TensorAlloc × List TensorAlloc :=
  (tensorAlloc buffers g.toCgraph s node,
    (g.slots node).map (fun src => src.elim unusedAlloc (tensorAlloc buffers g.toCgraph s)))

def storedPlan (s : GallocrState) : GgmlGallocr :=
  ⟨g.nodes.map (nodeAlloc buffers g s), g.leafs.map (tensorAlloc buffers g.toCgraph s)⟩

/-- The tables stay as they are now, also when the backend does not give the buffers. -/
def gallocrReserve (nodeBufferIds leafBufferIds : ℕ → ℤ) : Except GallocrAbort GgmlGallocr := do
  let (s, _) ← gallocrReserveN buffers g.toCgraph nodeBufferIds leafBufferIds
  .ok (storedPlan buffers g s)

def allocSizeAt (bufferId : ℤ) (t : ℕ) : ℕ :=
  ((buffers.bufts[bufferId.toNat]?).map (fun buft => buffers.allocSize buft t)).getD 0

/-- Says that the tensor fits, like the function it is named after. -/
def gallocrNodeNeedsRealloc (t : ℕ) (talloc : TensorAlloc) : Bool :=
  if (g.tensor t).data.isNone ∧ (g.tensor t).viewSrc.isNone then
    if talloc.bufferId < 0 then false else allocSizeAt buffers talloc.bufferId t ≤ talloc.sizeMax
  else true

def sourceSlots (node : ℕ) (allocs : List TensorAlloc) : List (ℕ × TensorAlloc) :=
  (g.slots node).zipIdx.filterMap (fun p => p.1.map (fun src => (src, allocs.getD p.2 unusedAlloc)))

def gallocrNeedsRealloc (galloc : GgmlGallocr) : Bool :=
  galloc.nodeAllocs.length ≠ g.nodes.length || galloc.leafAllocs.length ≠ g.leafs.length ||
    (g.nodes.zip galloc.nodeAllocs).any (fun p => !gallocrNodeNeedsRealloc buffers g p.1 p.2.1 ||
      (sourceSlots g p.1 p.2.2).any (fun q => !gallocrNodeNeedsRealloc buffers g q.1 q.2))

/-- A tensor that has an address keeps it. The extent of a tensor is what the backend asks for it. -/
def gallocrInitTensor (place : Placement) (p : ℕ × TensorAlloc) : Placement :=
  if (g.tensor p.1).viewSrc.isSome then place
  else if (g.tensor p.1).data.isSome ∨ (place p.1).isSome then place
  else Function.update place p.1 (some ⟨p.2.bufferId, p.2.addr, allocSizeAt buffers p.2.bufferId p.1⟩)

/-- The tensors in the order in which they get their addresses: the leafs, then each node after its sources. -/
def initOrder (galloc : GgmlGallocr) : List (ℕ × TensorAlloc) :=
  g.leafs.zip galloc.leafAllocs ++
    (g.nodes.zip galloc.nodeAllocs).flatMap (fun p => sourceSlots g p.1 p.2.2 ++ [(p.1, p.2.1)])

def placements (galloc : GgmlGallocr) : Placement :=
  (initOrder g galloc).foldl (gallocrInitTensor buffers g) (fun _ => none)

/-- No result stands for the return value `false`. -/
def gallocrAllocGraph (galloc : GgmlGallocr) : Except GallocrAbort (Option (GgmlGallocr × Placement)) :=
  if gallocrNeedsRealloc buffers g galloc then
    if buffers.bufts.length = 1 then do
      let galloc ← gallocrReserve buffers g (fun _ => 0) (fun _ => 0)
      .ok (some (galloc, placements buffers g galloc))
    else .ok none
  else .ok (some (galloc, placements buffers g galloc))

end source

inductive Call where
  | reserve (g : SlottedGraph) (nodeBufferIds leafBufferIds : ℕ → ℤ)
  | allocGraph (g : SlottedGraph)

/-- An allocator, the graph it planned last, and the graphs that were given addresses. -/
structure Session where
  galloc : GgmlGallocr
  planned : Option SlottedGraph
  given : List (SlottedGraph × Placement)

def newSession : Session := ⟨gallocrNew, none, []⟩

def Session.call (session : Session) : Call → Except GallocrAbort Session
  | .reserve g nodeBufferIds leafBufferIds =>
    (gallocrReserve buffers g nodeBufferIds leafBufferIds).map (fun galloc => ⟨galloc, some g, session.given⟩)
  | .allocGraph g =>
    (gallocrAllocGraph buffers g session.galloc).map (fun r => r.elim session (fun (galloc, place) =>
      ⟨galloc, if gallocrNeedsRealloc buffers g session.galloc then some g else session.planned,
        session.given ++ [(g, place)]⟩))

def Session.run (session : Session) (calls : List Call) : Except GallocrAbort Session :=
  calls.foldlM (Session.call buffers) session

variable {buffers} {g g' : SlottedGraph} {φ : ℕ → ℕ} {s : GallocrState} {galloc : GgmlGallocr} {place : Placement}
  {node t : ℕ}

def Placement.bytes (buffers : Buffers) (place : Placement) (t : ℕ) : Set (ℕ × ℕ × ℕ) :=
  {x | ∃ a, place t = some a ∧ x ∈ a.bytes buffers}

/-- The node works in place, in the range of a source of its layout that no later node reads. -/
def StandsIn (graph : Cgraph) (place : Placement) (i node t : ℕ) : Prop :=
  ggmlOpCanInplace (graph.tensor node).op = true ∧ t ∈ (graph.tensor node).src ∧
    ggmlAreSameLayout (graph.tensor node) (graph.tensor t) = true ∧
    (∃ a b, place node = some a ∧ place t = some b ∧ a.bufferId = b.bufferId ∧ a.addr = b.addr ∧
      a.sizeMax ≤ b.sizeMax) ∧
    ∀ k reader, i < k → graph.nodes[k]? = some reader → ¬Reads graph reader t

/-- No node is written onto a tensor that is still to be read. -/
def LiveRangeSafe (buffers : Buffers) (graph : Cgraph) (place : Placement) : Prop :=
  ∀ i k node reader t, graph.nodes[i]? = some node → Plain graph node → Plain graph t → t ≠ node →
    Early graph t ∨ t ∈ graph.nodes.take i → graph.nodes[k]? = some reader → i ≤ k → Reads graph reader t →
    Disjoint (place.bytes buffers node) (place.bytes buffers t) ∨ StandsIn graph place i node t

/-- The graph is the other one with other names. Its leafs are no larger, and a node has the layout of a source
wherever it had. -/
structure Renames (buffers : Buffers) (φ : ℕ → ℕ) (g g' : SlottedGraph) : Prop where
  injective : Function.Injective φ
  nodes : g'.nodes = g.nodes.map φ
  leafs : g'.leafs = g.leafs.map φ
  slots : ∀ node ∈ g.nodes, g'.slots (φ node) = (g.slots node).map (Option.map φ)
  views : ∀ t, InGraph g.toCgraph t → (g'.tensor (φ t)).viewSrc = (g.tensor t).viewSrc.map φ
  plain : ∀ t, InGraph g.toCgraph t → Plain g.toCgraph t → Plain g'.toCgraph (φ t)
  input : ∀ t, InGraph g.toCgraph t → (g.tensor t).input = true → (g'.tensor (φ t)).input = true
  op : ∀ node ∈ g.nodes, (g'.tensor (φ node)).op = (g.tensor node).op
  layout : ∀ node ∈ g.nodes, ∀ src ∈ (g.tensor node).src,
    ggmlAreSameLayout (g'.tensor (φ node)) (g'.tensor (φ src)) = true →
    ggmlAreSameLayout (g.tensor node) (g.tensor src) = true ∧ ∀ bufferId,
      allocSizeAt buffers bufferId (φ node) ≤ allocSizeAt buffers bufferId (φ src) →
      allocSizeAt buffers bufferId node ≤ allocSizeAt buffers bufferId src
  leafSize : ∀ leaf ∈ g.leafs, leaf ∉ readsOf g.toCgraph g.nodes → ∀ bufferId,
    allocSizeAt buffers bufferId leaf ≤ allocSizeAt buffers bufferId (φ leaf)

def SameTopology (buffers : Buffers) (g g' : SlottedGraph) : Prop := ∃ φ, Renames buffers φ g g'

theorem Renames.refl (g : SlottedGraph) : Renames buffers id g g := by
  refine ⟨Function.injective_id, by simp, by simp, by simp, by simp, fun _ _ h => h, fun _ _ h => h, fun _ _ => rfl, ?_, ?_⟩
  · intro node _ src _ h
    exact ⟨h, fun _ hle => hle⟩
  · intro leaf _ _ bufferId
    exact Nat.le_refl _

theorem zip_map_self {α β : Type} (l : List α) (f : α → β) : l.zip (l.map f) = l.map (fun x => (x, f x)) := by
  rw [List.map_prod_left_eq_zip]

theorem mem_sourceSlots (hr : Renames buffers φ g g') (hnode : node ∈ g.nodes) {p : ℕ × TensorAlloc} :
    p ∈ sourceSlots g node (nodeAlloc buffers g' s (φ node)).2 ↔
      p.1 ∈ (g.tensor node).src ∧ p.2 = tensorAlloc buffers g'.toCgraph s (φ p.1) := by
  have hget : ∀ (j src : ℕ), (g.slots node)[j]? = some (some src) →
      (nodeAlloc buffers g' s (φ node)).2.getD j unusedAlloc = tensorAlloc buffers g'.toCgraph s (φ src) := by
    intro j src hj
    unfold nodeAlloc
    rw [hr.slots node hnode, List.getD_eq_getElem?_getD, List.getElem?_map, List.getElem?_map, hj]
    rfl
  unfold sourceSlots
  rw [g.src_slots, List.mem_filterMap, List.reduceOption_mem_iff]
  constructor
  · rintro ⟨⟨slot, j⟩, hmem, hp⟩
    have hj := List.mem_zipIdx_iff_getElem?.1 hmem
    obtain ⟨src, rfl, rfl⟩ := Option.map_eq_some_iff.1 hp
    exact ⟨List.mem_of_getElem? hj, hget j src hj⟩
  · rintro ⟨hmem, hp⟩
    obtain ⟨j, hj⟩ := List.mem_iff_getElem?.1 hmem
    refine ⟨(some p.1, j), List.mem_zipIdx_iff_getElem?.2 hj, ?_⟩
    change some (p.1, (nodeAlloc buffers g' s (φ node)).2.getD j unusedAlloc) = some p
    rw [hget j p.1 hj, ← hp]

theorem Renames.src (hr : Renames buffers φ g g') (hnode : node ∈ g.nodes) :
    (g'.tensor (φ node)).src = (g.tensor node).src.map φ := by
  rw [g'.src_slots, hr.slots node hnode, List.reduceOption_map, g.src_slots]

theorem storedNodes (hr : Renames buffers φ g g') :
    g.nodes.zip (storedPlan buffers g' s).nodeAllocs = g.nodes.map (fun node => (node, nodeAlloc buffers g' s (φ node))) := by
  change g.nodes.zip (g'.nodes.map (nodeAlloc buffers g' s)) = _
  rw [hr.nodes, List.map_map, zip_map_self]
  rfl

theorem storedLeafs (hr : Renames buffers φ g g') :
    g.leafs.zip (storedPlan buffers g' s).leafAllocs =
      g.leafs.map (fun leaf => (leaf, tensorAlloc buffers g'.toCgraph s (φ leaf))) := by
  change g.leafs.zip (g'.leafs.map (tensorAlloc buffers g'.toCgraph s)) = _
  rw [hr.leafs, List.map_map, zip_map_self]
  rfl

theorem mem_initOrder (hr : Renames buffers φ g g') {p : ℕ × TensorAlloc} :
    p ∈ initOrder g (storedPlan buffers g' s) ↔
      InGraph g.toCgraph p.1 ∧ p.2 = tensorAlloc buffers g'.toCgraph s (φ p.1) := by
  unfold initOrder
  rw [storedNodes hr, storedLeafs hr, List.mem_append, List.mem_map, List.mem_flatMap]
  constructor
  · rintro (⟨leaf, hleaf, rfl⟩ | ⟨q, hq, hp⟩)
    · exact ⟨.inr (.inl hleaf), rfl⟩
    · obtain ⟨node, hnode, rfl⟩ := List.mem_map.1 hq
      rcases List.mem_append.1 hp with hsrc | hlast
      · obtain ⟨hmem, hplace⟩ := (mem_sourceSlots hr hnode).1 hsrc
        exact ⟨.inr (.inr ⟨node, hnode, hmem⟩), hplace⟩
      · rw [List.mem_singleton.1 hlast]
        exact ⟨.inl hnode, rfl⟩
  · rintro ⟨hnode | hleaf | ⟨node, hnode, hsrc⟩, hp⟩
    · right
      refine ⟨_, List.mem_map.2 ⟨p.1, hnode, rfl⟩, List.mem_append_right _ (List.mem_singleton.2 ?_)⟩
      exact Prod.ext rfl hp
    · left
      exact ⟨p.1, hleaf, Prod.ext rfl hp.symm⟩
    · right
      exact ⟨_, List.mem_map.2 ⟨node, hnode, rfl⟩,
        List.mem_append_left _ ((mem_sourceSlots hr hnode).2 ⟨hsrc, hp⟩)⟩

/-- What a tensor gets when a place in a plan is its own. -/
def givenAlloc (buffers : Buffers) (t : ℕ) (a : TensorAlloc) : TensorAlloc :=
  ⟨a.bufferId, a.addr, allocSizeAt buffers a.bufferId t⟩

theorem initTensors_get {a : TensorAlloc} {pairs : List (ℕ × TensorAlloc)} (hplain : Plain g.toCgraph t)
    (hpairs : ∀ p ∈ pairs, p.1 = t → p.2 = a)
    (hplace : place t = some (givenAlloc buffers t a) ∨ place t = none ∧ t ∈ pairs.map Prod.fst) :
    (pairs.foldl (gallocrInitTensor buffers g) place) t = some (givenAlloc buffers t a) := by
  induction pairs generalizing place with
  | nil => exact hplace.resolve_right (fun h => nomatch h.2)
  | cons p pairs ih =>
    rw [List.foldl_cons]
    apply ih (fun q hq => hpairs q (List.mem_cons_of_mem _ hq))
    by_cases hp : p.1 = t
    · left
      subst hp
      have hfst := hpairs p List.mem_cons_self rfl
      unfold gallocrInitTensor
      rw [if_neg (by simp [hplain.1])]
      rcases hplace with hold | ⟨hnone, -⟩
      · rw [if_pos (.inr (by simp [hold]))]
        exact hold
      · rw [if_neg (by simp [hplain.2.1, hnone]), Function.update_self, hfst]
        rfl
    · have hsame : gallocrInitTensor buffers g place p t = place t := by
        unfold gallocrInitTensor
        split_ifs
        · rfl
        · rfl
        · exact Function.update_of_ne (Ne.symm hp) _ _
      rw [hsame]
      exact hplace.imp_right fun ⟨hnone, hmem⟩ => ⟨hnone, (List.mem_cons.1 hmem).resolve_left (Ne.symm hp)⟩

theorem placements_get (hr : Renames buffers φ g g') (hin : InGraph g.toCgraph t) (hplain : Plain g.toCgraph t) :
    placements buffers g (storedPlan buffers g' s) t =
      some (givenAlloc buffers t (tensorAlloc buffers g'.toCgraph s (φ t))) := by
  apply initTensors_get hplain
  · intro p hp heq
    rw [((mem_initOrder hr).1 hp).2, heq]
  · right
    have hmem := (mem_initOrder hr (s := s) (p := (t, tensorAlloc buffers g'.toCgraph s (φ t)))).2 ⟨hin, rfl⟩
    exact ⟨rfl, List.mem_map_of_mem hmem⟩

theorem tensorAlloc_size (hplain : Plain g.toCgraph t) : (tensorAlloc buffers g.toCgraph s t).sizeMax =
    allocSizeAt buffers (tensorAlloc buffers g.toCgraph s t).bufferId t := by
  rw [tensorAlloc_plain hplain]
  rfl

/-- A graph that passes the test fits where the plan has it, its leafs apart. -/
theorem fits_of_test (hr : Renames buffers φ g g')
    (htest : gallocrNeedsRealloc buffers g (storedPlan buffers g' s) = false) (hin : InGraph g.toCgraph t)
    (hplain : Plain g.toCgraph t) :
    allocSizeAt buffers (tensorAlloc buffers g'.toCgraph s (φ t)).bufferId t ≤
      (tensorAlloc buffers g'.toCgraph s (φ t)).sizeMax := by
  have hplain' := hr.plain t hin hplain
  have hone : gallocrNodeNeedsRealloc buffers g t (tensorAlloc buffers g'.toCgraph s (φ t)) = true →
      allocSizeAt buffers (tensorAlloc buffers g'.toCgraph s (φ t)).bufferId t ≤
        (tensorAlloc buffers g'.toCgraph s (φ t)).sizeMax := by
    intro h
    unfold gallocrNodeNeedsRealloc at h
    rw [if_pos ⟨by simp [hplain.2.1], by simp [hplain.1]⟩] at h
    split_ifs at h with hneg
    · exact of_decide_eq_true h
  unfold gallocrNeedsRealloc at htest
  rw [Bool.or_eq_false_iff, storedNodes hr, List.any_eq_false] at htest
  have hall : ∀ node ∈ g.nodes,
      gallocrNodeNeedsRealloc buffers g node (tensorAlloc buffers g'.toCgraph s (φ node)) = true ∧
        ∀ src ∈ (g.tensor node).src,
          gallocrNodeNeedsRealloc buffers g src (tensorAlloc buffers g'.toCgraph s (φ src)) = true := by
    intro node hnode
    have hrow := htest.2 _ (List.mem_map_of_mem hnode)
    rw [Bool.not_eq_true, Bool.or_eq_false_iff, List.any_eq_false] at hrow
    have hdst : gallocrNodeNeedsRealloc buffers g node (nodeAlloc buffers g' s (φ node)).1 = true := by
      simpa using hrow.1
    refine ⟨hdst, fun src hsrc => ?_⟩
    have hslot := hrow.2 (src, tensorAlloc buffers g'.toCgraph s (φ src)) ((mem_sourceSlots hr hnode).2 ⟨hsrc, rfl⟩)
    simpa using hslot
  rcases hin with hnode | hleaf | ⟨node, hnode, hsrc⟩
  · exact hone (hall t hnode).1
  · by_cases hread : t ∈ readsOf g.toCgraph g.nodes
    · obtain ⟨node, hnode, hsrc⟩ := List.mem_flatMap.1 hread
      exact hone ((hall node hnode).2 t hsrc)
    · rw [tensorAlloc_size hplain']
      exact hr.leafSize t hleaf hread _
  · exact hone ((hall node hnode).2 t hsrc)

/-- What plans ask of a graph: sizes without overflow, no tensor in place of itself, sources first. -/
structure Fits (buffers : Buffers) (graph : Cgraph) : Prop where
  sizes : Sizes buffers graph
  self : NoSelfReuse graph
  regular : Regular graph

theorem inGraph_of_reached (h : Early g.toCgraph t ∨ t ∈ g.nodes) :
    InGraph g.toCgraph t := by
  rcases h with (hleaf | ⟨-, hnode | hread⟩) | hnode
  · exact .inr (.inl hleaf)
  · exact .inl hnode
  · obtain ⟨node, hnode, hsrc⟩ := List.mem_flatMap.1 hread
    exact .inr (.inr ⟨node, hnode, hsrc⟩)
  · exact .inl hnode

theorem Renames.early (hr : Renames buffers φ g g') (h : Early g.toCgraph t) : Early g'.toCgraph (φ t) := by
  have hin := inGraph_of_reached (.inl h)
  rcases h with hleaf | ⟨hinput, hmem⟩
  · left
    rw [hr.leafs]
    exact List.mem_map_of_mem hleaf
  · refine .inr ⟨hr.input t hin hinput, ?_⟩
    rw [hr.nodes]
    rcases hmem with hnode | hread
    · exact .inl (List.mem_map_of_mem hnode)
    · right
      obtain ⟨node, hnode, hsrc⟩ := List.mem_flatMap.1 hread
      refine List.mem_flatMap.2 ⟨φ node, List.mem_map_of_mem hnode, ?_⟩
      rw [hr.src hnode]
      exact List.mem_map_of_mem hsrc

theorem Renames.reads (hr : Renames buffers φ g g') (hnode : node ∈ g.nodes) (h : Reads g.toCgraph node t) :
    Reads g'.toCgraph (φ node) (φ t) := by
  obtain ⟨src, hsrc, heq⟩ := h
  refine ⟨φ src, by rw [hr.src hnode]; exact List.mem_map_of_mem hsrc, ?_⟩
  rcases heq with rfl | hview
  · exact .inl rfl
  · right
    rw [hr.views src (.inr (.inr ⟨node, hnode, hsrc⟩)), hview]
    rfl

theorem Renames.getElem (hr : Renames buffers φ g g') {i : ℕ} (h : g.nodes[i]? = some node) :
    g'.nodes[i]? = some (φ node) := by
  rw [hr.nodes, List.getElem?_map, h]
  rfl

theorem placed_bytes (hr : Renames buffers φ g g') (hin : InGraph g.toCgraph t) (hplain : Plain g.toCgraph t)
    (hsize : allocSizeAt buffers (tensorAlloc buffers g'.toCgraph s (φ t)).bufferId t ≤
      (tensorAlloc buffers g'.toCgraph s (φ t)).sizeMax) :
    (placements buffers g (storedPlan buffers g' s)).bytes buffers t ⊆
      (tensorAlloc buffers g'.toCgraph s (φ t)).bytes buffers := by
  rintro x ⟨a, ha, addr, haddr, hbuft, hchunk, hlow, hhigh⟩
  rw [placements_get hr hin hplain] at ha
  obtain rfl := Option.some.inj ha
  exact ⟨addr, haddr, hbuft, hchunk, hlow, hhigh.trans_le (Nat.add_le_add_left hsize _)⟩

/-- The plan of a graph is safe for the graph itself and for the graph under other names. -/
theorem stored_live_range_safe {nodeBufferIds leafBufferIds : ℕ → ℤ} {plan : GallocrPlan}
    (hfits : Fits buffers g'.toCgraph)
    (hplan : gallocrReserveN buffers g'.toCgraph nodeBufferIds leafBufferIds = .ok (s, plan))
    (hr : Renames buffers φ g g')
    (hsize : ∀ t, InGraph g.toCgraph t → Plain g.toCgraph t →
      allocSizeAt buffers (tensorAlloc buffers g'.toCgraph s (φ t)).bufferId t ≤
        (tensorAlloc buffers g'.toCgraph s (φ t)).sizeMax) :
    LiveRangeSafe buffers g.toCgraph (placements buffers g (storedPlan buffers g' s)) := by
  intro i k node reader t hi hnode ht hne halive hk hle hread
  have hmem := List.mem_of_getElem? hi
  have hmemk := List.mem_of_getElem? hk
  have hint : InGraph g.toCgraph t := inGraph_of_reached (halive.imp_right List.mem_of_mem_take)
  have halive' : Early g'.toCgraph (φ t) ∨ φ t ∈ g'.nodes.take i := by
    refine halive.imp hr.early (fun htake => ?_)
    rw [hr.nodes, ← List.map_take]
    exact List.mem_map_of_mem htake
  have hsafe := written_apart hfits.sizes hfits.self hfits.regular hplan (hr.getElem hi)
    (hr.plain node (.inl hmem) hnode) (hr.plain t hint ht) (fun he => hne (hr.injective he)) halive'
    (at_or_behind (hr.getElem hi) (hr.getElem hk) hle) (hr.reads hmemk hread)
  rcases hsafe with hdisjoint | ⟨hop, hsrc, hlayout, hid, haddr, hfit, hlater⟩
  · left
    exact Set.disjoint_of_subset (placed_bytes hr (.inl hmem) hnode (hsize node (.inl hmem) hnode))
      (placed_bytes hr hint ht (hsize t hint ht)) hdisjoint
  · right
    rw [hr.src hmem] at hsrc
    have hsrc := (List.mem_map_of_injective hr.injective).1 hsrc
    obtain ⟨hlayout', hsizes⟩ := hr.layout node hmem t hsrc hlayout
    refine ⟨hr.op node hmem ▸ hop, hsrc, hlayout', ⟨_, _, placements_get hr (.inl hmem) hnode,
      placements_get hr hint ht, hid, haddr, ?_⟩, ?_⟩
    · rw [tensorAlloc_size (hr.plain node (.inl hmem) hnode), tensorAlloc_size (hr.plain t hint ht), hid] at hfit
      change allocSizeAt buffers (tensorAlloc buffers g'.toCgraph s (φ node)).bufferId node ≤
        allocSizeAt buffers (tensorAlloc buffers g'.toCgraph s (φ t)).bufferId t
      rw [hid]
      exact hsizes _ hfit
    · intro j later hj hget hlate
      exact hlater j (φ later) hj (hr.getElem hget) (hr.reads (List.mem_of_getElem? hget) hlate)

/-! Runs. -/

/-- A graph that is planned is fit for it, and one that gets old addresses is the planned one under other names. -/
def Meets (buffers : Buffers) (session : Session) : Call → Prop
  | .reserve g _ _ => Fits buffers g.toCgraph
  | .allocGraph g =>
    if gallocrNeedsRealloc buffers g session.galloc then Fits buffers g.toCgraph
    else ∀ g', session.planned = some g' → SameTopology buffers g g'

theorem meets_allocGraph {session : Session} : Meets buffers session (.allocGraph g) ↔
    if gallocrNeedsRealloc buffers g session.galloc then Fits buffers g.toCgraph
    else ∀ g', session.planned = some g' → SameTopology buffers g g' := Iff.rfl

def Allowed (buffers : Buffers) : List Call → Session → Prop
  | [], _ => True
  | c :: calls, session =>
    Meets buffers session c ∧ ∀ session', session.call buffers c = .ok session' → Allowed buffers calls session'

/-- The tables are the plan of the graph that was planned last. -/
def PlanOf (buffers : Buffers) (galloc : GgmlGallocr) (g : SlottedGraph) : Prop :=
  Fits buffers g.toCgraph ∧ ∃ nodeBufferIds leafBufferIds s plan,
    gallocrReserveN buffers g.toCgraph nodeBufferIds leafBufferIds = .ok (s, plan) ∧ galloc = storedPlan buffers g s

structure Consistent (buffers : Buffers) (session : Session) : Prop where
  empty : session.planned = none → session.galloc = gallocrNew
  planned : ∀ g, session.planned = some g → PlanOf buffers session.galloc g
  given : ∀ p ∈ session.given, LiveRangeSafe buffers p.1.toCgraph p.2

theorem reserve_planOf {nodeBufferIds leafBufferIds : ℕ → ℤ} (hfits : Fits buffers g.toCgraph)
    (h : gallocrReserve buffers g nodeBufferIds leafBufferIds = .ok galloc) : PlanOf buffers galloc g := by
  unfold gallocrReserve at h
  obtain ⟨⟨s, plan⟩, hplan, h⟩ := except_bind_ok.1 h
  cases h
  exact ⟨hfits, _, _, s, plan, hplan, rfl⟩

theorem reserved_live_range_safe (h : PlanOf buffers galloc g) :
    LiveRangeSafe buffers g.toCgraph (placements buffers g galloc) := by
  obtain ⟨hfits, _, _, s, plan, hplan, rfl⟩ := h
  apply stored_live_range_safe hfits hplan (Renames.refl g)
  intro t _ hplain
  rw [id_eq, tensorAlloc_size hplain]

theorem reused_live_range_safe (h : PlanOf buffers galloc g') (hsame : SameTopology buffers g g')
    (htest : gallocrNeedsRealloc buffers g galloc = false) :
    LiveRangeSafe buffers g.toCgraph (placements buffers g galloc) := by
  obtain ⟨hfits, _, _, s, plan, hplan, rfl⟩ := h
  obtain ⟨φ, hr⟩ := hsame
  exact stored_live_range_safe hfits hplan hr (fun t hin hplain => fits_of_test hr htest hin hplain)

theorem unplanned_live_range_safe (htest : gallocrNeedsRealloc buffers g gallocrNew = false) :
    LiveRangeSafe buffers g.toCgraph place := by
  unfold gallocrNeedsRealloc at htest
  rw [Bool.or_eq_false_iff, Bool.or_eq_false_iff] at htest
  have hnone : g.nodes = [] := by
    have hlength : 0 = g.nodes.length := not_not.1 (of_decide_eq_false htest.1.1)
    exact List.length_eq_zero_iff.1 hlength.symm
  intro i k node reader t hi
  rw [hnone] at hi
  simp at hi

theorem Consistent.start : Consistent buffers newSession := by
  refine ⟨fun _ => rfl, ?_, ?_⟩
  · intro g hg
    cases hg
  · intro p hp
    cases hp

theorem Consistent.given_append {session : Session} (h : Consistent buffers session)
    (hsafe : LiveRangeSafe buffers g.toCgraph place) :
    ∀ p ∈ session.given ++ [(g, place)], LiveRangeSafe buffers p.1.toCgraph p.2 := by
  intro p hp
  rcases List.mem_append.1 hp with hold | hlast
  · exact h.given p hold
  · rw [List.mem_singleton.1 hlast]
    exact hsafe

/-- A graph is refused, planned anew, or given the old addresses. -/
theorem call_allocGraph {session session' : Session} (hm : session.call buffers (.allocGraph g) = .ok session') :
    session' = session ∨
    (gallocrNeedsRealloc buffers g session.galloc = true ∧
      ∃ galloc, gallocrReserve buffers g (fun _ => 0) (fun _ => 0) = .ok galloc ∧
        session' = ⟨galloc, some g, session.given ++ [(g, placements buffers g galloc)]⟩) ∨
    gallocrNeedsRealloc buffers g session.galloc = false ∧
      session' = ⟨session.galloc, session.planned, session.given ++ [(g, placements buffers g session.galloc)]⟩ := by
  obtain ⟨r, hr, rfl⟩ := except_map_ok.1 hm
  unfold gallocrAllocGraph at hr
  by_cases htest : gallocrNeedsRealloc buffers g session.galloc = true
  · rw [if_pos htest] at hr
    split_ifs at hr with hsingle
    · obtain ⟨galloc, hgalloc, hr⟩ := except_bind_ok.1 hr
      cases hr
      refine .inr (.inl ⟨htest, galloc, hgalloc, ?_⟩)
      change (⟨galloc, if _ then _ else _, _⟩ : Session) = _
      rw [if_pos htest]
    · cases hr
      exact .inl rfl
  · rw [if_neg htest] at hr
    cases hr
    refine .inr (.inr ⟨by simpa using htest, ?_⟩)
    change (⟨session.galloc, if _ then _ else _, _⟩ : Session) = _
    rw [if_neg htest]

theorem Consistent.call {session session' : Session} {c : Call} (h : Consistent buffers session)
    (hmeets : Meets buffers session c) (hm : session.call buffers c = .ok session') : Consistent buffers session' := by
  cases c with
  | reserve g nodeBufferIds leafBufferIds =>
    obtain ⟨galloc, hgalloc, rfl⟩ := except_map_ok.1 hm
    have hplan := reserve_planOf hmeets hgalloc
    refine ⟨?_, ?_, h.given⟩
    · intro hnone
      cases hnone
    · intro g' hg'
      cases hg'
      exact hplan
  | allocGraph g =>
    rw [meets_allocGraph] at hmeets
    rcases call_allocGraph hm with rfl | ⟨htest, galloc, hgalloc, rfl⟩ | ⟨htest, rfl⟩
    · exact h
    · rw [if_pos htest] at hmeets
      have hplan := reserve_planOf hmeets hgalloc
      refine ⟨?_, ?_, h.given_append (reserved_live_range_safe hplan)⟩
      · intro hnone
        cases hnone
      · intro g' hg'
        cases hg'
        exact hplan
    · rw [if_neg (by rw [htest]; decide)] at hmeets
      refine ⟨h.empty, h.planned, h.given_append ?_⟩
      cases hplanned : session.planned with
      | none =>
        rw [h.empty hplanned] at htest
        exact unplanned_live_range_safe htest
      | some g' => exact reused_live_range_safe (h.planned g' hplanned) (hmeets g' hplanned) htest

theorem Consistent.run {calls : List Call} {session session' : Session} (h : Consistent buffers session)
    (hallowed : Allowed buffers calls session)
    (hm : session.run buffers calls = .ok session') : Consistent buffers session' := by
  induction calls generalizing session with
  | nil =>
    cases hm
    exact h
  | cons c calls ih =>
    unfold Session.run at hm
    rw [List.foldlM_cons] at hm
    obtain ⟨u, hu, hm⟩ := except_bind_ok.1 hm
    exact ih (h.call hallowed.1 hu) (hallowed.2 u hu) hm

/-- The addresses that graphs are given in a run are safe for them, as long as only a graph of the topology that was
planned gets old addresses. -/
theorem run_live_range_safe {calls : List Call} {session : Session} (hallowed : Allowed buffers calls newSession)
    (hm : newSession.run buffers calls = .ok session) :
    ∀ p ∈ session.given, LiveRangeSafe buffers p.1.toCgraph p.2 :=
  (Consistent.start.run hallowed hm).given

def fullSlots (graph : Cgraph) : SlottedGraph where
  toCgraph := graph
  slots t := (graph.tensor t).src.map some
  src_slots t := by
    simp [List.reduceOption]

theorem scaledProduct_fits : Fits (smallBuffers fun _ => 32) scaledProduct :=
  ⟨scaledProduct_sizes, fun t _ _ _ => (scaledProduct_tensor t).2.2, scaledProduct_regular⟩

def scaledTwice : List Call := [.allocGraph (fullSlots scaledProduct), .allocGraph (fullSlots scaledProduct)]

/-- The second time the graph gets the addresses of the first time. -/
theorem run_live_range_safe_twice : ∃ session, newSession.run (smallBuffers fun _ => 32) scaledTwice = .ok session ∧
    session.given.length = 2 ∧
    ∀ p ∈ session.given, LiveRangeSafe (smallBuffers fun _ => 32) p.1.toCgraph p.2 := by
  have hnew : gallocrNeedsRealloc (smallBuffers fun _ => 32) (fullSlots scaledProduct) newSession.galloc = true := by
    decide
  have hallowed : Allowed (smallBuffers fun _ => 32) scaledTwice newSession := by
    refine ⟨?_, fun session hfirst => ⟨?_, fun _ _ => trivial⟩⟩
    · rw [meets_allocGraph, if_pos hnew]
      exact scaledProduct_fits
    · rw [meets_allocGraph]
      split_ifs with htest
      · exact scaledProduct_fits
      · intro g' hg'
        rcases call_allocGraph hfirst with rfl | ⟨-, galloc, -, rfl⟩ | ⟨-, rfl⟩
        · cases hg'
        · cases hg'
          exact ⟨id, Renames.refl _⟩
        · cases hg'
  have hlength : (newSession.run (smallBuffers fun _ => 32) scaledTwice).map (fun session => session.given.length) =
      .ok 2 := by decide +kernel
  obtain ⟨session, hm, hgiven⟩ := except_map_ok.1 hlength
  exact ⟨session, hm, hgiven, run_live_range_safe hallowed hm⟩

def productChain (last : List ℕ) : SlottedGraph :=
  fullSlots (smallGraph [smallTensor .none [], smallTensor .mulMat [0, 0], smallTensor .mulMat [1, 0],
    smallTensor .mulMat last] [1, 2, 3] [0])

/-- The last product of the second graph reads the first one, and is planned onto it: in the first graph it is free
by then. -/
theorem old_addresses_overwrite : ∃ galloc place place',
    gallocrAllocGraph (smallBuffers fun _ => 32) (productChain [2, 0]) gallocrNew = .ok (some (galloc, place)) ∧
    gallocrNeedsRealloc (smallBuffers fun _ => 32) (productChain [2, 1]) galloc = false ∧
    gallocrAllocGraph (smallBuffers fun _ => 32) (productChain [2, 1]) galloc = .ok (some (galloc, place')) ∧
    ¬LiveRangeSafe (smallBuffers fun _ => 32) (productChain [2, 1]).toCgraph place' := by
  have hreserve : gallocrReserve (smallBuffers fun _ => 32) (productChain [2, 0]) (fun _ => 0) (fun _ => 0) = .ok
      ⟨[(⟨0, some ⟨0, 32⟩, 32⟩, [⟨0, some ⟨0, 0⟩, 32⟩, ⟨0, some ⟨0, 0⟩, 32⟩]),
        (⟨0, some ⟨0, 64⟩, 32⟩, [⟨0, some ⟨0, 32⟩, 32⟩, ⟨0, some ⟨0, 0⟩, 32⟩]),
        (⟨0, some ⟨0, 32⟩, 32⟩, [⟨0, some ⟨0, 64⟩, 32⟩, ⟨0, some ⟨0, 0⟩, 32⟩])],
        [⟨0, some ⟨0, 0⟩, 32⟩]⟩ := by decide +kernel
  generalize hgalloc : (⟨[(⟨0, some ⟨0, 32⟩, 32⟩, [⟨0, some ⟨0, 0⟩, 32⟩, ⟨0, some ⟨0, 0⟩, 32⟩]),
        (⟨0, some ⟨0, 64⟩, 32⟩, [⟨0, some ⟨0, 32⟩, 32⟩, ⟨0, some ⟨0, 0⟩, 32⟩]),
        (⟨0, some ⟨0, 32⟩, 32⟩, [⟨0, some ⟨0, 64⟩, 32⟩, ⟨0, some ⟨0, 0⟩, 32⟩])],
        [⟨0, some ⟨0, 0⟩, 32⟩]⟩ : GgmlGallocr) = galloc at hreserve
  have htest : gallocrNeedsRealloc (smallBuffers fun _ => 32) (productChain [2, 1]) galloc = false := by
    rw [← hgalloc]
    decide +kernel
  have hplaced : ∀ t ∈ [1, 3], placements (smallBuffers fun _ => 32) (productChain [2, 1]) galloc t =
      some ⟨0, some ⟨0, 32⟩, 32⟩ := by
    rw [← hgalloc]
    decide +kernel
  refine ⟨galloc, placements (smallBuffers fun _ => 32) (productChain [2, 0]) galloc,
    placements (smallBuffers fun _ => 32) (productChain [2, 1]) galloc, ?_, htest, ?_, fun hsafe => ?_⟩
  · unfold gallocrAllocGraph
    rw [if_pos (by decide), if_pos (by decide), hreserve]
    rfl
  · unfold gallocrAllocGraph
    rw [if_neg (by rw [htest]; decide)]
  · have hbyte : ((0, 0, 32) : ℕ × ℕ × ℕ) ∈
        (⟨0, some ⟨0, 32⟩, 32⟩ : TensorAlloc).bytes (smallBuffers fun _ => 32) :=
      ⟨_, rfl, rfl, rfl, by decide, by decide⟩
    have hlast := hsafe 2 2 3 3 1 rfl ⟨rfl, rfl, rfl⟩ ⟨rfl, rfl, rfl⟩ (by decide) (.inr (by decide)) rfl (by decide)
      ⟨1, by decide, .inl rfl⟩
    rcases hlast with hdisjoint | hplace
    · exact Set.disjoint_left.1 hdisjoint ⟨_, hplaced 3 (by decide), hbyte⟩ ⟨_, hplaced 1 (by decide), hbyte⟩
    · exact absurd hplace.1 (by decide)

end PyannoteCpp.Gallocr
