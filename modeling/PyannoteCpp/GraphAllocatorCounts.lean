import PyannoteCpp.GraphAllocatorSteps
import PyannoteCpp.CheckedLoops

set_option autoImplicit false

/-!
# Counting readers and views

Before the nodes are allocated, the counters of a tensor are the number of times
it is a source and the number of its views among the nodes. The leafs and the
inputs hold their blocks by then.
-/
namespace PyannoteCpp.Gallocr

open Tallocr PrefixGrammar CheckedLoops

variable {buffers : Buffers} {graph : Cgraph} {s s' : GallocrState} {node t v : ℕ}

/-- The sources of some nodes, each as often as it is one. -/
def readsOf (graph : Cgraph) (nodes : List ℕ) : List ℕ := nodes.flatMap (fun node => (graph.tensor node).src)

/-- The node has the tensor, or a view of it, as a source. -/
def Reads (graph : Cgraph) (node t : ℕ) : Prop :=
  ∃ src ∈ (graph.tensor node).src, src = t ∨ (graph.tensor src).viewSrc = some t

/-- The views of a tensor that are counted. -/
def IsView (graph : Cgraph) (v node : ℕ) : Prop := (graph.tensor node).viewSrc = some v ∧ (graph.tensor node).op ≠ .none

instance (v node : ℕ) : Decidable (IsView graph v node) := inferInstanceAs (Decidable (_ ∧ _))

def viewsOf (graph : Cgraph) (v : ℕ) (nodes : List ℕ) : List ℕ := nodes.filter (fun node => IsView graph v node)

/-- The views of a tensor that are not released while the sources in `todo` are to be read. -/
def pendingViews (graph : Cgraph) (v : ℕ) (todo : List ℕ) : List ℕ :=
  (viewsOf graph v graph.nodes).filter (fun node => node ∈ todo ∨ node ∉ readsOf graph graph.nodes)

structure Counts (graph : Cgraph) (todo : List ℕ) (s : GallocrState) : Prop where
  children : ∀ t, (s.hash t).nChildren = (todo.count t : ℕ)
  views : ∀ v, Plain graph v → ((pendingViews graph v todo).length : ℤ) ≤ (s.hash v).nViews

/-- What the graph has to be like: sources come first and are tensors of the graph, views that are read are
nodes of their own, and an input is not computed in place. -/
structure Regular (graph : Cgraph) : Prop where
  order : ∀ done node rest, graph.nodes = done ++ node :: rest → ∀ src ∈ (graph.tensor node).src,
    src ∉ rest ∧ ∀ v, (graph.tensor src).viewSrc = some v → v ∉ rest
  listed : ∀ node ∈ graph.nodes, ∀ src ∈ (graph.tensor node).src, Plain graph src →
    src ∈ graph.nodes ∨ src ∈ graph.leafs ∨ (graph.tensor src).input = true
  counted : ∀ node ∈ graph.nodes, ∀ src ∈ (graph.tensor node).src, ∀ v, (graph.tensor src).viewSrc = some v →
    Plain graph v → src ∈ graph.nodes ∧ (graph.tensor src).op ≠ .none
  inputs : ∀ t, InGraph graph t → Plain graph t → (graph.tensor t).input = true →
    ggmlOpCanInplace (graph.tensor t).op = false

structure Grows (s s' : GallocrState) : Prop where
  kept : ∀ t, (s.hash t).allocated = true → (s'.hash t).allocated = true
  children : ∀ t, (s'.hash t).nChildren = (s.hash t).nChildren
  views : ∀ t, (s'.hash t).nViews = (s.hash t).nViews

theorem Grows.refl (s : GallocrState) : Grows s s := ⟨fun _ h => h, fun _ => rfl, fun _ => rfl⟩

theorem AllocateNode.counters (h : AllocateNode buffers graph s node s') (t : ℕ) :
    (s'.hash t).nChildren = (s.hash t).nChildren ∧ (s'.hash t).nViews = (s.hash t).nViews := by
  cases h with
  | skip _ hs => subst hs; exact ⟨rfl, rfl⟩
  | fresh _ _ hother hnode =>
    by_cases ht : t = node
    · subst ht
      obtain ⟨b, addr, hnode⟩ := hnode
      rw [hnode]
      exact ⟨rfl, rfl⟩
    · rw [hother t ht]
      exact ⟨rfl, rfl⟩
  | reuse parent _ _ _ _ _ _ _ _ _ _ hother hparent hnode =>
    by_cases ht : t = node
    · subst ht
      rw [hnode]
      exact ⟨rfl, rfl⟩
    · by_cases htp : t = parent
      · subst htp
        rw [hparent]
        exact ⟨rfl, rfl⟩
      · rw [hother t ht htp]
        exact ⟨rfl, rfl⟩

theorem AllocateNode.allocated (h : AllocateNode buffers graph s node s') (hplain : Plain graph node) :
    (s'.hash node).allocated = true := by
  cases h with
  | skip ha hs =>
    subst hs
    exact ha.resolve_left (not_not.2 hplain)
  | fresh _ _ _ hnode =>
    obtain ⟨b, addr, hnode⟩ := hnode
    rw [hnode]
    rfl
  | reuse _ _ _ _ _ _ _ _ _ _ _ _ _ hnode =>
    rw [hnode]
    rfl

theorem AllocateNode.grows (h : AllocateNode buffers graph s node s')
    (hno : (Plain graph node → ggmlOpCanInplace (graph.tensor node).op = false) ∨ ∀ t, (s.hash t).nChildren = 0) :
    Grows s s' := by
  have hcount := h.counters
  refine ⟨?_, fun t => (hcount t).1, fun t => (hcount t).2⟩
  cases h with
  | skip _ hs => subst hs; exact fun t ht => ht
  | fresh _ hfree hother _ =>
    intro t ht
    have hne : t ≠ node := fun he => by simp [he, hfree] at ht
    rw [hother t hne]
    exact ht
  | reuse parent hplain _ hop _ _ _ _ hone =>
    rcases hno with hop' | hzero
    · simp [hop' hplain] at hop
    · simp [hzero parent] at hone

theorem emptyState_inv (buffers : Buffers) (graph : Cgraph) : OwnInv buffers graph (emptyState buffers) [] := by
  refine ⟨List.nodup_nil, ?_, fun t ht => (nomatch ht), fun t ht => (nomatch ht), fun buft => start_inv rfl⟩
  intro t
  exact ⟨fun ht => (nomatch ht), fun ht => (nomatch ht)⟩

/-- The tables are sound and have room for what was handled before. -/
def Held (buffers : Buffers) (graph : Cgraph) (s : GallocrState) : Prop := ∃ owned, OwnInv buffers graph s owned

theorem leafs_spec {leafBufferIds : ℕ → ℤ} (hs : Sizes buffers graph) (hself : NoSelfReuse graph)
    (hm : graph.leafs.zipIdx.foldlM (fun s p => allocateNode buffers graph s p.1 (leafBufferIds p.2))
      (emptyState buffers) = .ok s) :
    Held buffers graph s ∧ (∀ t, (s.hash t).nChildren = 0 ∧ (s.hash t).nViews = 0) ∧
      ∀ t ∈ graph.leafs, Plain graph t → (s.hash t).allocated = true := by
  have hrun := foldlM_steps (I := fun rest s => Held buffers graph s ∧
      (∀ t, (s.hash t).nChildren = 0 ∧ (s.hash t).nViews = 0) ∧ (∀ p ∈ rest, p.1 ∈ graph.leafs) ∧
      ∀ t ∈ graph.leafs, Plain graph t → (s.hash t).allocated = true ∨ t ∈ rest.map Prod.fst) (l := graph.leafs.zipIdx)
    ?_ ?_ hm
  · refine ⟨hrun.1, hrun.2.1, fun t ht hplain => ?_⟩
    exact (hrun.2.2.2 t ht hplain).resolve_right (by simp)
  · rintro p rest s s' ⟨⟨owned, hinv⟩, hzero, hmem, halloc⟩ hstep
    have hleaf := hmem p List.mem_cons_self
    obtain ⟨hinv', hcase⟩ := allocateNode_spec hs hself (.inr (.inl hleaf)) hinv hstep
    have hgrows := hcase.grows (.inr fun t => (hzero t).1)
    refine ⟨hinv', ?_, fun q hq => hmem q (List.mem_cons_of_mem _ hq), ?_⟩
    · intro t
      rw [hgrows.children, hgrows.views]
      exact hzero t
    · intro t ht hplain
      rcases halloc t ht hplain with hold | hrest
      · exact .inl (hgrows.kept t hold)
      · rcases List.mem_cons.1 hrest with heq | hrest
        · subst heq
          exact .inl (hcase.allocated hplain)
        · exact .inr hrest
  · refine ⟨⟨[], emptyState_inv buffers graph⟩, fun t => ⟨rfl, rfl⟩, ?_, ?_⟩
    · intro p hp
      exact List.mem_of_getElem? (List.mem_zipIdx_iff_getElem?.1 hp)
    · intro t ht _
      exact .inr (by simpa using ht)

theorem countView_spec (node : ℕ) (h : Held buffers graph s) :
    Held buffers graph (countView graph s node) ∧
      ∀ t, ((countView graph s node).hash t).nChildren = (s.hash t).nChildren ∧
        ((countView graph s node).hash t).nViews = (s.hash t).nViews + (if IsView graph t node then 1 else 0) ∧
        ((countView graph s node).hash t).allocated = (s.hash t).allocated := by
  obtain ⟨owned, h⟩ := h
  cases hview : (graph.tensor node).viewSrc with
  | none =>
    have hsame : countView graph s node = s := by simp only [countView, hview]
    rw [hsame]
    exact ⟨⟨owned, h⟩, fun t => ⟨rfl, by simp [IsView, hview], rfl⟩⟩
  | some v =>
    by_cases hop : (graph.tensor node).op = .none
    · have hsame : countView graph s node = s := by simp only [countView, hview, if_pos hop]
      rw [hsame]
      exact ⟨⟨owned, h⟩, fun t => ⟨rfl, by simp [IsView, hop], rfl⟩⟩
    · have hsame : countView graph s node = s.modify v (addViews 1) := by simp only [countView, hview, if_neg hop]
      rw [hsame]
      refine ⟨⟨owned, @OwnInv.count _ _ _ _ h (addViews 1) (fun _ => ⟨rfl, rfl, rfl⟩) v⟩, fun t => ?_⟩
      by_cases ht : t = v
      · subst ht
        simp [IsView, hview, hop]
      · simp [IsView, hview, ht, Ne.symm ht]

theorem allocateInput_spec {bufferId : ℤ} (hs : Sizes buffers graph) (hself : NoSelfReuse graph)
    (hw : Regular graph) (hin : InGraph graph t) (h : Held buffers graph s)
    (hm : allocateInput buffers graph bufferId s t = .ok s') :
    Held buffers graph s' ∧ Grows s s' ∧
      ((graph.tensor t).input = true → Plain graph t → (s'.hash t).allocated = true) := by
  unfold allocateInput at hm
  split_ifs at hm with hinput
  · obtain ⟨owned, hinv⟩ := h
    obtain ⟨hinv', hcase⟩ := allocateNode_spec hs hself hin hinv hm
    exact ⟨hinv', hcase.grows (.inl fun hplain => hw.inputs t hin hplain hinput), fun _ hplain => hcase.allocated hplain⟩
  · cases hm
    exact ⟨h, .refl s, fun hin => absurd hin hinput⟩

theorem countSrc_spec {bufferId : ℤ} {src : ℕ} (hs : Sizes buffers graph) (hself : NoSelfReuse graph)
    (hw : Regular graph) (hin : InGraph graph src) (h : Held buffers graph s)
    (hm : countSrc buffers graph bufferId s src = .ok s') :
    Held buffers graph s' ∧
      (∀ t, (s'.hash t).nChildren = (s.hash t).nChildren + (if t = src then 1 else 0) ∧
        (s'.hash t).nViews = (s.hash t).nViews ∧
        ((s.hash t).allocated = true → (s'.hash t).allocated = true)) ∧
      ((graph.tensor src).input = true → Plain graph src → (s'.hash src).allocated = true) := by
  obtain ⟨owned, h⟩ := h
  have h1 := @OwnInv.count _ _ _ _ h (addChildren 1) (fun _ => ⟨rfl, rfl, rfl⟩) src
  obtain ⟨hheld, hgrows, halloc⟩ := allocateInput_spec hs hself hw hin ⟨owned, h1⟩ hm
  refine ⟨hheld, fun t => ?_, halloc⟩
  have hkept := hgrows.kept t
  rw [hgrows.children, hgrows.views]
  by_cases ht : t = src
  · subst ht
    simp only [modify_hash_self, addChildren_nChildren, addChildren_nViews, addChildren_allocated, if_true] at hkept ⊢
    exact ⟨trivial, trivial, hkept⟩
  · rw [modify_hash_ne _ _ ht] at hkept ⊢
    simp only [if_neg ht, Int.add_zero]
    exact ⟨trivial, trivial, hkept⟩

/-- What the round of a node does to the tables: its sources and its view are counted, and inputs hold memory. -/
theorem countNode_spec {bufferId : ℤ} (hs : Sizes buffers graph) (hself : NoSelfReuse graph) (hw : Regular graph)
    (hnode : node ∈ graph.nodes) (h : Held buffers graph s)
    (hm : countNode buffers graph bufferId s node = .ok s') :
    Held buffers graph s' ∧
      (∀ t, (s'.hash t).nChildren = (s.hash t).nChildren + ((graph.tensor node).src.count t : ℕ) ∧
        (s'.hash t).nViews = (s.hash t).nViews + (if IsView graph t node then 1 else 0) ∧
        ((s.hash t).allocated = true → (s'.hash t).allocated = true)) ∧
      ((graph.tensor node).input = true → Plain graph node → (s'.hash node).allocated = true) ∧
      ∀ src ∈ (graph.tensor node).src, (graph.tensor src).input = true → Plain graph src →
        (s'.hash src).allocated = true := by
  obtain ⟨hheld, hcount⟩ := countView_spec node h
  unfold countNode at hm
  obtain ⟨u, hu, hm⟩ := except_bind_ok.1 hm
  obtain ⟨hheldu, hgrows, hnodeu⟩ := allocateInput_spec hs hself hw (.inl hnode) hheld hu
  have hcountu : ∀ t, (u.hash t).nChildren = (s.hash t).nChildren ∧
      (u.hash t).nViews = (s.hash t).nViews + (if IsView graph t node then 1 else 0) ∧
      ((s.hash t).allocated = true → (u.hash t).allocated = true) := by
    intro t
    rw [hgrows.children, hgrows.views, (hcount t).1, (hcount t).2.1]
    exact ⟨rfl, rfl, fun ht => hgrows.kept t (by rw [(hcount t).2.2, ht])⟩
  have hrun := foldlM_steps (I := fun rest w => Held buffers graph w ∧
      (∀ t, (w.hash t).nChildren + (rest.count t : ℕ) = (u.hash t).nChildren + ((graph.tensor node).src.count t : ℕ) ∧
        (w.hash t).nViews = (u.hash t).nViews ∧ ((u.hash t).allocated = true → (w.hash t).allocated = true)) ∧
      (∀ src ∈ rest, src ∈ (graph.tensor node).src) ∧
      ∀ src ∈ (graph.tensor node).src, (graph.tensor src).input = true → Plain graph src →
        (w.hash src).allocated = true ∨ src ∈ rest) ?_
    ⟨hheldu, fun t => ⟨rfl, rfl, fun ht => ht⟩, fun src hsrc => hsrc, fun src hsrc _ _ => .inr hsrc⟩ hm
  · obtain ⟨hheld', hcount', -, halloc'⟩ := hrun
    refine ⟨hheld', fun t => ?_, fun hin hplain => (hcount' node).2.2 (hnodeu hin hplain), ?_⟩
    · obtain ⟨hchildren, hviews, hkept⟩ := hcount' t
      rw [List.count_nil, Nat.cast_zero, Int.add_zero, (hcountu t).1] at hchildren
      exact ⟨hchildren, hviews.trans (hcountu t).2.1, fun ht => hkept ((hcountu t).2.2 ht)⟩
    · exact fun src hsrc hin hplain => (halloc' src hsrc hin hplain).resolve_right (by simp)
  · rintro src rest w w' ⟨hheldw, hcountw, hmem, halloc⟩ hstep
    have hsrc := hmem src List.mem_cons_self
    obtain ⟨hheld', hcount', hin'⟩ := countSrc_spec hs hself hw (.inr (.inr ⟨node, hnode, hsrc⟩)) hheldw hstep
    refine ⟨hheld', fun t => ?_, fun q hq => hmem q (List.mem_cons_of_mem _ hq), ?_⟩
    · obtain ⟨hchildren, hviews, hkept⟩ := hcountw t
      refine ⟨?_, (hcount' t).2.1.trans hviews, fun ht => (hcount' t).2.2 (hkept ht)⟩
      rw [List.count_cons] at hchildren
      rw [(hcount' t).1, ← hchildren]
      by_cases ht : t = src
      · subst ht
        simp
        omega
      · simp [ht, Ne.symm ht]
    · intro q hq hin hplain
      rcases halloc q hq hin hplain with hold | hrest
      · exact .inl ((hcount' q).2.2 hold)
      · rcases List.mem_cons.1 hrest with heq | hrest
        · subst heq
          exact .inl (hin' hin hplain)
        · exact .inr hrest

/-- The tensors that hold memory before the first node is allocated. -/
def Early (graph : Cgraph) (t : ℕ) : Prop :=
  t ∈ graph.leafs ∨ (graph.tensor t).input = true ∧ (t ∈ graph.nodes ∨ t ∈ readsOf graph graph.nodes)

theorem readsOf_cons (node : ℕ) (nodes : List ℕ) :
    readsOf graph (node :: nodes) = (graph.tensor node).src ++ readsOf graph nodes := List.flatMap_cons

theorem viewsOf_cons_length (v node : ℕ) (nodes : List ℕ) :
    ((viewsOf graph v (node :: nodes)).length : ℤ) =
      (if IsView graph v node then 1 else 0) + (viewsOf graph v nodes).length := by
  unfold viewsOf
  rw [List.filter_cons]
  by_cases hv : IsView graph v node
  · simp [hv, Int.add_comm]
  · simp [hv]

/-- The rounds still to come: what they will count, and the inputs they will allocate. -/
structure Counting (buffers : Buffers) (graph : Cgraph) (nodes : List ℕ) (s : GallocrState) : Prop where
  held : Held buffers graph s
  children : ∀ t, (s.hash t).nChildren + ((readsOf graph nodes).count t : ℕ) = ((readsOf graph graph.nodes).count t : ℕ)
  views : ∀ v, (s.hash v).nViews + ((viewsOf graph v nodes).length : ℕ) = ((viewsOf graph v graph.nodes).length : ℕ)
  mem : ∀ node ∈ nodes, node ∈ graph.nodes
  leafs : ∀ t ∈ graph.leafs, Plain graph t → (s.hash t).allocated = true
  inputs : ∀ t, (graph.tensor t).input = true → Plain graph t →
    (t ∈ graph.nodes → (s.hash t).allocated = true ∨ t ∈ nodes) ∧
    (t ∈ readsOf graph graph.nodes → (s.hash t).allocated = true ∨ t ∈ readsOf graph nodes)

theorem Counting.step {bufferId : ℤ} {nodes : List ℕ} (hs : Sizes buffers graph) (hself : NoSelfReuse graph)
    (hw : Regular graph) (h : Counting buffers graph (node :: nodes) s)
    (hm : countNode buffers graph bufferId s node = .ok s') : Counting buffers graph nodes s' := by
  obtain ⟨hheld, hcount, hnode, hsrcs⟩ := countNode_spec hs hself hw (h.mem node List.mem_cons_self) h.held hm
  refine ⟨hheld, ?_, ?_, fun n hn => h.mem n (List.mem_cons_of_mem _ hn), ?_, ?_⟩
  · intro t
    have hchildren := h.children t
    rw [readsOf_cons, List.count_append] at hchildren
    rw [(hcount t).1, ← hchildren]
    push_cast
    omega
  · intro v
    have hviews := h.views v
    rw [viewsOf_cons_length] at hviews
    rw [(hcount v).2.1, ← hviews]
    omega
  · exact fun t ht hplain => (hcount t).2.2 (h.leafs t ht hplain)
  · intro t hin hplain
    obtain ⟨hnodes, hreads⟩ := h.inputs t hin hplain
    refine ⟨fun ht => ?_, fun ht => ?_⟩
    · rcases hnodes ht with hold | hrest
      · exact .inl ((hcount t).2.2 hold)
      · rcases List.mem_cons.1 hrest with heq | hrest
        · subst heq
          exact .inl (hnode hin hplain)
        · exact .inr hrest
    · rcases hreads ht with hold | hrest
      · exact .inl ((hcount t).2.2 hold)
      · rw [readsOf_cons] at hrest
        rcases List.mem_append.1 hrest with hsrc | hrest
        · exact .inl (hsrcs t hsrc hin hplain)
        · exact .inr hrest

theorem pendingViews_all (v : ℕ) : pendingViews graph v (readsOf graph graph.nodes) = viewsOf graph v graph.nodes := by
  apply List.filter_eq_self.2
  intro node _
  simp [em]

theorem counting_spec {nodeBufferIds : ℕ → ℤ} {u : GallocrState} (hs : Sizes buffers graph)
    (hself : NoSelfReuse graph) (hw : Regular graph) (hheld : Held buffers graph u)
    (hzero : ∀ t, (u.hash t).nChildren = 0 ∧ (u.hash t).nViews = 0)
    (hleafs : ∀ t ∈ graph.leafs, Plain graph t → (u.hash t).allocated = true)
    (hm : graph.nodes.zipIdx.foldlM (fun s p => countNode buffers graph (nodeBufferIds p.2) s p.1) u = .ok s) :
    Held buffers graph s ∧ Counts graph (readsOf graph graph.nodes) s ∧
      ∀ t, Plain graph t → Early graph t → (s.hash t).allocated = true := by
  have hfst : graph.nodes.zipIdx.map Prod.fst = graph.nodes := by simp
  have hstart : Counting buffers graph (graph.nodes.zipIdx.map Prod.fst) u := by
    rw [hfst]
    refine ⟨hheld, fun t => ?_, fun v => ?_, fun n hn => hn, hleafs, fun t _ _ => ⟨fun ht => .inr ht, fun ht => .inr ht⟩⟩
    · rw [(hzero t).1, Int.zero_add]
    · rw [(hzero v).2, Int.zero_add]
  have hend := foldlM_steps (I := fun rest w => Counting buffers graph (rest.map Prod.fst) w)
    (fun p rest w w' hw' hstep => Counting.step hs hself hw hw' hstep) hstart hm
  refine ⟨hend.held, ⟨fun t => ?_, fun v _ => ?_⟩, ?_⟩
  · simpa [readsOf] using hend.children t
  · rw [pendingViews_all]
    have hviews := hend.views v
    simp only [List.map_nil, viewsOf, List.filter_nil, List.length_nil, Nat.cast_zero, Int.add_zero] at hviews
    exact hviews.ge
  · rintro t hplain (hleaf | ⟨hin, hnode | hread⟩)
    · exact hend.leafs t hleaf hplain
    · exact ((hend.inputs t hin hplain).1 hnode).resolve_right (by simp)
    · exact ((hend.inputs t hin hplain).2 hread).resolve_right (by simp [readsOf])

end PyannoteCpp.Gallocr
