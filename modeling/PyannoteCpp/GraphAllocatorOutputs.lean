import PyannoteCpp.GraphAllocatorRequests

set_option autoImplicit false

/-!
# Outputs

An output flag keeps the block of the tensor it is on. The data of a view are in
the block of another tensor. That one loses its block with the last reader of
itself and of its views, whatever flags the views have.
-/
namespace PyannoteCpp.Gallocr

open Tallocr PrefixGrammar CheckedLoops

variable {buffers : Buffers} {graph : Cgraph} {s s' u w : GallocrState} {node t q : ℕ} {todo rest : List ℕ}
  {bufferId : ℤ} {nodeBufferIds leafBufferIds : ℕ → ℤ}

def ownerOf (graph : Cgraph) (t : ℕ) : ℕ := ((graph.tensor t).viewSrc).getD t

def Apart (buffers : Buffers) (graph : Cgraph) (s : GallocrState) (a b : ℕ) : Prop :=
  Disjoint ((tensorAlloc buffers graph s a).bytes buffers) ((tensorAlloc buffers graph s b).bytes buffers)

/-- The block is never freed, and no node that runs after the tensor is planned onto it. -/
def Preserved (buffers : Buffers) (graph : Cgraph) (s : GallocrState) (t : ℕ) : Prop :=
  (s.hash (ownerOf graph t)).allocated = true ∧
    ∀ i node, graph.nodes[i]? = some node → Plain graph node → node ≠ ownerOf graph t →
      t ∉ graph.nodes.drop i → ownerOf graph t ∉ graph.nodes.drop i → Apart buffers graph s node (ownerOf graph t)

theorem tensorAlloc_samePlace (h : SamePlace s s' t) :
    tensorAlloc buffers graph s' t = tensorAlloc buffers graph s t := by
  unfold tensorAlloc
  rw [h.1, h.2]

theorem Apart.samePlace {a b : ℕ} (h : Apart buffers graph s a b) (ha : SamePlace s s' a) (hb : SamePlace s s' b) :
    Apart buffers graph s' a b := by
  unfold Apart
  rw [tensorAlloc_samePlace ha, tensorAlloc_samePlace hb]
  exact h

theorem Held.apart {a b : ℕ} (h : Held buffers graph s) (ha : (s.hash a).allocated = true)
    (hb : (s.hash b).allocated = true) (hne : a ≠ b) : Apart buffers graph s a b :=
  held_disjoint h ha hb hne ⟨rfl, rfl⟩ ⟨rfl, rfl⟩

theorem Held.ownsPlain (h : Held buffers graph s) : OwnsPlain graph s := by
  obtain ⟨owned, hinv⟩ := h
  exact hinv.ownsPlain

/-- The steps from `s` to `s'` leave the block of `t` to `t`. -/
structure Keeps (buffers : Buffers) (graph : Cgraph) (t : ℕ) (s s' : GallocrState) : Prop where
  alive : (s.hash t).allocated = true → (s'.hash t).allocated = true
  apart : ∀ a, a ≠ t → (s.hash t).allocated = true → Apart buffers graph s a t → Apart buffers graph s' a t

theorem Keeps.refl (s : GallocrState) : Keeps buffers graph t s s := ⟨id, fun _ _ _ h => h⟩

theorem Keeps.trans (h : Keeps buffers graph t s u) (h' : Keeps buffers graph t u s') : Keeps buffers graph t s s' :=
  ⟨fun ht => h'.alive (h.alive ht), fun a hne ht ha => h'.apart a hne (h.alive ht) (h.apart a hne ht ha)⟩

/-- What moves has a block then, and two blocks are never on the same bytes. -/
theorem keeps_of_moves (hheld : Held buffers graph s') (hplace : SamePlace s s' t)
    (halive : (s.hash t).allocated = true → (s'.hash t).allocated = true)
    (hmoves : ∀ a, a ≠ t → SamePlace s s' a ∨ (s'.hash a).allocated = true) : Keeps buffers graph t s s' := by
  refine ⟨halive, fun a hne ht ha => ?_⟩
  rcases hmoves a hne with hsame | hheld'
  · exact ha.samePlace hsame hplace
  · exact hheld.apart hheld' (halive ht) hne

/-- A block is not taken over from an output, or from a tensor with a view or other readers. -/
theorem AllocateNode.keeps (h : AllocateNode buffers graph s node s') (hheld : Held buffers graph s')
    (hno : (graph.tensor t).output = true ∨ (s.hash t).nChildren ≠ 1 ∨ (s.hash t).nViews ≠ 0 ∨
      (Plain graph node → ggmlOpCanInplace (graph.tensor node).op = true → t ∉ (graph.tensor node).src)) :
    Keeps buffers graph t s s' := by
  cases h with
  | skip _ hs =>
    rw [hs]
    exact .refl s
  | fresh _ hfree hother hnode =>
    obtain ⟨b, addr, hnode⟩ := hnode
    have hsame : (s.hash t).allocated = true → s'.hash t = s.hash t := by
      intro ht
      apply hother t
      rintro rfl
      rw [hfree] at ht
      cases ht
    refine ⟨fun ht => by rw [hsame ht, ht], fun a hne ht ha => ?_⟩
    refine (keeps_of_moves hheld (samePlace_of_hash (hsame ht)) (fun _ => by rw [hsame ht, ht]) ?_).apart a hne ht ha
    intro c _
    by_cases hc : c = node
    · subst hc
      exact .inr (by rw [hnode]; rfl)
    · exact .inl (samePlace_of_hash (hother c hc))
  | reuse parent hplain hfree hop hsrc _ hout _ hone hviews _ hother hparent hnode =>
    have htp : t ≠ parent := by
      rintro rfl
      rcases hno with hout' | hone' | hviews' | hsrc'
      · rw [hout] at hout'
        cases hout'
      · exact hone' hone
      · exact hviews' hviews
      · exact hsrc' hplain hop hsrc
    have hsame : (s.hash t).allocated = true → s'.hash t = s.hash t := by
      intro ht
      refine hother t ?_ htp
      rintro rfl
      rw [hfree] at ht
      cases ht
    refine ⟨fun ht => by rw [hsame ht, ht], fun a hne ht ha => ?_⟩
    refine (keeps_of_moves hheld (samePlace_of_hash (hsame ht)) (fun _ => by rw [hsame ht, ht]) ?_).apart a hne ht ha
    intro c _
    by_cases hc : c = node
    · subst hc
      exact .inr (by rw [hnode]; rfl)
    · by_cases hcp : c = parent
      · subst hcp
        refine .inl ⟨?_, ?_⟩
        · rw [hparent]
          rfl
        · rw [hparent]
          rfl
      · exact .inl (samePlace_of_hash (hother c hc hcp))

theorem UpdateParent.keeps (h : UpdateParent graph s q s') (hheld : Held buffers graph s')
    (hno : (graph.tensor t).output = true ∨ (t ≠ q ∧ (graph.tensor q).viewSrc ≠ some t) ∨ (s'.hash t).nViews ≠ 0) :
    Keeps buffers graph t s s' := by
  refine keeps_of_moves hheld (h.place t) ?_ (fun a _ => .inl (h.place a))
  intro ht
  rcases h.freed t with hsame | ⟨htouched, -, hout, -, hviews⟩
  · exact hsame.trans ht
  · rcases hno with hout' | ⟨hq, hview⟩ | hviews'
    · rw [hout] at hout'
      cases hout'
    · exact (htouched.elim hq hview).elim
    · exact absurd hviews hviews'

/-! The counters of a tensor and of its views. -/

/-- What the graph has to be like around a tensor: it comes before its readers, no input takes its block, and the
views that are read are nodes, listed once and no views of views. -/
structure Watched (graph : Cgraph) (t : ℕ) : Prop where
  order : ∀ done node rest, graph.nodes = done ++ node :: rest → Reads graph node t → t ∉ rest
  inputs : ∀ node, InGraph graph node → Plain graph node → (graph.tensor node).input = true →
    ggmlOpCanInplace (graph.tensor node).op = true → t ∉ (graph.tensor node).src
  distinct : graph.nodes.Nodup
  counted : ∀ q ∈ readsOf graph graph.nodes, (graph.tensor q).viewSrc = some t →
    q ∈ graph.nodes ∧ (graph.tensor q).op ≠ .none
  flat : ∀ q, (graph.tensor q).viewSrc = some t → ∀ node, (graph.tensor node).viewSrc ≠ some q

structure ViewCounts (graph : Cgraph) (t : ℕ) (todo : List ℕ) (s : GallocrState) : Prop where
  children : ∀ a, (s.hash a).nChildren = (todo.count a : ℕ)
  views : (s.hash t).nViews = ((pendingViews graph t todo).length : ℕ)
  flat : ∀ q, (graph.tensor q).viewSrc = some t → (s.hash q).nViews = 0

theorem ViewCounts.of_counters (h : ViewCounts graph t todo s)
    (hsame : ∀ a, (s'.hash a).nChildren = (s.hash a).nChildren ∧ (s'.hash a).nViews = (s.hash a).nViews) :
    ViewCounts graph t todo s' :=
  ⟨fun a => (hsame a).1.trans (h.children a), (hsame t).2.trans h.views,
    fun q hq => (hsame q).2.trans (h.flat q hq)⟩

theorem pendingViews_cons (h : q ∈ todo ∨ (graph.tensor q).viewSrc ≠ some t) :
    pendingViews graph t (q :: todo) = pendingViews graph t todo := by
  apply List.filter_congr
  intro n hn
  have hview := (of_decide_eq_true (List.mem_filter.1 hn).2).1
  by_cases hnq : n = q
  · subst hnq
    have hmem := h.resolve_right (not_not.2 hview)
    simp [hmem]
  · simp [hnq]

theorem mem_viewsOf (hw : Watched graph t) (hq : q ∈ readsOf graph graph.nodes)
    (hview : (graph.tensor q).viewSrc = some t) : q ∈ viewsOf graph t graph.nodes := by
  obtain ⟨hnode, hop⟩ := hw.counted q hq hview
  exact List.mem_filter.2 ⟨hnode, by simp [IsView, hview, hop]⟩

theorem pendingViews_cons_length (hw : Watched graph t) (hq : q ∈ readsOf graph graph.nodes)
    (hview : (graph.tensor q).viewSrc = some t) (hno : q ∉ todo) :
    (pendingViews graph t (q :: todo)).length = (pendingViews graph t todo).length + 1 := by
  have hnodup : ∀ l, (pendingViews graph t l).Nodup := fun l => (hw.distinct.filter _).filter _
  have hmem := mem_viewsOf hw hq hview
  have hnew : q ∉ pendingViews graph t todo := by
    intro h
    have hor := of_decide_eq_true (List.mem_filter.1 h).2
    exact hor.elim hno (fun h => h hq)
  have hperm : (pendingViews graph t (q :: todo)).Perm (q :: pendingViews graph t todo) := by
    apply (List.perm_ext_iff_of_nodup (hnodup _) (List.nodup_cons.2 ⟨hnew, hnodup _⟩)).2
    intro n
    unfold pendingViews
    rw [List.mem_cons, List.mem_filter, List.mem_filter, decide_eq_true_iff, decide_eq_true_iff, List.mem_cons]
    constructor
    · rintro ⟨hn, (rfl | htodo) | hr⟩
      · exact .inl rfl
      · exact .inr ⟨hn, .inl htodo⟩
      · exact .inr ⟨hn, .inr hr⟩
    · rintro (rfl | ⟨hn, htodo | hr⟩)
      · exact ⟨hmem, .inl (.inl rfl)⟩
      · exact ⟨hn, .inl (.inr htodo)⟩
      · exact ⟨hn, .inr hr⟩
  rw [hperm.length_eq, List.length_cons]

theorem ViewCounts.update (hw : Watched graph t) (h : ViewCounts graph t (q :: todo) s)
    (hq : q ∈ readsOf graph graph.nodes) (hu : UpdateParent graph s q s') : ViewCounts graph t todo s' := by
  refine ⟨?_, ?_, ?_⟩
  · intro a
    have hcount := h.children a
    rw [List.count_cons] at hcount
    rw [hu.children a, hcount]
    by_cases ha : a = q
    · subst ha
      simp
    · simp [ha, Ne.symm ha]
  · rw [hu.views t, h.views]
    by_cases hview : (graph.tensor q).viewSrc = some t
    · have hcount := h.children q
      rw [List.count_cons_self] at hcount
      by_cases hmem : q ∈ todo
      · have hpos := List.count_pos_iff.2 hmem
        rw [if_neg (fun hdone => by omega), pendingViews_cons (.inl hmem), Int.sub_zero]
      · have hzero := List.count_eq_zero.2 hmem
        rw [if_pos ⟨hview, by omega, h.flat q hview⟩, pendingViews_cons_length hw hq hview hmem]
        omega
    · rw [if_neg (fun hdone => hview hdone.1), pendingViews_cons (.inr hview), Int.sub_zero]
  · intro v hv
    rw [hu.views v, if_neg (fun hdone => hw.flat v hv q hdone.1), h.flat v hv, Int.sub_zero]

theorem pendingViews_nil (h : ∀ q ∈ viewsOf graph t graph.nodes, q ∈ readsOf graph graph.nodes)
    (hview : ∀ q ∈ todo, (graph.tensor q).viewSrc ≠ some t) : pendingViews graph t todo = [] := by
  apply List.filter_eq_nil_iff.2
  intro q hq hpending
  rcases of_decide_eq_true hpending with htodo | hr
  · exact hview q htodo (of_decide_eq_true (List.mem_filter.1 hq).2).1
  · exact hr (h q hq)

theorem viewCounts_start (hw : Watched graph t)
    (hchildren : ∀ a, (s.hash a).nChildren = ((readsOf graph graph.nodes).count a : ℕ))
    (hviews : ∀ v, (s.hash v).nViews = ((viewsOf graph v graph.nodes).length : ℕ)) :
    ViewCounts graph t (readsOf graph graph.nodes) s := by
  refine ⟨hchildren, ?_, ?_⟩
  · rw [pendingViews_all]
    exact hviews t
  · intro q hq
    have hnone : viewsOf graph q graph.nodes = [] := by
      apply List.filter_eq_nil_iff.2
      intro n _ hn
      exact hw.flat q hq n (of_decide_eq_true hn).1
    rw [hviews, hnone]
    rfl

/-! The counting loop. -/

/-- No input takes over the block. -/
def Untaken (graph : Cgraph) (t : ℕ) : Prop :=
  (graph.tensor t).output = true ∨ ∀ node, InGraph graph node → Plain graph node →
    (graph.tensor node).input = true → ggmlOpCanInplace (graph.tensor node).op = true → t ∉ (graph.tensor node).src

theorem allocateInput_untaken {a : ℕ} (hs : Sizes buffers graph) (hself : NoSelfReuse graph) (hno : Untaken graph t)
    (hin : InGraph graph a) (hheld : Held buffers graph s)
    (hm : allocateInput buffers graph bufferId s a = .ok s') :
    Held buffers graph s' ∧
      (∀ v, (s'.hash v).nChildren = (s.hash v).nChildren ∧ (s'.hash v).nViews = (s.hash v).nViews) ∧
      ((s.hash t).allocated = true → (s'.hash t).allocated = true) ∧
      ((graph.tensor a).input = true → Plain graph a → (s'.hash a).allocated = true) := by
  unfold allocateInput at hm
  split_ifs at hm with hinput
  · obtain ⟨owned, hinv⟩ := hheld
    obtain ⟨hheld', hcase⟩ := allocateNode_spec hs hself hin hinv hm
    have hkeeps := hcase.keeps (t := t) hheld'
      (hno.imp_right fun h => .inr (.inr fun hplain hop => h a hin hplain hinput hop))
    exact ⟨hheld', hcase.counters, hkeeps.alive, fun _ hplain => hcase.allocated hplain⟩
  · cases hm
    exact ⟨hheld, fun _ => ⟨rfl, rfl⟩, id, fun h => absurd h hinput⟩

theorem countSrc_untaken {src : ℕ} (hs : Sizes buffers graph) (hself : NoSelfReuse graph) (hno : Untaken graph t)
    (hin : InGraph graph src) (hheld : Held buffers graph s)
    (hm : countSrc buffers graph bufferId s src = .ok s') :
    Held buffers graph s' ∧
      (∀ v, (s'.hash v).nChildren = (s.hash v).nChildren + (if v = src then 1 else 0) ∧
        (s'.hash v).nViews = (s.hash v).nViews) ∧
      ((s.hash t).allocated = true → (s'.hash t).allocated = true) ∧
      ((graph.tensor src).input = true → Plain graph src → (s'.hash src).allocated = true) := by
  obtain ⟨owned, hinv⟩ := hheld
  have hcounted := @OwnInv.count _ _ _ _ hinv (addChildren 1) (fun _ => ⟨rfl, rfl, rfl⟩) src
  obtain ⟨hheld', hcounters, halive, hinput⟩ := allocateInput_untaken hs hself hno hin ⟨owned, hcounted⟩ hm
  have hblock := sameBlock_modify s src (addChildren 1) (fun _ => ⟨rfl, rfl, rfl⟩) t
  refine ⟨hheld', fun v => ?_, fun ht => halive (hblock.1.trans ht), hinput⟩
  rw [(hcounters v).1, (hcounters v).2]
  by_cases hv : v = src
  · subst hv
    simp
  · simp [hv]

theorem countNode_untaken (hs : Sizes buffers graph) (hself : NoSelfReuse graph) (hno : Untaken graph t)
    (hplain : Plain graph t) (hnode : node ∈ graph.nodes) (hheld : Held buffers graph s)
    (hm : countNode buffers graph bufferId s node = .ok s') :
    Held buffers graph s' ∧
      (∀ v, (s'.hash v).nChildren = (s.hash v).nChildren + ((graph.tensor node).src.count v : ℕ) ∧
        (s'.hash v).nViews = (s.hash v).nViews + (if IsView graph v node then 1 else 0)) ∧
      ((s.hash t).allocated = true → (s'.hash t).allocated = true) ∧
      ((graph.tensor t).input = true → t = node ∨ t ∈ (graph.tensor node).src → (s'.hash t).allocated = true) := by
  obtain ⟨hheldv, hviews⟩ := countView_spec node hheld
  unfold countNode at hm
  obtain ⟨u, hu, hm⟩ := except_bind_ok.1 hm
  obtain ⟨hheldu, hcounters, halive, hinput⟩ := allocateInput_untaken hs hself hno (.inl hnode) hheldv hu
  have hrun := foldlM_steps (I := fun todo w => Held buffers graph w ∧
      (∀ src ∈ todo, src ∈ (graph.tensor node).src) ∧
      (∀ v, (w.hash v).nChildren + (todo.count v : ℕ) = (u.hash v).nChildren + ((graph.tensor node).src.count v : ℕ) ∧
        (w.hash v).nViews = (u.hash v).nViews) ∧
      ((u.hash t).allocated = true → (w.hash t).allocated = true) ∧
      ((graph.tensor t).input = true → t ∈ (graph.tensor node).src → (w.hash t).allocated = true ∨ t ∈ todo)) ?_
    ⟨hheldu, fun _ h => h, fun _ => ⟨rfl, rfl⟩, id, fun _ h => .inr h⟩ hm
  · obtain ⟨hheld', -, hcounts, hkept, hsrc⟩ := hrun
    refine ⟨hheld', fun v => ⟨?_, ?_⟩, fun ht => hkept (halive ((hviews t).2.2.trans ht)), ?_⟩
    · have hchildren := (hcounts v).1
      rw [List.count_nil, Nat.cast_zero, Int.add_zero, (hcounters v).1, (hviews v).1] at hchildren
      exact hchildren
    · rw [(hcounts v).2, (hcounters v).2, (hviews v).2.1]
    · rintro hin (rfl | hread)
      · exact hkept (hinput hin hplain)
      · exact (hsrc hin hread).resolve_right List.not_mem_nil
  · rintro src todo w w' ⟨hheldw, hmem, hcounts, hkept, hsrc⟩ hstep
    have hread := hmem src List.mem_cons_self
    obtain ⟨hheld', hcounters', halive', hinput'⟩ :=
      countSrc_untaken hs hself hno (.inr (.inr ⟨node, hnode, hread⟩)) hheldw hstep
    refine ⟨hheld', fun q hq => hmem q (List.mem_cons_of_mem _ hq), fun v => ⟨?_, ?_⟩, fun ht => halive' (hkept ht), ?_⟩
    · have hold := (hcounts v).1
      rw [List.count_cons] at hold
      rw [(hcounters' v).1, ← hold]
      by_cases hv : v = src
      · subst hv
        simp
        omega
      · simp [hv, Ne.symm hv]
    · exact (hcounters' v).2.trans (hcounts v).2
    · intro hin ht
      rcases hsrc hin ht with hold | hrest
      · exact .inl (halive' hold)
      · rcases List.mem_cons.1 hrest with rfl | hrest
        · exact .inl (hinput' hin hplain)
        · exact .inr hrest

structure CountingUp (buffers : Buffers) (graph : Cgraph) (t i : ℕ) (s : GallocrState) : Prop where
  held : Held buffers graph s
  children : ∀ a, (s.hash a).nChildren + ((readsOf graph (graph.nodes.drop i)).count a : ℕ) =
    ((readsOf graph graph.nodes).count a : ℕ)
  views : ∀ v, (s.hash v).nViews + ((viewsOf graph v (graph.nodes.drop i)).length : ℕ) =
    ((viewsOf graph v graph.nodes).length : ℕ)
  early : t ∈ graph.leafs ∨ (graph.tensor t).input = true ∧
    (t ∈ graph.nodes.take i ∨ t ∈ readsOf graph (graph.nodes.take i)) → (s.hash t).allocated = true

theorem take_split {i : ℕ} (hi : graph.nodes[i]? = some node) :
    graph.nodes.take (i + 1) = graph.nodes.take i ++ [node] := by
  obtain ⟨hlt, hget⟩ := List.getElem?_eq_some_iff.1 hi
  rw [List.take_succ_eq_append_getElem hlt, hget]

theorem readsOf_append (xs ys : List ℕ) : readsOf graph (xs ++ ys) = readsOf graph xs ++ readsOf graph ys :=
  List.flatMap_append

theorem CountingUp.step {i : ℕ} (hs : Sizes buffers graph) (hself : NoSelfReuse graph) (hno : Untaken graph t)
    (hplain : Plain graph t) (h : CountingUp buffers graph t i s) (hi : graph.nodes[i]? = some node)
    (hm : countNode buffers graph bufferId s node = .ok s') : CountingUp buffers graph t (i + 1) s' := by
  have hnode := List.mem_of_getElem? hi
  obtain ⟨hheld, hcounts, hkept, hinput⟩ := countNode_untaken hs hself hno hplain hnode h.held hm
  refine ⟨hheld, ?_, ?_, ?_⟩
  · intro a
    have hold := h.children a
    rw [drop_split hi, readsOf_cons, List.count_append] at hold
    rw [(hcounts a).1, ← hold]
    push_cast
    omega
  · intro v
    have hold := h.views v
    rw [drop_split hi, viewsOf_cons_length] at hold
    rw [(hcounts v).2, ← hold]
    omega
  · rintro (hleaf | ⟨hin, hmem⟩)
    · exact hkept (h.early (.inl hleaf))
    · rw [take_split hi, readsOf_append, List.mem_append, List.mem_append, List.mem_singleton] at hmem
      rcases hmem with (hold | hlast) | (hold | hlast)
      · exact hkept (h.early (.inr ⟨hin, .inl hold⟩))
      · exact hinput hin (.inl hlast)
      · exact hkept (h.early (.inr ⟨hin, .inr hold⟩))
      · rw [readsOf_cons] at hlast
        exact hinput hin (.inr (by simpa [readsOf] using hlast))

theorem counted_before (hs : Sizes buffers graph) (hself : NoSelfReuse graph) (hno : Untaken graph t)
    (hplain : Plain graph t)
    (hleafs : graph.leafs.zipIdx.foldlM (fun s p => allocateNode buffers graph s p.1 (leafBufferIds p.2))
      (emptyState buffers) = .ok u)
    (hm : graph.nodes.zipIdx.foldlM (fun s p => countNode buffers graph (nodeBufferIds p.2) s p.1) u = .ok s) :
    Held buffers graph s ∧ (∀ a, (s.hash a).nChildren = ((readsOf graph graph.nodes).count a : ℕ)) ∧
      (∀ v, (s.hash v).nViews = ((viewsOf graph v graph.nodes).length : ℕ)) ∧
      (Early graph t → (s.hash t).allocated = true) := by
  obtain ⟨hheld, hzero, hleaf⟩ := leafs_spec hs hself hleafs
  have hstart : CountingUp buffers graph t 0 u := by
    refine ⟨hheld, ?_, ?_, ?_⟩
    · intro a
      rw [(hzero a).1, List.drop_zero, zero_add]
    · intro v
      rw [(hzero v).2, List.drop_zero, zero_add]
    · rintro (ht | ⟨-, hmem⟩)
      · exact hleaf t ht hplain
      · simp [readsOf] at hmem
  have hend : CountingUp buffers graph t graph.nodes.length s :=
    foldlM_zipIdx hstart (fun i node v v' hi hv hstep => hv.step hs hself hno hplain hi hstep) hm
  refine ⟨hend.held, fun a => ?_, fun v => ?_, fun ht => ?_⟩
  · have hchildren := hend.children a
    rw [List.drop_length] at hchildren
    simpa [readsOf] using hchildren
  · have hviews := hend.views v
    rw [List.drop_length] at hviews
    simpa [viewsOf] using hviews
  · apply hend.early
    rw [List.take_length]
    exact ht

/-! A tensor that is never freed. -/

/-- A view that is counted and not read keeps the block of its owner, and nothing is freed that nobody reads. -/
def KeptByCounts (graph : Cgraph) (t : ℕ) : Prop :=
  Unread graph (readsOf graph graph.nodes) t ∨ ∃ q ∈ viewsOf graph t graph.nodes, q ∉ readsOf graph graph.nodes

def Guarded (graph : Cgraph) (t : ℕ) (todo : List ℕ) (s : GallocrState) : Prop :=
  (graph.tensor t).output = true ∨ Watched graph t ∧ ViewCounts graph t todo s ∧ KeptByCounts graph t

theorem Guarded.of_counters (h : Guarded graph t todo s)
    (hsame : ∀ a, (s'.hash a).nChildren = (s.hash a).nChildren ∧ (s'.hash a).nViews = (s.hash a).nViews) :
    Guarded graph t todo s' :=
  h.imp_right fun ⟨hw, hcounts, hkept⟩ => ⟨hw, hcounts.of_counters hsame, hkept⟩

theorem Guarded.update (h : Guarded graph t (q :: todo) s) (hq : q ∈ readsOf graph graph.nodes)
    (hu : UpdateParent graph s q s') : Guarded graph t todo s' :=
  h.imp_right fun ⟨hw, hcounts, hkept⟩ => ⟨hw, hcounts.update hw hq hu, hkept⟩

theorem ViewCounts.views_ne_zero (h : ViewCounts graph t todo s) (hq : q ∈ viewsOf graph t graph.nodes)
    (hunread : q ∉ readsOf graph graph.nodes) : (s.hash t).nViews ≠ 0 := by
  have hmem : q ∈ pendingViews graph t todo := List.mem_filter.2 ⟨hq, by simp [hunread]⟩
  have hpos := List.length_pos_of_mem hmem
  rw [h.views]
  omega

theorem Guarded.allocate (h : Guarded graph t todo s) (hsub : ∀ q ∈ todo, q ∈ readsOf graph graph.nodes) :
    (graph.tensor t).output = true ∨ (s.hash t).nChildren ≠ 1 ∨ (s.hash t).nViews ≠ 0 := by
  rcases h with hout | ⟨-, hcounts, hunread | ⟨q, hq, hunread⟩⟩
  · exact .inl hout
  · right
    left
    have hno : t ∉ todo := fun ht => hunread.1 (hsub t ht)
    rw [hcounts.children t, List.count_eq_zero.2 hno]
    decide
  · exact .inr (.inr (hcounts.views_ne_zero hq hunread))

theorem Guarded.keeps (h : Guarded graph t (q :: todo) s) (hq : q ∈ readsOf graph graph.nodes)
    (hu : UpdateParent graph s q s') (hheld : Held buffers graph s') : Keeps buffers graph t s s' := by
  apply hu.keeps hheld
  rcases h with hout | ⟨hw, hcounts, hunread | ⟨v, hv, hunread⟩⟩
  · exact .inl hout
  · exact .inr (.inl ⟨fun ht => hunread.1 (ht ▸ hq), hunread.2 q hq⟩)
  · exact .inr (.inr ((hcounts.update hw hq hu).views_ne_zero hv hunread))

theorem reads_of_node {i : ℕ} (hi : graph.nodes[i]? = some node) :
    ∀ q ∈ (graph.tensor node).src ++ readsOf graph (graph.nodes.drop (i + 1)), q ∈ readsOf graph graph.nodes := by
  intro q hq
  rw [← readsOf_cons, ← drop_split hi] at hq
  exact @readsOf_drop graph q 0 i (Nat.zero_le i) hq

/-- The round of a node keeps the block, and the block of the node is another one. -/
theorem allocNode_guarded {i : ℕ} (hs : Sizes buffers graph) (hself : NoSelfReuse graph)
    (hi : graph.nodes[i]? = some node) (hheld : Held buffers graph s)
    (hg : Guarded graph t (readsOf graph (graph.nodes.drop i)) s)
    (hm : allocNode buffers graph bufferId s node = .ok s') :
    Held buffers graph s' ∧ Guarded graph t (readsOf graph (graph.nodes.drop (i + 1))) s' ∧
      ∃ u, Held buffers graph u ∧ (Plain graph node → (u.hash node).allocated = true) ∧
        Keeps buffers graph t s u ∧ Keeps buffers graph t u s' := by
  have hnode := List.mem_of_getElem? hi
  have hreads := reads_of_node hi
  rw [drop_split hi, readsOf_cons] at hg
  unfold allocNode at hm
  obtain ⟨w, hw, hm⟩ := except_bind_ok.1 hm
  obtain ⟨u, hu, hm⟩ := except_bind_ok.1 hm
  have hstep : ∀ (a : ℕ) (v v' : GallocrState), InGraph graph a → Held buffers graph v →
      Guarded graph t ((graph.tensor node).src ++ readsOf graph (graph.nodes.drop (i + 1))) v →
      allocateNode buffers graph v a bufferId = .ok v' → Held buffers graph v' ∧
        Guarded graph t ((graph.tensor node).src ++ readsOf graph (graph.nodes.drop (i + 1))) v' ∧
        Keeps buffers graph t v v' ∧ (Plain graph a → (v'.hash a).allocated = true) := by
    rintro a v v' hin ⟨owned, hinv⟩ hgv hok
    obtain ⟨hheld', hcase⟩ := allocateNode_spec hs hself hin hinv hok
    have hno := hgv.allocate hreads
    exact ⟨hheld', hgv.of_counters hcase.counters,
      hcase.keeps hheld' (hno.imp_right fun h => h.imp_right Or.inl), hcase.allocated⟩
  have hparents := foldlM_steps (I := fun todo v => Held buffers graph v ∧
      (∀ a ∈ todo, a ∈ (graph.tensor node).src) ∧
      Guarded graph t ((graph.tensor node).src ++ readsOf graph (graph.nodes.drop (i + 1))) v ∧
      Keeps buffers graph t s v) ?_ ⟨hheld, fun _ h => h, hg, .refl s⟩ hw
  · obtain ⟨hheldw, -, hgw, hkeepsw⟩ := hparents
    obtain ⟨hheldu, hgu, hkeepsu, halloc⟩ := hstep node w u (.inl hnode) hheldw hgw hu
    have hupdates := foldlM_steps (I := fun todo v => Held buffers graph v ∧
        (∀ a ∈ todo, a ∈ (graph.tensor node).src) ∧
        Guarded graph t (todo ++ readsOf graph (graph.nodes.drop (i + 1))) v ∧
        Keeps buffers graph t u v) ?_ ⟨hheldu, fun _ h => h, hgu, .refl u⟩ hm
    · obtain ⟨hheld', -, hg', hkeeps'⟩ := hupdates
      exact ⟨hheld', hg', u, hheldu, halloc, hkeepsw.trans hkeepsu, hkeeps'⟩
    · rintro a todo v v' ⟨⟨owned, hinv⟩, hmem, hgv, hkeepsv⟩ hok
      have hread := hreads a (List.mem_append_left _ (hmem a List.mem_cons_self))
      obtain ⟨hheld', hupdate⟩ := updateParent_spec hs hinv hok
      exact ⟨hheld', fun b hb => hmem b (List.mem_cons_of_mem _ hb), hgv.update hread hupdate,
        hkeepsv.trans (hgv.keeps hread hupdate hheld')⟩
  · rintro a todo v v' ⟨hheldv, hmem, hgv, hkeepsv⟩ hok
    have hsrc := hmem a List.mem_cons_self
    obtain ⟨hheld', hgv', hkeeps', -⟩ := hstep a v v' (.inr (.inr ⟨node, hnode, hsrc⟩)) hheldv hgv hok
    exact ⟨hheld', fun b hb => hmem b (List.mem_cons_of_mem _ hb), hgv', hkeepsv.trans hkeeps'⟩

structure Standing (buffers : Buffers) (graph : Cgraph) (t i : ℕ) (s : GallocrState) : Prop where
  held : Held buffers graph s
  guarded : Guarded graph t (readsOf graph (graph.nodes.drop i)) s
  alive : Early graph t ∨ t ∈ graph.nodes.take i → (s.hash t).allocated = true
  apart : ∀ (j node : ℕ), j < i → graph.nodes[j]? = some node → Plain graph node → node ≠ t →
    t ∉ graph.nodes.drop j → Apart buffers graph s node t

theorem reached {i j : ℕ} (hin : Early graph t ∨ t ∈ graph.nodes) (hle : j ≤ i) (ht : t ∉ graph.nodes.drop j) :
    Early graph t ∨ t ∈ graph.nodes.take i := by
  rcases hin with hearly | hnode
  · exact .inl hearly
  · right
    rw [← List.take_append_drop j graph.nodes, List.mem_append] at hnode
    exact (List.take_subset_take_left graph.nodes hle) (hnode.resolve_right ht)

theorem Standing.step {i : ℕ} (hs : Sizes buffers graph) (hself : NoSelfReuse graph) (hplain : Plain graph t)
    (hin : Early graph t ∨ t ∈ graph.nodes) (h : Standing buffers graph t i s) (hi : graph.nodes[i]? = some node)
    (hm : allocNode buffers graph bufferId s node = .ok s') : Standing buffers graph t (i + 1) s' := by
  obtain ⟨hheld, hguarded, u, hheldu, halloc, hkeepsu, hkeeps'⟩ :=
    allocNode_guarded hs hself hi h.held h.guarded hm
  refine ⟨hheld, hguarded, ?_, ?_⟩
  · rw [take_split hi, List.mem_append, List.mem_singleton]
    rintro (hearly | hold | rfl)
    · exact hkeeps'.alive (hkeepsu.alive (h.alive (.inl hearly)))
    · exact hkeeps'.alive (hkeepsu.alive (h.alive (.inr hold)))
    · exact hkeeps'.alive (halloc hplain)
  · intro j a hj hget ha hne hreached
    have hle : j ≤ i := by omega
    have halive := h.alive (reached hin hle hreached)
    by_cases hlast : j = i
    · subst hlast
      rw [hi] at hget
      cases hget
      have halive' := hkeepsu.alive halive
      exact hkeeps'.apart node hne halive' (hheldu.apart (halloc ha) halive' hne)
    · have hlt : j < i := by omega
      exact (hkeepsu.trans hkeeps').apart a hne halive (h.apart j a hlt hget ha hne hreached)

/-! A tensor that is freed. -/

theorem AllocateNode.stays (h : AllocateNode buffers graph s node s') (hne : t ≠ node)
    (hfree : (s.hash t).allocated = false) : (s'.hash t).allocated = false := by
  cases h with
  | skip _ hs => rw [hs, hfree]
  | fresh _ _ hother _ => rw [hother t hne, hfree]
  | reuse parent _ _ _ _ hp _ _ _ _ _ hother _ _ =>
    have htp : t ≠ parent := by
      rintro rfl
      rw [hfree] at hp
      cases hp
    rw [hother t hne htp, hfree]

theorem UpdateParent.stays (h : UpdateParent graph s q s') (hfree : (s.hash t).allocated = false) :
    (s'.hash t).allocated = false := by
  rcases h.freed t with hsame | ⟨-, hfreed, -⟩
  · exact hsame.trans hfree
  · exact hfreed

/-- Once nobody reads the tensor or a view of it any more, it has no block. -/
structure Dropped (graph : Cgraph) (t : ℕ) (todo : List ℕ) (s : GallocrState) : Prop where
  own : OwnsPlain graph s
  counts : ViewCounts graph t todo s
  gone : Unread graph todo t → (s.hash t).allocated = false

theorem Dropped.update (hw : Watched graph t) (hplain : Plain graph t) (hout : (graph.tensor t).output = false)
    (hread : ∀ v ∈ viewsOf graph t graph.nodes, v ∈ readsOf graph graph.nodes)
    (h : Dropped graph t (q :: todo) s) (hq : q ∈ readsOf graph graph.nodes)
    (hm : updateParent buffers graph s q = .ok s') : Dropped graph t todo s' := by
  have hupdate := updateParent_hash hm
  have hcounts := h.counts.update hw hq hupdate
  refine ⟨hupdate.ownsPlain h.own, hcounts, fun hunread => ?_⟩
  have hchildren := hcounts.children t
  rw [List.count_eq_zero.2 hunread.1] at hchildren
  have hviews := hcounts.views
  rw [pendingViews_nil hread hunread.2] at hviews
  by_cases hq' : q = t
  · exact updateParent_frees hm hout hplain (.inl hq') hchildren hviews
  · by_cases hview : (graph.tensor q).viewSrc = some t
    · have hnot : q ∉ todo := fun hmem => hunread.2 q hmem hview
      have hone := h.counts.children q
      rw [List.count_cons_self, List.count_eq_zero.2 hnot] at hone
      exact updateParent_frees hm hout hplain (.inr ⟨hview, hone, h.counts.flat q hview⟩) hchildren hviews
    · apply hupdate.stays
      apply h.gone
      refine ⟨fun hmem => ?_, fun v hv => ?_⟩
      · exact (List.mem_cons.1 hmem).elim (fun ht => hq' ht.symm) hunread.1
      · exact (List.mem_cons.1 hv).elim (fun hvq => hvq ▸ hview) (hunread.2 v)

/-- A tensor that some node read and none reads from here on is not a node from here on. -/
theorem not_later {i : ℕ} (hw : Watched graph t) (hsome : ¬Unread graph (readsOf graph graph.nodes) t)
    (hunread : Unread graph (readsOf graph (graph.nodes.drop i)) t) : t ∉ graph.nodes.drop i := by
  have hreader : ∃ node ∈ graph.nodes, Reads graph node t := by
    by_contra hno
    apply hsome
    refine ⟨fun hmem => ?_, fun q hq hview => ?_⟩
    · obtain ⟨node, hnode, hsrc⟩ := List.mem_flatMap.1 hmem
      exact hno ⟨node, hnode, t, hsrc, .inl rfl⟩
    · obtain ⟨node, hnode, hsrc⟩ := List.mem_flatMap.1 hq
      exact hno ⟨node, hnode, q, hsrc, .inr hview⟩
  obtain ⟨node, hnode, hreads⟩ := hreader
  obtain ⟨j, hj⟩ := List.mem_iff_getElem?.1 hnode
  have hji : j < i := by
    by_contra hge
    exact unread_readsOf hunread node (mem_drop_of_getElem? (Nat.not_lt.1 hge) hj) hreads
  intro hmem
  exact hw.order _ node _ (nodes_split hj) hreads ((List.drop_sublist_drop_left graph.nodes hji).subset hmem)

theorem Dropped.step {i : ℕ} (hself : NoSelfReuse graph) (hw : Watched graph t) (hplain : Plain graph t)
    (hout : (graph.tensor t).output = false) (hsome : ¬Unread graph (readsOf graph graph.nodes) t)
    (hread : ∀ v ∈ viewsOf graph t graph.nodes, v ∈ readsOf graph graph.nodes)
    (h : Dropped graph t (readsOf graph (graph.nodes.drop i)) s) (hi : graph.nodes[i]? = some node)
    (hm : allocNode buffers graph bufferId s node = .ok s') :
    Dropped graph t (readsOf graph (graph.nodes.drop (i + 1))) s' := by
  have hnode := List.mem_of_getElem? hi
  have hreads := reads_of_node hi
  have hlater := @not_later graph t i hw hsome
  rw [drop_split hi, readsOf_cons] at h hlater
  unfold allocNode at hm
  obtain ⟨w, hw', hm⟩ := except_bind_ok.1 hm
  obtain ⟨u, hu, hm⟩ := except_bind_ok.1 hm
  have hstep : ∀ (a : ℕ) (v v' : GallocrState), InGraph graph a → a = node ∨ a ∈ (graph.tensor node).src →
      Dropped graph t ((graph.tensor node).src ++ readsOf graph (graph.nodes.drop (i + 1))) v →
      allocateNode buffers graph v a bufferId = .ok v' →
      Dropped graph t ((graph.tensor node).src ++ readsOf graph (graph.nodes.drop (i + 1))) v' := by
    intro a v v' hin ha hv hok
    have hcase := (allocateNode_hash hself hin hv.own hok).1
    refine ⟨hcase.ownsPlain hv.own, hv.counts.of_counters hcase.counters, fun hunread => ?_⟩
    apply hcase.stays _ (hv.gone hunread)
    rintro rfl
    rcases ha with rfl | hsrc
    · exact hlater hunread List.mem_cons_self
    · exact hunread.1 (List.mem_append_left _ hsrc)
  have hparents := foldlM_steps (I := fun todo v => (∀ a ∈ todo, a ∈ (graph.tensor node).src) ∧
      Dropped graph t ((graph.tensor node).src ++ readsOf graph (graph.nodes.drop (i + 1))) v) ?_
    ⟨fun _ h => h, h⟩ hw'
  · have hnodeu := hstep node w u (.inl hnode) (.inl rfl) hparents.2 hu
    have hupdates := foldlM_steps (I := fun todo v => (∀ a ∈ todo, a ∈ (graph.tensor node).src) ∧
        Dropped graph t (todo ++ readsOf graph (graph.nodes.drop (i + 1))) v) ?_ ⟨fun _ h => h, hnodeu⟩ hm
    · exact hupdates.2
    · rintro a todo v v' ⟨hmem, hv⟩ hok
      have hmem' := hreads a (List.mem_append_left _ (hmem a List.mem_cons_self))
      exact ⟨fun b hb => hmem b (List.mem_cons_of_mem _ hb), hv.update hw hplain hout hread hmem' hok⟩
  · rintro a todo v v' ⟨hmem, hv⟩ hok
    have hsrc := hmem a List.mem_cons_self
    exact ⟨fun b hb => hmem b (List.mem_cons_of_mem _ hb),
      hstep a v v' (.inr (.inr ⟨node, hnode, hsrc⟩)) (.inr hsrc) hv hok⟩

/-! The whole plan. -/

/-- What keeps an output: it has a block of its own or the flag is on its owner too, or its owner has no readers, or
has a view that is counted and that nobody reads. -/
def KeptOutput (graph : Cgraph) (t : ℕ) : Prop :=
  (graph.tensor t).viewSrc = none ∨ (graph.tensor (ownerOf graph t)).output = true ∨
    KeptByCounts graph (ownerOf graph t)

theorem preserved_of_guarded {plan : GallocrPlan} (hs : Sizes buffers graph) (hself : NoSelfReuse graph)
    (hplain : Plain graph (ownerOf graph t)) (hin : Early graph (ownerOf graph t) ∨ ownerOf graph t ∈ graph.nodes)
    (hkept : (graph.tensor (ownerOf graph t)).output = true ∨
      Watched graph (ownerOf graph t) ∧ KeptByCounts graph (ownerOf graph t))
    (h : gallocrReserveN buffers graph nodeBufferIds leafBufferIds = .ok (s, plan)) :
    Preserved buffers graph s t := by
  obtain ⟨-, u, w, hleafs, hcount, hnodes⟩ := reserve_ok h
  have hno : Untaken graph (ownerOf graph t) := hkept.imp_right fun hk => hk.1.inputs
  obtain ⟨hheld, hchildren, hviews, hearly⟩ := counted_before hs hself hno hplain hleafs hcount
  have hstart : Standing buffers graph (ownerOf graph t) 0 w := by
    refine ⟨hheld, hkept.imp_right fun hk => ⟨hk.1, viewCounts_start hk.1 hchildren hviews, hk.2⟩,
      fun ht => hearly (ht.resolve_right ?_), ?_⟩
    · simp
    · intro j node hj
      omega
  have hend : Standing buffers graph (ownerOf graph t) graph.nodes.length s :=
    foldlM_zipIdx hstart (fun i node v v' hi hv hstep => hv.step hs hself hplain hin hi hstep) hnodes
  refine ⟨hend.alive (by rwa [List.take_length]), fun i node hi hnode hne _ hreached => ?_⟩
  exact hend.apart i node (List.getElem?_eq_some_iff.1 hi).1 hi hnode hne hreached

theorem freed_of_read {plan : GallocrPlan} (hself : NoSelfReuse graph) (hw : Watched graph t)
    (hplain : Plain graph t) (hout : (graph.tensor t).output = false) (hno : ¬KeptByCounts graph t)
    (hs : Sizes buffers graph)
    (h : gallocrReserveN buffers graph nodeBufferIds leafBufferIds = .ok (s, plan)) :
    (s.hash t).allocated = false := by
  obtain ⟨-, u, w, hleafs, hcount, hnodes⟩ := reserve_ok h
  obtain ⟨hheld, hchildren, hviews, -⟩ := counted_before hs hself (.inr hw.inputs) hplain hleafs hcount
  obtain ⟨hsome, hall⟩ := not_or.1 hno
  have hread : ∀ v ∈ viewsOf graph t graph.nodes, v ∈ readsOf graph graph.nodes := by
    intro v hv
    by_contra hunread
    exact hall ⟨v, hv, hunread⟩
  have hstart : Dropped graph t (readsOf graph (graph.nodes.drop 0)) w := by
    exact ⟨hheld.ownsPlain, viewCounts_start hw hchildren hviews, fun hunread => absurd hunread hsome⟩
  have hend : Dropped graph t (readsOf graph (graph.nodes.drop graph.nodes.length)) s :=
    @foldlM_zipIdx _ _ _ (fun i v => Dropped graph t (readsOf graph (graph.nodes.drop i)) v) _ _ _ _ hstart
      (fun i node v v' hi hv hstep => hv.step hself hw hplain hout hsome hread hi hstep) hnodes
  apply hend.gone
  rw [List.drop_length]
  exact ⟨List.not_mem_nil, fun q hq => (nomatch hq)⟩

/-- An output with a block of its own is never freed and never overwritten. An output that is a view keeps its data
exactly when the block of its owner is kept for another reason. -/
theorem output_preserved_iff {plan : GallocrPlan} (hs : Sizes buffers graph) (hself : NoSelfReuse graph)
    (hout : (graph.tensor t).output = true) (hplain : Plain graph (ownerOf graph t))
    (hin : Early graph (ownerOf graph t) ∨ ownerOf graph t ∈ graph.nodes)
    (h : gallocrReserveN buffers graph nodeBufferIds leafBufferIds = .ok (s, plan)) :
    ((graph.tensor t).viewSrc = none ∨ (graph.tensor (ownerOf graph t)).output = true → Preserved buffers graph s t) ∧
      (Watched graph (ownerOf graph t) → (Preserved buffers graph s t ↔ KeptOutput graph t)) := by
  have hown : (graph.tensor t).viewSrc = none → (graph.tensor (ownerOf graph t)).output = true := by
    intro hview
    have hsame : ownerOf graph t = t := by
      unfold ownerOf
      rw [hview]
      rfl
    rw [hsame, hout]
  have hflag : (graph.tensor t).viewSrc = none ∨ (graph.tensor (ownerOf graph t)).output = true →
      Preserved buffers graph s t := fun hor => preserved_of_guarded hs hself hplain hin (.inl (hor.elim hown id)) h
  refine ⟨hflag, fun hw => ⟨fun hpreserved => ?_, ?_⟩⟩
  · by_contra hno
    obtain ⟨-, hrest⟩ := not_or.1 hno
    obtain ⟨hflagged, hcounts⟩ := not_or.1 hrest
    have hfreed := freed_of_read hself hw hplain (by simpa using hflagged) hcounts hs h
    have halive := hpreserved.1
    rw [hfreed] at halive
    cases halive
  · rintro (hview | hflagged | hcounts)
    · exact hflag (.inl hview)
    · exact hflag (.inr hflagged)
    · exact preserved_of_guarded hs hself hplain hin (.inr ⟨hw, hcounts⟩) h

/-- An output that is a view of a product and is read before the last product. -/
def readReshape : Cgraph :=
  smallGraph [smallTensor .none [], smallTensor .mulMat [0, 0],
    { smallTensor .reshape [1] with output := true, viewSrc := some 1 }, smallTensor .mulMat [2, 0],
    smallTensor .mulMat [3, 0]] [1, 2, 3, 4] [0]

theorem readReshape_tensor (t : ℕ) : (readReshape.tensor t).input = false ∧
    ggmlOpCanInplace (readReshape.tensor t).op = false ∧
    ∀ v, (readReshape.tensor t).viewSrc = some v → t = 2 ∧ v = 1 := by
  match t with
  | 0 | 1 | 3 | 4 => exact ⟨rfl, rfl, fun v hv => nomatch hv⟩
  | 2 => exact ⟨rfl, rfl, fun v hv => ⟨rfl, (Option.some.inj hv).symm⟩⟩
  | t + 5 => exact ⟨rfl, rfl, fun v hv => nomatch hv⟩

theorem readReshape_sizes : Sizes (smallBuffers fun _ => 32) readReshape :=
  ⟨fun _ _ => (by decide : 0 < 32), fun _ _ _ _ _ => (by decide : paddedOffset 32 32 < 2 ^ 63)⟩

theorem readReshape_watched : Watched readReshape 1 := by
  refine ⟨?_, ?_, by decide, ?_, ?_⟩
  · intro done node rest h _ hrest
    change [1, 2, 3, 4] = done ++ node :: rest at h
    cases done with
    | nil =>
      cases h
      revert hrest
      decide
    | cons a done =>
      have htail : [2, 3, 4] = done ++ node :: rest := (List.cons.inj h).2
      have hmem : 1 ∈ [2, 3, 4] := by
        rw [htail]
        exact List.mem_append_right _ (List.mem_cons_of_mem _ hrest)
      revert hmem
      decide
  · intro node _ _ hin
    rw [(readReshape_tensor node).1] at hin
    cases hin
  · intro q _ hview
    obtain ⟨rfl, -⟩ := (readReshape_tensor q).2.2 1 hview
    decide
  · intro q hview node hnode
    obtain ⟨rfl, -⟩ := (readReshape_tensor q).2.2 1 hview
    exact absurd ((readReshape_tensor node).2.2 2 hnode).2 (by decide)

theorem output_preserved_iff_reshape : ∃ s plan,
    gallocrReserveN (smallBuffers fun _ => 32) readReshape (fun _ => 0) (fun _ => 0) = .ok (s, plan) ∧
      ¬Preserved (smallBuffers fun _ => 32) readReshape s 2 := by
  obtain ⟨s, plan, h⟩ : ∃ s plan,
      gallocrReserveN (smallBuffers fun _ => 32) readReshape (fun _ => 0) (fun _ => 0) = .ok (s, plan) := ⟨_, _, rfl⟩
  have hself : NoSelfReuse readReshape := by
    intro t _ _ hop
    rw [(readReshape_tensor t).2.1] at hop
    cases hop
  have hiff := (output_preserved_iff readReshape_sizes hself (show (readReshape.tensor 2).output = true from rfl)
    ⟨rfl, rfl, rfl⟩ (.inr (by decide)) h).2 readReshape_watched
  refine ⟨s, plan, h, fun hpreserved => ?_⟩
  rcases hiff.1 hpreserved with hview | hflagged | hunread | ⟨q, hq, hunread⟩
  · cases hview
  · cases hflagged
  · exact hunread.1 (by decide)
  · have hall : ∀ q ∈ viewsOf readReshape 1 [1, 2, 3, 4], q ∈ readsOf readReshape [1, 2, 3, 4] := by decide
    exact hunread (hall q hq)

/-- The last product is planned onto the data of the output. -/
theorem plan_overwrites_output : ∃ s plan,
    gallocrReserveN (smallBuffers fun _ => 32) readReshape (fun _ => 0) (fun _ => 0) = .ok (s, plan) ∧
      (readReshape.tensor 2).output = true ∧ readReshape.nodes[3]? = some 4 ∧ 2 ∉ readReshape.nodes.drop 3 ∧
      tensorAlloc (smallBuffers fun _ => 32) readReshape s 4 =
        tensorAlloc (smallBuffers fun _ => 32) readReshape s (ownerOf readReshape 2) ∧
      ¬Apart (smallBuffers fun _ => 32) readReshape s 4 (ownerOf readReshape 2) := by
  have hplan : (gallocrReserveN (smallBuffers fun _ => 32) readReshape (fun _ => 0) (fun _ => 0)).map
      (fun r => (tensorAlloc (smallBuffers fun _ => 32) readReshape r.1 4,
        tensorAlloc (smallBuffers fun _ => 32) readReshape r.1 1)) =
      .ok (⟨0, some ⟨0, 32⟩, 32⟩, ⟨0, some ⟨0, 32⟩, 32⟩) := by decide +kernel
  cases hr : gallocrReserveN (smallBuffers fun _ => 32) readReshape (fun _ => 0) (fun _ => 0) with
  | error e =>
    rw [hr] at hplan
    cases hplan
  | ok r =>
    rw [hr] at hplan
    obtain ⟨hlast, howner⟩ := Prod.mk.inj (Except.ok.inj hplan)
    have hbyte : ((0, 0, 32) : ℕ × ℕ × ℕ) ∈
        (⟨0, some ⟨0, 32⟩, 32⟩ : TensorAlloc).bytes (smallBuffers fun _ => 32) :=
      ⟨_, rfl, rfl, rfl, by decide, by decide⟩
    refine ⟨r.1, r.2, rfl, rfl, rfl, by decide, hlast.trans howner.symm, fun hapart => ?_⟩
    rw [← hlast] at hbyte
    have hother := hbyte
    rw [hlast, ← howner] at hother
    exact Set.disjoint_left.1 hapart hbyte hother

end PyannoteCpp.Gallocr
