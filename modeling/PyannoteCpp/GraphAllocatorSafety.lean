import PyannoteCpp.GraphAllocatorCounts

set_option autoImplicit false

/-!
# Plans keep what is still to be read

While the nodes are allocated, the counters say how often each tensor is still
read and how many of its views are. A tensor loses its block when both are zero,
or to the node that reads it last, and gets no second block: its address in the
plan is the one it has while it is alive.
-/
namespace PyannoteCpp.Gallocr

open Tallocr PrefixGrammar CheckedLoops

variable {buffers : Buffers} {graph : Cgraph} {s s' u : GallocrState} {node t q : ℕ} {todo rest : List ℕ}

/-- Neither the tensor nor a view of it is among the sources. -/
def Unread (graph : Cgraph) (todo : List ℕ) (t : ℕ) : Prop :=
  t ∉ todo ∧ ∀ q ∈ todo, (graph.tensor q).viewSrc ≠ some t

theorem unread_readsOf (h : Unread graph (readsOf graph rest) t) : ∀ n ∈ rest, ¬Reads graph n t := by
  rintro n hn ⟨src, hsrc, rfl | hview⟩
  · exact h.1 (List.mem_flatMap.2 ⟨n, hn, hsrc⟩)
  · exact h.2 src (List.mem_flatMap.2 ⟨n, hn, hsrc⟩) hview

theorem Unread.right {xs ys : List ℕ} (h : Unread graph (xs ++ ys) t) : Unread graph ys t :=
  ⟨fun ht => h.1 (List.mem_append_right _ ht), fun q hq => h.2 q (List.mem_append_right _ hq)⟩

theorem mem_pendingViews (hw : Regular graph) (ht : Plain graph t) (hsub : ∀ q ∈ todo, q ∈ readsOf graph graph.nodes)
    (hq : q ∈ todo) (hview : (graph.tensor q).viewSrc = some t) : q ∈ pendingViews graph t todo := by
  obtain ⟨n, hn, hsrc⟩ := List.mem_flatMap.1 (hsub q hq)
  obtain ⟨hnode, hop⟩ := hw.counted n hn q hsrc t hview ht
  exact List.mem_filter.2 ⟨List.mem_filter.2 ⟨hnode, by simp [IsView, hview, hop]⟩, by simp [hq]⟩

theorem noViews_of_counts (hw : Regular graph) (hc : Counts graph todo s) (ht : Plain graph t)
    (hsub : ∀ q ∈ todo, q ∈ readsOf graph graph.nodes) (hzero : (s.hash t).nViews = 0) :
    ∀ q ∈ todo, (graph.tensor q).viewSrc ≠ some t := by
  intro q hq hview
  have hmem := mem_pendingViews hw ht hsub hq hview
  have hle := hc.views t ht
  have hpos := List.length_pos_of_mem hmem
  omega

theorem unread_of_counts (hw : Regular graph) (hc : Counts graph todo s) (ht : Plain graph t)
    (hsub : ∀ q ∈ todo, q ∈ readsOf graph graph.nodes) (hchildren : (s.hash t).nChildren = 0)
    (hviews : (s.hash t).nViews = 0) : Unread graph todo t := by
  refine ⟨?_, noViews_of_counts hw hc ht hsub hviews⟩
  have hcount := hc.children t
  rw [hchildren] at hcount
  exact List.count_eq_zero.1 (by omega)

theorem Counts.updateParent (hw : Regular graph) (hc : Counts graph (q :: todo) s)
    (hq : q ∈ readsOf graph graph.nodes) (h : UpdateParent graph s q s') : Counts graph todo s' := by
  refine ⟨?_, ?_⟩
  · intro t
    have hcount := hc.children t
    rw [List.count_cons] at hcount
    rw [h.children t, hcount]
    by_cases ht : t = q
    · subst ht
      simp
    · simp [ht, Ne.symm ht]
  · intro v hv
    have hold := hc.views v hv
    have hsplit : pendingViews graph v todo = (pendingViews graph v (q :: todo)).filter
        (fun n => n ∈ todo ∨ n ∉ readsOf graph graph.nodes) := by
      unfold pendingViews
      rw [List.filter_filter]
      apply List.filter_congr
      intro n _
      by_cases hn : n ∈ todo
      · simp [hn]
      · by_cases hr : n ∈ readsOf graph graph.nodes <;> simp [hn, hr]
    rw [h.views v]
    split_ifs with hdone
    · obtain ⟨hview, hone, -⟩ := hdone
      have hnot : q ∉ todo := by
        have hcount := hc.children q
        rw [hone, List.count_cons_self] at hcount
        exact List.count_eq_zero.1 (by omega)
      obtain ⟨n, hn, hsrc⟩ := List.mem_flatMap.1 hq
      obtain ⟨hnode, hop⟩ := hw.counted n hn q hsrc v hview hv
      have hmem : q ∈ pendingViews graph v (q :: todo) :=
        List.mem_filter.2 ⟨List.mem_filter.2 ⟨hnode, by simp [IsView, hview, hop]⟩, by simp⟩
      have hlt : (pendingViews graph v todo).length < (pendingViews graph v (q :: todo)).length := by
        rw [hsplit]
        exact List.length_filter_lt_length_iff_exists.2 ⟨q, hmem, by simp [hnot, hq]⟩
      omega
    · have hle : (pendingViews graph v todo).length ≤ (pendingViews graph v (q :: todo)).length := by
        rw [hsplit]
        exact List.length_filter_le _ _
      omega

/-- A tensor that is not handled any more: no node to come, and not read by one. -/
def Finished (graph : Cgraph) (rest : List ℕ) (t : ℕ) : Prop := t ∉ rest ∧ ∀ n ∈ rest, ¬Reads graph n t

def Settled (graph : Cgraph) (s : GallocrState) (rest : List ℕ) (t : ℕ) : Prop :=
  (s.hash t).allocated = true ∨ Finished graph rest t

def SamePlace (s s' : GallocrState) (t : ℕ) : Prop :=
  (s'.hash t).bufferId = (s.hash t).bufferId ∧ (s'.hash t).addr = (s.hash t).addr

/-- The loop over the parents of a node: what held memory still does, or is finished. -/
theorem updateParents_spec (hs : Sizes buffers graph) (hw : Regular graph) {done : List ℕ}
    (hnodes : graph.nodes = done ++ node :: rest) (hheld : Held buffers graph u)
    (hc : Counts graph ((graph.tensor node).src ++ readsOf graph rest) u)
    (hm : (graph.tensor node).src.foldlM (updateParent buffers graph) u = .ok s') :
    Held buffers graph s' ∧ Counts graph (readsOf graph rest) s' ∧ (∀ t, SamePlace u s' t) ∧
      ∀ t, Settled graph u rest t → Settled graph s' rest t := by
  have hreads : ∀ q ∈ (graph.tensor node).src ++ readsOf graph rest, q ∈ readsOf graph graph.nodes := by
    intro q hq
    rw [hnodes]
    unfold readsOf at hq ⊢
    rw [List.flatMap_append, List.flatMap_cons]
    exact List.mem_append_right _ hq
  have hrun := foldlM_steps (I := fun todo w => Held buffers graph w ∧ Counts graph (todo ++ readsOf graph rest) w ∧
      (∀ q ∈ todo, q ∈ (graph.tensor node).src) ∧ (∀ t, SamePlace u w t) ∧
      ∀ t, (u.hash t).allocated = true → (w.hash t).allocated = true ∨
        t ∉ rest ∧ Unread graph (todo ++ readsOf graph rest) t) ?_
    ⟨hheld, hc, fun q hq => hq, fun t => ⟨rfl, rfl⟩, fun t ht => .inl ht⟩ hm
  · obtain ⟨hheld', hc', -, hplace, hkept⟩ := hrun
    refine ⟨hheld', hc', hplace, ?_⟩
    rintro t (ht | ht)
    · rcases hkept t ht with hold | ⟨hrest, hunread⟩
      · exact .inl hold
      · exact .inr ⟨hrest, unread_readsOf hunread⟩
    · exact .inr ht
  · rintro q todo w w' ⟨⟨owned, hinv⟩, hcw, hmem, hplace, hkept⟩ hstep
    have hsrc := hmem q List.mem_cons_self
    have hsub : ∀ p ∈ q :: (todo ++ readsOf graph rest), p ∈ readsOf graph graph.nodes := by
      intro p hp
      rcases List.mem_cons.1 hp with rfl | hp
      · exact hreads p (List.mem_append_left _ hsrc)
      · rcases List.mem_append.1 hp with hp | hp
        · exact hreads p (List.mem_append_left _ (hmem p (List.mem_cons_of_mem _ hp)))
        · exact hreads p (List.mem_append_right _ hp)
    obtain ⟨hheld', hupdate⟩ := updateParent_spec hs hinv hstep
    have hcw' := Counts.updateParent hw hcw (hsub q List.mem_cons_self) hupdate
    refine ⟨hheld', hcw', fun p hp => hmem p (List.mem_cons_of_mem _ hp), fun t => ?_, fun t ht => ?_⟩
    · exact ⟨(hupdate.place t).1.trans (hplace t).1, (hupdate.place t).2.trans (hplace t).2⟩
    · rcases hkept t ht with hold | ⟨hrest, hunread⟩
      · rcases hupdate.freed t with hsame | ⟨htouched, -, -, hchildren, hviews⟩
        · exact .inl (hsame.trans hold)
        · have hplain := (hinv.plain t ((hinv.mem t).2 hold)).2
          have hunread := unread_of_counts hw hcw' hplain (fun p hp => hsub p (List.mem_cons_of_mem _ hp))
            hchildren hviews
          have horder := hw.order done node rest hnodes q hsrc
          refine .inr ⟨?_, hunread⟩
          rcases htouched with rfl | hview
          · exact horder.1
          · exact horder.2 t hview
      · exact .inr ⟨hrest, @Unread.right graph t [q] _ hunread⟩

theorem AllocateNode.eq_of_available (h : AllocateNode buffers graph s node s')
    (ha : Plain graph node → (s.hash node).allocated = true) : s' = s := by
  cases h with
  | skip _ hs => exact hs
  | fresh hplain hno => simp [ha hplain] at hno
  | reuse _ hplain hno => simp [ha hplain] at hno

/-- The loop that allocates the parents of a node, and the node: only the node is left to allocate. -/
theorem allocateParents_spec {bufferId : ℤ} (hs : Sizes buffers graph) (hself : NoSelfReuse graph)
    (hnode : node ∈ graph.nodes) (hheld : Held buffers graph s)
    (havailable : ∀ q ∈ (graph.tensor node).src, q ≠ node → Plain graph q → (s.hash q).allocated = true)
    (hm : (graph.tensor node).src.foldlM (fun s parent => allocateNode buffers graph s parent bufferId) s = .ok u)
    (hm' : allocateNode buffers graph u node bufferId = .ok s') :
    Held buffers graph s' ∧ AllocateNode buffers graph s node s' := by
  -- a node that is its own source is allocated on the way
  have hrun := foldlM_steps (I := fun todo w => Held buffers graph w ∧ (∀ q ∈ todo, q ∈ (graph.tensor node).src) ∧
      (w = s ∨ node ∈ (graph.tensor node).src ∧ AllocateNode buffers graph s node w)) ?_
    ⟨hheld, fun q hq => hq, .inl rfl⟩ hm
  · obtain ⟨⟨owned, hinv⟩, -, hcase⟩ := hrun
    obtain ⟨hheld', hlast⟩ := allocateNode_spec hs hself (.inl hnode) hinv hm'
    refine ⟨hheld', ?_⟩
    rcases hcase with rfl | ⟨-, hfirst⟩
    · exact hlast
    · rw [hlast.eq_of_available hfirst.allocated]
      exact hfirst
  · rintro q todo w w' ⟨⟨owned, hinv⟩, hmem, hcase⟩ hstep
    have hsrc := hmem q List.mem_cons_self
    obtain ⟨hheld', hq⟩ := allocateNode_spec hs hself (.inr (.inr ⟨node, hnode, hsrc⟩)) hinv hstep
    refine ⟨hheld', fun p hp => hmem p (List.mem_cons_of_mem _ hp), ?_⟩
    by_cases heq : q = node
    · subst heq
      rcases hcase with rfl | ⟨hin, hfirst⟩
      · exact .inr ⟨hsrc, hq⟩
      · rw [hq.eq_of_available hfirst.allocated]
        exact .inr ⟨hin, hfirst⟩
    · have hkept : Plain graph q → (w.hash q).allocated = true := by
        intro hplain
        have hold := havailable q hsrc heq hplain
        rcases hcase with rfl | ⟨hin, hfirst⟩
        · exact hold
        · cases hfirst with
          | skip _ hw => rw [hw, hold]
          | fresh _ _ hother => rw [hother q heq, hold]
          | reuse _ hpnode _ hop => exact absurd hin (hself node (.inl hnode) hpnode hop)
      rw [hq.eq_of_available hkept]
      exact hcase

/-- The nodes that are planned, those to come, and the tensors that are alive between them. -/
structure Planning (buffers : Buffers) (graph : Cgraph) (done rest : List ℕ) (s : GallocrState) : Prop where
  nodes : graph.nodes = done ++ rest
  held : Held buffers graph s
  counts : Counts graph (readsOf graph rest) s
  available : ∀ t, Plain graph t → Early graph t ∨ t ∈ done → Settled graph s rest t

theorem Finished.tail (h : Finished graph (node :: rest) t) : Finished graph rest t :=
  ⟨fun ht => h.1 (List.mem_cons_of_mem _ ht), fun n hn => h.2 n (List.mem_cons_of_mem _ hn)⟩

/-- A block is taken over from a parent nobody reads after the node. -/
theorem reused_finished (hw : Regular graph) {done : List ℕ} (h : Planning buffers graph done (node :: rest) s)
    {parent : ℕ} (hsrc : parent ∈ (graph.tensor node).src) (hplain : Plain graph parent)
    (hone : (s.hash parent).nChildren = 1) (hviews : (s.hash parent).nViews = 0) : Finished graph rest parent := by
  have hc := h.counts
  rw [readsOf_cons] at hc
  have hsub : ∀ q ∈ (graph.tensor node).src ++ readsOf graph rest, q ∈ readsOf graph graph.nodes := by
    intro q hq
    rw [h.nodes]
    unfold readsOf at hq ⊢
    rw [List.flatMap_append, List.flatMap_cons]
    exact List.mem_append_right _ hq
  have hcount := hc.children parent
  rw [hone, List.count_append] at hcount
  have hpos := List.count_pos_iff.2 hsrc
  have hunread : Unread graph (readsOf graph rest) parent := by
    refine ⟨List.count_eq_zero.1 (by omega), fun q hq => ?_⟩
    exact noViews_of_counts hw hc hplain hsub hviews q (List.mem_append_right _ hq)
  exact ⟨(hw.order done node rest h.nodes parent hsrc).1, unread_readsOf hunread⟩

theorem allocated_settled (hw : Regular graph) {done : List ℕ} (h : Planning buffers graph done (node :: rest) s)
    (hcase : AllocateNode buffers graph s node u) (ht : Settled graph s (node :: rest) t) :
    SamePlace s u t ∧ Settled graph u rest t := by
  have hsame : u.hash t = s.hash t → SamePlace s u t ∧ Settled graph u rest t := by
    intro he
    refine ⟨⟨by rw [he], by rw [he]⟩, ?_⟩
    rcases ht with hold | hfinished
    · exact .inl (by rw [he, hold])
    · exact .inr hfinished.tail
  cases hcase with
  | skip _ hu =>
    subst hu
    exact hsame rfl
  | fresh _ hno hother =>
    have hne : t ≠ node := by
      rintro rfl
      rcases ht with hold | hfinished
      · simp [hold] at hno
      · exact hfinished.1 List.mem_cons_self
    exact hsame (hother t hne)
  | reuse parent _ hno _ hsrc hp _ _ hone hviews _ hother hparent =>
    have hne : t ≠ node := by
      rintro rfl
      rcases ht with hold | hfinished
      · simp [hold] at hno
      · exact hfinished.1 List.mem_cons_self
    by_cases htp : t = parent
    · subst htp
      obtain ⟨owned, hinv⟩ := h.held
      have hplain := (hinv.plain t ((hinv.mem t).2 hp)).2
      exact ⟨⟨by rw [hparent]; rfl, by rw [hparent]; rfl⟩, .inr (reused_finished hw h hsrc hplain hone hviews)⟩
    · exact hsame (hother t hne htp)

theorem allocNode_spec {bufferId : ℤ} (hs : Sizes buffers graph) (hself : NoSelfReuse graph) (hw : Regular graph)
    {done : List ℕ} (h : Planning buffers graph done (node :: rest) s)
    (hm : allocNode buffers graph bufferId s node = .ok s') :
    Planning buffers graph (done ++ [node]) rest s' ∧
      ∃ u, Held buffers graph u ∧ AllocateNode buffers graph s node u ∧ (∀ t, SamePlace u s' t) ∧
        ∀ t, Settled graph u rest t → Settled graph s' rest t := by
  have hnode : node ∈ graph.nodes := by
    rw [h.nodes]
    exact List.mem_append_right _ List.mem_cons_self
  unfold allocNode at hm
  obtain ⟨w, hw1, hm⟩ := except_bind_ok.1 hm
  obtain ⟨u, hu, hm⟩ := except_bind_ok.1 hm
  have havailable : ∀ q ∈ (graph.tensor node).src, q ≠ node → Plain graph q → (s.hash q).allocated = true := by
    intro q hq hne hplain
    have hread : ¬Finished graph (node :: rest) q := fun hf => hf.2 node List.mem_cons_self ⟨q, hq, .inl rfl⟩
    have horder := (hw.order done node rest h.nodes q hq).1
    have hearly : Early graph q ∨ q ∈ done := by
      rcases hw.listed node hnode q hq hplain with hnodes | hleaf | hin
      · rw [h.nodes] at hnodes
        rcases List.mem_append.1 hnodes with hdone | hrest
        · exact .inr hdone
        · rcases List.mem_cons.1 hrest with heq | hrest
          · exact absurd heq hne
          · exact absurd hrest horder
      · exact .inl (.inl hleaf)
      · exact .inl (.inr ⟨hin, .inr (List.mem_flatMap.2 ⟨node, hnode, hq⟩)⟩)
    exact (h.available q hplain hearly).resolve_right hread
  obtain ⟨hheldu, hcase⟩ := allocateParents_spec hs hself hnode h.held havailable hw1 hu
  have hcu : Counts graph ((graph.tensor node).src ++ readsOf graph rest) u := by
    have hc := h.counts
    rw [readsOf_cons] at hc
    refine ⟨fun t => ?_, fun v hv => ?_⟩
    · rw [(hcase.counters t).1, hc.children t]
    · rw [(hcase.counters v).2]
      exact hc.views v hv
  obtain ⟨hheld', hc', hplace, hsettled⟩ := updateParents_spec hs hw h.nodes hheldu hcu hm
  refine ⟨⟨?_, hheld', hc', ?_⟩, u, hheldu, hcase, hplace, hsettled⟩
  · rw [h.nodes, List.append_assoc, List.singleton_append]
  · intro t hplain hearly
    apply hsettled t
    by_cases ht : t = node
    · subst ht
      exact .inl (hcase.allocated hplain)
    · have hold : Early graph t ∨ t ∈ done := by
        rcases hearly with hearly | hdone
        · exact .inl hearly
        · rcases List.mem_append.1 hdone with hdone | hlast
          · exact .inr hdone
          · exact absurd (List.mem_singleton.1 hlast) ht
      exact (allocated_settled hw h hcase (h.available t hplain hold)).2

/-- The nodes to come move no tensor that is alive or finished. -/
theorem planning_run {nodeBufferIds : ℕ → ℤ} (hs : Sizes buffers graph) (hself : NoSelfReuse graph)
    (hw : Regular graph) {post : List (ℕ × ℕ)} {done : List ℕ}
    (h : Planning buffers graph done (post.map Prod.fst) s) (ht : Settled graph s (post.map Prod.fst) t)
    (hm : post.foldlM (fun s p => allocNode buffers graph (nodeBufferIds p.2) s p.1) s = .ok s') :
    SamePlace s s' t := by
  have hrun := foldlM_steps (I := fun rest w => ∃ done, Planning buffers graph done (rest.map Prod.fst) w ∧
      Settled graph w (rest.map Prod.fst) t ∧ SamePlace s w t) ?_ ⟨done, h, ht, rfl, rfl⟩ hm
  · obtain ⟨_, -, -, hplace⟩ := hrun
    exact hplace
  · rintro p rest w w' ⟨done, hplanning, hsettled, hplace⟩ hstep
    obtain ⟨hplanning', u, -, hcase, hplaceu, hkept⟩ := allocNode_spec hs hself hw hplanning hstep
    obtain ⟨hsame, hsettledu⟩ := allocated_settled hw hplanning hcase hsettled
    refine ⟨_, hplanning', hkept t hsettledu, ?_⟩
    exact ⟨(hplaceu t).1.trans (hsame.1.trans hplace.1), (hplaceu t).2.trans (hsame.2.trans hplace.2)⟩

/-- Buffer type, chunk and offset of each byte the plan gives to a tensor. -/
def TensorAlloc.bytes (buffers : Buffers) (a : TensorAlloc) : Set (ℕ × ℕ × ℕ) :=
  {x | ∃ addr, a.addr = some addr ∧ buffers.bufts[a.bufferId.toNat]? = some x.1 ∧ x.2.1 = addr.chunk ∧
    addr.offset ≤ x.2.2 ∧ x.2.2 < addr.offset + a.sizeMax}

theorem tensorAlloc_plain (h : Plain graph t) : tensorAlloc buffers graph s t =
    ⟨(s.hash t).bufferId, some (s.hash t).addr,
      ((buffers.bufts[(s.hash t).bufferId]?).map (fun buft => buffers.allocSize buft t)).getD 0⟩ := by
  unfold tensorAlloc
  rw [if_neg]
  rw [h.1, h.2.1]
  simp

/-- Tensors that hold memory at the same time hold different bytes. -/
theorem held_disjoint (h : Held buffers graph u) {a b : ℕ} (ha : (u.hash a).allocated = true)
    (hb : (u.hash b).allocated = true) (hne : a ≠ b) (hsa : SamePlace u s a) (hsb : SamePlace u s b) :
    Disjoint ((tensorAlloc buffers graph s a).bytes buffers) ((tensorAlloc buffers graph s b).bytes buffers) := by
  obtain ⟨owned, hinv⟩ := h
  have hma := (hinv.mem a).2 ha
  have hmb := (hinv.mem b).2 hb
  have hperm : owned.Perm (a :: b :: (owned.erase a).erase b) :=
    (List.perm_cons_erase hma).trans ((List.perm_cons_erase ((List.mem_erase_of_ne hne.symm).2 hmb)).cons a)
  have hfront := hinv.perm hperm
  rw [tensorAlloc_plain (hinv.plain a hma).2, tensorAlloc_plain (hinv.plain b hmb).2]
  apply Set.disjoint_left.2
  rintro ⟨buft, chunk, x⟩ ⟨_, ha1, hba, hca, hla, hua⟩ ⟨_, hb1, hbb, hcb, hlb, hub⟩
  cases ha1
  cases hb1
  simp only [Int.toNat_natCast] at hba hbb hca hcb hla hlb hua hub
  rw [hba] at hua
  rw [hbb] at hub
  rw [hsa.1] at hba
  rw [hsb.1] at hbb
  simp only [hsa.2, hsb.2, Option.map_some, Option.getD_some] at hca hcb hla hlb hua hub
  have hlive := hfront.tallocs buft
  rw [liveOn_cons_self buffers hba, liveOn_cons_self buffers hbb] at hlive
  have hplaced := hlive.placed _ List.mem_cons_self
  have hchunk := hlive.chunks _ _ (List.getElem?_eq_getElem hplaced)
  have hcab : (liveRange buffers u.hash buft b).chunk = (liveRange buffers u.hash buft a).chunk := by
    change (u.hash b).addr.chunk = (u.hash a).addr.chunk
    rw [← hca, hcb]
  have hsecond := liveIn_cons_self (liveRange buffers u.hash buft b)
    (liveOn buffers u.hash ((owned.erase a).erase b) buft)
  rw [hcab] at hsecond
  rw [liveIn_cons_self, hsecond] at hchunk
  have hdisjoint := hchunk.blocks.packed.right.disjoint
  have hxa : x ∈ (liveRange buffers u.hash buft a).range.points := by
    have hle := le_paddedOffset (buffers.allocSize buft a) (buffers.alignment buft)
    exact ⟨hla, hua.trans_le (Nat.add_le_add_left hle _)⟩
  have hxb : x ∈ (liveRange buffers u.hash buft b).range.points := by
    have hle := le_paddedOffset (buffers.allocSize buft b) (buffers.alignment buft)
    exact ⟨hlb, hub.trans_le (Nat.add_le_add_left hle _)⟩
  exact Set.disjoint_left.1 hdisjoint hxa hxb

theorem reserve_ok {nodeBufferIds leafBufferIds : ℕ → ℤ} {plan : GallocrPlan}
    (h : gallocrReserveN buffers graph nodeBufferIds leafBufferIds = .ok (s, plan)) :
    plan = planOf buffers graph s ∧ ∃ u w,
      graph.leafs.zipIdx.foldlM (fun s p => allocateNode buffers graph s p.1 (leafBufferIds p.2)) (emptyState buffers) =
        .ok u ∧
      graph.nodes.zipIdx.foldlM (fun s p => countNode buffers graph (nodeBufferIds p.2) s p.1) u = .ok w ∧
      graph.nodes.zipIdx.foldlM (fun s p => allocNode buffers graph (nodeBufferIds p.2) s p.1) w = .ok s := by
  unfold gallocrReserveN at h
  obtain ⟨v, hv, h⟩ := except_bind_ok.1 h
  cases h
  unfold allocGraphImpl at hv
  obtain ⟨u, hu, hv⟩ := except_bind_ok.1 hv
  obtain ⟨w, hw, hv⟩ := except_bind_ok.1 hv
  exact ⟨rfl, u, w, hu, hw, hv⟩

/-- The rounds before a node, its own round, and the rounds after it. -/
theorem planning_at {nodeBufferIds leafBufferIds : ℕ → ℤ} {plan : GallocrPlan} (hs : Sizes buffers graph)
    (hself : NoSelfReuse graph) (hw : Regular graph)
    (h : gallocrReserveN buffers graph nodeBufferIds leafBufferIds = .ok (s, plan)) {i : ℕ}
    (hi : graph.nodes[i]? = some node) :
    ∃ (before after : GallocrState) (post : List (ℕ × ℕ)), post.map Prod.fst = graph.nodes.drop (i + 1) ∧
      Planning buffers graph (graph.nodes.take i) (node :: graph.nodes.drop (i + 1)) before ∧
      allocNode buffers graph (nodeBufferIds i) before node = .ok after ∧
      post.foldlM (fun s p => allocNode buffers graph (nodeBufferIds p.2) s p.1) after = .ok s := by
  obtain ⟨-, u, w, hu, hcount, hrun⟩ := reserve_ok h
  obtain ⟨hheldu, hzero, hleafs⟩ := leafs_spec hs hself hu
  obtain ⟨hheld, hcounts, hearly⟩ := counting_spec hs hself hw hheldu hzero hleafs hcount
  obtain ⟨hlt, hget⟩ := List.getElem?_eq_some_iff.1 hi
  have hsplit : graph.nodes = graph.nodes.take i ++ node :: graph.nodes.drop (i + 1) := by
    rw [← hget, List.cons_getElem_drop_succ, List.take_append_drop]
  have hlen : (graph.nodes.take i).length = i := by
    rw [List.length_take]
    omega
  have hzip : graph.nodes.zipIdx = (graph.nodes.take i).zipIdx ++
      (node, i) :: (graph.nodes.drop (i + 1)).zipIdx (i + 1) := by
    conv_lhs => rw [hsplit]
    rw [List.zipIdx_append, hlen, Nat.zero_add, List.zipIdx_cons]
  rw [hzip, List.foldlM_append] at hrun
  obtain ⟨before, hbefore, hrun⟩ := except_bind_ok.1 hrun
  rw [List.foldlM_cons] at hrun
  obtain ⟨after, hafter, hrun⟩ := except_bind_ok.1 hrun
  refine ⟨before, after, _, by simp, ?_, hafter, hrun⟩
  have hstart : Planning buffers graph [] graph.nodes w :=
    ⟨rfl, hheld, hcounts, fun t hplain ht => .inl (hearly t hplain (ht.resolve_right (by simp)))⟩
  have hrounds := foldlM_steps (I := fun rest v => ∃ done, done ++ rest.map Prod.fst = graph.nodes.take i ∧
      Planning buffers graph done (rest.map Prod.fst ++ node :: graph.nodes.drop (i + 1)) v)
    ?_ ⟨[], by simp, by simpa [← hsplit] using hstart⟩ hbefore
  · obtain ⟨done, hdone, hplanning⟩ := hrounds
    rw [List.map_nil, List.append_nil] at hdone
    subst hdone
    exact hplanning
  · rintro p rest v v' ⟨done, hdone, hplanning⟩ hstep
    rw [List.map_cons] at hdone hplanning
    exact ⟨done ++ [p.1], by rw [← hdone, List.append_assoc, List.singleton_append],
      (allocNode_spec hs hself hw hplanning hstep).1⟩

/-- The node works in place: it takes the start of the range of a source of its layout that it reads last. -/
def TakesPlace (buffers : Buffers) (graph : Cgraph) (s : GallocrState) (i node t : ℕ) : Prop :=
  ggmlOpCanInplace (graph.tensor node).op = true ∧ t ∈ (graph.tensor node).src ∧
    ggmlAreSameLayout (graph.tensor node) (graph.tensor t) = true ∧
    (tensorAlloc buffers graph s node).bufferId = (tensorAlloc buffers graph s t).bufferId ∧
    (tensorAlloc buffers graph s node).addr = (tensorAlloc buffers graph s t).addr ∧
    (tensorAlloc buffers graph s node).sizeMax ≤ (tensorAlloc buffers graph s t).sizeMax ∧
    ∀ k reader, i < k → graph.nodes[k]? = some reader → ¬Reads graph reader t

theorem at_or_behind {l : List ℕ} {i k a b : ℕ} (hi : l[i]? = some a) (hk : l[k]? = some b) (hle : i ≤ k) :
    b ∈ a :: l.drop (i + 1) := by
  rw [← (List.getElem?_eq_some_iff.1 hi).2, List.cons_getElem_drop_succ]
  apply List.mem_of_getElem? (i := k - i)
  rw [List.getElem?_drop, Nat.add_sub_cancel' hle, hk]

/-- When a node is written, its bytes are not those of what it or a node behind it reads, or it works in place. -/
theorem written_apart {nodeBufferIds leafBufferIds : ℕ → ℤ} {plan : GallocrPlan} (hs : Sizes buffers graph)
    (hself : NoSelfReuse graph) (hw : Regular graph)
    (h : gallocrReserveN buffers graph nodeBufferIds leafBufferIds = .ok (s, plan)) {i reader : ℕ}
    (hi : graph.nodes[i]? = some node) (hnode : Plain graph node) (ht : Plain graph t) (hne : t ≠ node)
    (halive : Early graph t ∨ t ∈ graph.nodes.take i) (hmem : reader ∈ node :: graph.nodes.drop (i + 1))
    (hread : Reads graph reader t) :
    Disjoint ((tensorAlloc buffers graph s node).bytes buffers) ((tensorAlloc buffers graph s t).bytes buffers) ∨
      TakesPlace buffers graph s i node t := by
  obtain ⟨before, after, post, hpost, hplanning, hstep, hrun⟩ := planning_at hs hself hw h hi
  obtain ⟨hplanning', u, hheldu, hcase, hplaceu, hsettledu⟩ := allocNode_spec hs hself hw hplanning hstep
  have hlive : (before.hash t).allocated = true :=
    (hplanning.available t ht halive).resolve_right fun hf => hf.2 reader hmem hread
  obtain ⟨hsamet, hsettledt⟩ := allocated_settled hw hplanning hcase (.inl hlive)
  have hnodeu := hcase.allocated hnode
  -- what is alive after the node was allocated keeps its place to the end
  have hend : ∀ a, Settled graph u (graph.nodes.drop (i + 1)) a → SamePlace u s a := by
    intro a ha
    have hlast := planning_run hs hself hw (hpost ▸ hplanning') (hpost ▸ hsettledu a ha) hrun
    exact ⟨hlast.1.trans (hplaceu a).1, hlast.2.trans (hplaceu a).2⟩
  by_cases hheldt : (u.hash t).allocated = true
  · exact .inl (held_disjoint hheldu hnodeu hheldt hne.symm (hend node (.inl hnodeu)) (hend t (.inl hheldt)))
  · right
    have hplacen := hend node (.inl hnodeu)
    have hplacet := hend t hsettledt
    cases hcase with
    | skip _ hu => exact absurd (hu ▸ hlive) hheldt
    | fresh _ _ hother => exact absurd ((hother t hne).symm ▸ hlive) hheldt
    | reuse parent _ _ hop hsrc _ _ hlayout hone hviews hsize hother hparent hnode' =>
      have htp : t = parent := by
        by_contra htp
        exact hheldt ((hother t hne htp).symm ▸ hlive)
      subst htp
      have hfinished := reused_finished hw hplanning hsrc ht hone hviews
      obtain ⟨buft, hb, hle'⟩ := hsize
      have hids : (s.hash node).bufferId = (before.hash t).bufferId ∧ (s.hash node).addr = (before.hash t).addr := by
        rw [hplacen.1, hplacen.2, hnode']
        exact ⟨rfl, rfl⟩
      have hidt : (s.hash t).bufferId = (before.hash t).bufferId ∧ (s.hash t).addr = (before.hash t).addr :=
        ⟨hplacet.1.trans hsamet.1, hplacet.2.trans hsamet.2⟩
      change buffers.bufts[(before.hash t).bufferId]? = some buft at hb
      unfold TakesPlace
      rw [tensorAlloc_plain hnode, tensorAlloc_plain ht]
      simp only [hids.1, hids.2, hidt.1, hidt.2, hb, Option.map_some, Option.getD_some]
      refine ⟨hop, hsrc, hlayout, trivial, trivial, hle', ?_⟩
      intro j later hj hlater
      apply hfinished.2 later
      apply List.mem_of_getElem? (i := j - (i + 1))
      rw [List.getElem?_drop, Nat.add_sub_cancel' hj, hlater]

/-- When a node is written, its bytes are not those of a leaf, an input or an earlier node that is still read. -/
theorem plan_live_range_safe {nodeBufferIds leafBufferIds : ℕ → ℤ} {plan : GallocrPlan} (hs : Sizes buffers graph)
    (hself : NoSelfReuse graph) (hw : Regular graph)
    (h : gallocrReserveN buffers graph nodeBufferIds leafBufferIds = .ok (s, plan)) {i k reader : ℕ}
    (hi : graph.nodes[i]? = some node) (hnode : Plain graph node) (ht : Plain graph t) (hne : t ≠ node)
    (halive : Early graph t ∨ t ∈ graph.nodes.take i) (hk : graph.nodes[k]? = some reader) (hle : i ≤ k)
    (hread : Reads graph reader t) :
    Disjoint ((tensorAlloc buffers graph s node).bytes buffers) ((tensorAlloc buffers graph s t).bytes buffers) ∨
      TakesPlace buffers graph s i node t := by
  exact written_apart hs hself hw h hi hnode ht hne halive (at_or_behind hi hk hle) hread

def smallTensor (op : GgmlOp) (src : List ℕ) : Tensor :=
  ⟨.f32, ⟨8, 1, 1, 1⟩, ⟨4, 32, 32, 32⟩, op, false, false, src, none, 0, none, false⟩

def smallGraph (tensors : List Tensor) (nodes leafs : List ℕ) : Cgraph :=
  ⟨fun t => tensors.getD t (smallTensor .none []), nodes, leafs⟩

def smallBuffers (size : ℕ → ℕ) : Buffers := ⟨[0], fun _ => 32, fun _ => 2 ^ 20, fun _ => size⟩

/-- Two products and a scaling in place between them. -/
def scaledProduct : Cgraph :=
  smallGraph [smallTensor .none [], smallTensor .mulMat [0, 0], smallTensor .scale [1], smallTensor .mulMat [2, 0]]
    [1, 2, 3] [0]

theorem scaledProduct_tensor (t : ℕ) : (scaledProduct.tensor t).input = false ∧
    (scaledProduct.tensor t).viewSrc = none ∧ t ∉ (scaledProduct.tensor t).src := by
  match t with
  | 0 | 1 | 2 | 3 => decide
  | t + 4 => exact ⟨rfl, rfl, fun h => nomatch h⟩

theorem scaledProduct_sizes : Sizes (smallBuffers fun _ => 32) scaledProduct :=
  ⟨fun _ _ => (by decide : 0 < 32), fun _ _ _ _ _ => (by decide : paddedOffset 32 32 < 2 ^ 63)⟩

theorem scaledProduct_regular : Regular scaledProduct := by
  refine ⟨?_, ?_, ?_, ?_⟩
  · intro done node rest h src hsrc
    refine ⟨?_, fun v hv => absurd hv (by rw [(scaledProduct_tensor src).2.1]; exact fun h => nomatch h)⟩
    change [1, 2, 3] = done ++ node :: rest at h
    rcases done with _ | ⟨a, _ | ⟨b, _ | ⟨c, done⟩⟩⟩
    · cases h
      revert src
      decide
    · cases h
      revert src
      decide
    · cases h
      exact List.not_mem_nil
    · simp at h
  · intro node hnode src hsrc _
    have hall : ∀ node ∈ [1, 2, 3], ∀ src ∈ (scaledProduct.tensor node).src, src ∈ [1, 2, 3] ∨ src ∈ [0] := by decide
    exact (hall node hnode src hsrc).imp_right Or.inl
  · intro node _ src _ v hv
    rw [(scaledProduct_tensor src).2.1] at hv
    cases hv
  · intro t _ _ hin
    rw [(scaledProduct_tensor t).1] at hin
    cases hin

theorem plan_live_range_safe_small : ∃ s plan,
    gallocrReserveN (smallBuffers fun _ => 32) scaledProduct (fun _ => 0) (fun _ => 0) = .ok (s, plan) ∧
      (Disjoint ((tensorAlloc (smallBuffers fun _ => 32) scaledProduct s 2).bytes (smallBuffers fun _ => 32))
          ((tensorAlloc (smallBuffers fun _ => 32) scaledProduct s 0).bytes (smallBuffers fun _ => 32)) ∨
        TakesPlace (smallBuffers fun _ => 32) scaledProduct s 1 2 0) := by
  obtain ⟨s, plan, h⟩ : ∃ s plan,
      gallocrReserveN (smallBuffers fun _ => 32) scaledProduct (fun _ => 0) (fun _ => 0) = .ok (s, plan) := ⟨_, _, rfl⟩
  refine ⟨s, plan, h, ?_⟩
  exact plan_live_range_safe scaledProduct_sizes (fun t _ _ _ => (scaledProduct_tensor t).2.2) scaledProduct_regular h
    (show scaledProduct.nodes[1]? = some 2 from rfl) ⟨rfl, rfl, rfl⟩ ⟨rfl, rfl, rfl⟩ (by decide)
    (.inl (.inl (by decide))) (show scaledProduct.nodes[2]? = some 3 from rfl) (by decide) ⟨0, by decide, .inl rfl⟩

/-- A node is planned onto a tensor that it or a later node reads, and is not in the exact place of a source. -/
def Overwritten (buffers : Buffers) (graph : Cgraph) (i t : ℕ) : Prop :=
  ∃ s plan node k reader, gallocrReserveN buffers graph (fun _ => 0) (fun _ => 0) = .ok (s, plan) ∧
    graph.nodes[i]? = some node ∧ t ≠ node ∧ i ≤ k ∧ graph.nodes[k]? = some reader ∧ Reads graph reader t ∧
    ¬Disjoint ((tensorAlloc buffers graph s node).bytes buffers) ((tensorAlloc buffers graph s t).bytes buffers) ∧
    ¬(ggmlOpCanInplace (graph.tensor node).op = true ∧ t ∈ (graph.tensor node).src ∧
      tensorAlloc buffers graph s node = tensorAlloc buffers graph s t)

theorem overwritten_of (node t i k reader : ℕ) (a c : TensorAlloc) (x : ℕ × ℕ × ℕ)
    (hplan : (gallocrReserveN buffers graph (fun _ => 0) (fun _ => 0)).map
      (fun r => (tensorAlloc buffers graph r.1 node, tensorAlloc buffers graph r.1 t)) = .ok (a, c))
    (hi : graph.nodes[i]? = some node) (hne : t ≠ node) (hle : i ≤ k) (hk : graph.nodes[k]? = some reader)
    (hread : Reads graph reader t) (ha : x ∈ a.bytes buffers) (hc : x ∈ c.bytes buffers)
    (hplace : ggmlOpCanInplace (graph.tensor node).op = false ∨ t ∉ (graph.tensor node).src ∨ a ≠ c) :
    Overwritten buffers graph i t := by
  cases hr : gallocrReserveN buffers graph (fun _ => 0) (fun _ => 0) with
  | error e =>
    rw [hr] at hplan
    cases hplan
  | ok r =>
    rw [hr] at hplan
    obtain ⟨ha', hc'⟩ := Prod.mk.inj (Except.ok.inj hplan)
    refine ⟨r.1, r.2, node, k, reader, hr, hi, hne, hle, hk, hread, ?_, ?_⟩
    · rw [ha', hc']
      exact fun hdisjoint => Set.disjoint_left.1 hdisjoint ha hc
    · rw [ha', hc']
      rintro ⟨hop, hsrc, heq⟩
      rcases hplace with hno | hno | hno
      · rw [hno] at hop
        cases hop
      · exact hno hsrc
      · exact hno heq

/-- A view that is no node, an input computed in place, a node in place of itself, a source that is not in the graph,
a source with a larger block, and a block size that wraps around. -/
theorem plan_overwrites :
    Overwritten (smallBuffers fun _ => 32) (smallGraph [smallTensor .none [], smallTensor .mulMat [0, 0],
      { smallTensor .none [] with viewSrc := some 1 }, smallTensor .mulMat [1, 1], smallTensor .mulMat [3, 2]]
      [1, 3, 4] [0, 2]) 2 1 ∧
    Overwritten (smallBuffers fun _ => 32) (smallGraph [smallTensor .none [], smallTensor .none [],
      smallTensor .mulMat [1, 1], smallTensor .mulMat [2, 2], smallTensor .mulMat [0, 1],
      { smallTensor .scale [0] with input := true }, smallTensor .mulMat [4, 5]] [2, 3, 4, 5, 6] [0, 1]) 0 0 ∧
    Overwritten (smallBuffers fun _ => 32) (smallGraph [smallTensor .none [], smallTensor .none [],
      smallTensor .add [2, 1], smallTensor .mulMat [0, 0]] [2, 3] [0, 1]) 0 0 ∧
    Overwritten (smallBuffers fun _ => 32) (smallGraph [smallTensor .none [], smallTensor .mulMat [0, 0],
      smallTensor .mulMat [1, 1], smallTensor .none [], smallTensor .mulMat [3, 0]] [1, 2, 4] [0]) 0 3 ∧
    Overwritten (smallBuffers fun t => if t = 0 then 64 else 32)
      (smallGraph [smallTensor .none [], smallTensor .scale [0]] [1] [0]) 0 0 ∧
    Overwritten (smallBuffers fun _ => 2 ^ 64 - 4)
      (smallGraph [smallTensor .none [], smallTensor .mulMat [0, 0]] [1] [0]) 0 0 := by
  refine ⟨?_, ?_, ?_, ?_, ?_, ?_⟩
  · exact overwritten_of 4 1 2 2 4 ⟨0, some ⟨0, 32⟩, 32⟩ ⟨0, some ⟨0, 32⟩, 32⟩ (0, 0, 32) rfl rfl (by decide) (by decide) rfl
      ⟨2, by decide, .inr rfl⟩ ⟨_, rfl, rfl, rfl, by decide, by decide⟩ ⟨_, rfl, rfl, rfl, by decide, by decide⟩
      (.inl rfl)
  · exact overwritten_of 2 0 0 2 4 ⟨0, some ⟨0, 64⟩, 32⟩ ⟨0, some ⟨0, 64⟩, 32⟩ (0, 0, 64) rfl rfl (by decide) (by decide) rfl
      ⟨0, by decide, .inl rfl⟩ ⟨_, rfl, rfl, rfl, by decide, by decide⟩ ⟨_, rfl, rfl, rfl, by decide, by decide⟩
      (.inl rfl)
  · exact overwritten_of 2 0 0 1 3 ⟨0, some ⟨0, 0⟩, 32⟩ ⟨0, some ⟨0, 0⟩, 32⟩ (0, 0, 0) rfl rfl (by decide) (by decide) rfl
      ⟨0, by decide, .inl rfl⟩ ⟨_, rfl, rfl, rfl, by decide, by decide⟩ ⟨_, rfl, rfl, rfl, by decide, by decide⟩
      (.inr (.inl (by decide)))
  · exact overwritten_of 1 3 0 2 4 ⟨0, some ⟨0, 32⟩, 32⟩ ⟨0, some ⟨0, 32⟩, 32⟩ (0, 0, 32) rfl rfl (by decide) (by decide) rfl
      ⟨3, by decide, .inl rfl⟩ ⟨_, rfl, rfl, rfl, by decide, by decide⟩ ⟨_, rfl, rfl, rfl, by decide, by decide⟩
      (.inl rfl)
  · exact overwritten_of 1 0 0 0 1 ⟨0, some ⟨0, 0⟩, 32⟩ ⟨0, some ⟨0, 0⟩, 64⟩ (0, 0, 0) rfl rfl (by decide) (by decide) rfl
      ⟨0, by decide, .inl rfl⟩ ⟨_, rfl, rfl, rfl, by decide, by decide⟩ ⟨_, rfl, rfl, rfl, by decide, by decide⟩
      (.inr (.inr (by decide)))
  · exact overwritten_of 1 0 0 0 1 ⟨0, some ⟨0, 0⟩, 2 ^ 64 - 4⟩ ⟨0, some ⟨0, 0⟩, 2 ^ 64 - 4⟩ (0, 0, 0) rfl rfl (by decide) (by decide) rfl
      ⟨0, by decide, .inl rfl⟩ ⟨_, rfl, rfl, rfl, by decide, by decide⟩ ⟨_, rfl, rfl, rfl, by decide, by decide⟩
      (.inl rfl)

end PyannoteCpp.Gallocr
