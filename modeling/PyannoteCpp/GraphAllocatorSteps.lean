import PyannoteCpp.GraphAllocatorBlocks

set_option autoImplicit false

/-!
# What one step of the graph allocator does

A tensor is skipped, gets a block of its own, or takes over the block of a
parent that has no other reader and no view. When a reader is done, the counters
go down and a tensor without readers and views loses its block.
-/
namespace PyannoteCpp.Gallocr

open Tallocr

variable {buffers : Buffers} {graph : Cgraph} {s s' : GallocrState} {owned : List ℕ} {node parent owner t : ℕ}

inductive AllocateNode (buffers : Buffers) (graph : Cgraph) (s : GallocrState) (node : ℕ) (s' : GallocrState) :
    Prop where
  | skip (h : ¬Plain graph node ∨ (s.hash node).allocated = true) (hs : s' = s)
  | fresh (hplain : Plain graph node) (hno : (s.hash node).allocated = false)
      (hother : ∀ t, t ≠ node → s'.hash t = s.hash t)
      (hnode : ∃ b addr, s'.hash node = placeAt b addr (setAllocated true (s.hash node)))
  | reuse (parent : ℕ) (hplain : Plain graph node) (hno : (s.hash node).allocated = false)
      (hop : ggmlOpCanInplace (graph.tensor node).op = true) (hsrc : parent ∈ (graph.tensor node).src)
      (hp : (s.hash parent).allocated = true) (hout : (graph.tensor parent).output = false)
      (hlayout : ggmlAreSameLayout (graph.tensor node) (graph.tensor parent) = true)
      (hone : (s.hash parent).nChildren = 1) (hviews : (s.hash parent).nViews = 0)
      (hsize : ∃ buft, buftOf buffers s.hash parent = some buft ∧
        buffers.allocSize buft node ≤ buffers.allocSize buft parent)
      (hother : ∀ t, t ≠ node → t ≠ parent → s'.hash t = s.hash t)
      (hparent : s'.hash parent = setAllocated false (s.hash parent))
      (hnode : s'.hash node =
        placeAt (s.hash parent).bufferId (s.hash parent).addr (setAllocated true (s.hash node)))

structure UpdateParent (graph : Cgraph) (s : GallocrState) (parent : ℕ) (s' : GallocrState) : Prop where
  children : ∀ t, (s'.hash t).nChildren = (s.hash t).nChildren - if t = parent then 1 else 0
  views : ∀ t, (s'.hash t).nViews = (s.hash t).nViews -
    if (graph.tensor parent).viewSrc = some t ∧ (s.hash parent).nChildren = 1 ∧ (s.hash parent).nViews = 0 then 1
    else 0
  place : ∀ t, (s'.hash t).bufferId = (s.hash t).bufferId ∧ (s'.hash t).addr = (s.hash t).addr
  freed : ∀ t, (s'.hash t).allocated = (s.hash t).allocated ∨
    (t = parent ∨ (graph.tensor parent).viewSrc = some t) ∧ (s'.hash t).allocated = false ∧
      (graph.tensor t).output = false ∧ (s'.hash t).nChildren = 0 ∧ (s'.hash t).nViews = 0

theorem plain_iff : Plain graph node ∧ (s.hash node).allocated = false ↔
    ¬(isAllocated graph s node = true ∨ (graph.tensor node).viewSrc.isSome = true) := by
  unfold isAllocated isOwn Plain
  cases (graph.tensor node).viewSrc <;> cases (graph.tensor node).data <;> simp

theorem reuseOf_spec {u : GallocrState} (h : reuseOf graph u node = some (parent, owner)) :
    ggmlOpCanInplace (graph.tensor node).op = true ∧ parent ∈ (graph.tensor node).src ∧
      (u.hash parent).allocated = true ∧ (graph.tensor parent).output = false ∧
      ggmlAreSameLayout (graph.tensor node) (graph.tensor parent) = true ∧ (u.hash parent).nChildren = 1 ∧
      (u.hash parent).nViews = 0 ∧ ((graph.tensor parent).viewSrc = none → owner = parent) := by
  unfold reuseOf at h
  split_ifs at h with hop
  obtain ⟨p, hp, hr⟩ := List.exists_of_findSome?_eq_some h
  obtain ⟨o, ho, heq⟩ := Option.map_eq_some_iff.1 hr
  cases heq
  unfold reusable at ho
  split_ifs at ho with hown hout hlayout hcount
  · simp only [isOwn, Bool.not_eq_false] at hown
    simp only [Bool.not_eq_false] at hlayout
    have hplainOut : (graph.tensor parent).output = false := by
      simp only [not_or, Bool.not_eq_true] at hout
      exact hout.1
    refine ⟨hop, hp, hown, hplainOut, hlayout, hcount.1, hcount.2, ?_⟩
    intro hview
    simp only [hview] at ho
    exact (Option.some.inj ho).symm

/-- Only tensors that need memory of their own hold any. -/
def OwnsPlain (graph : Cgraph) (s : GallocrState) : Prop := ∀ t, (s.hash t).allocated = true → Plain graph t

theorem OwnInv.ownsPlain (h : OwnInv buffers graph s owned) : OwnsPlain graph s :=
  fun t ht => (h.plain t ((h.mem t).2 ht)).2

theorem allocateFresh_hash {u : GallocrState} {b : ℕ} (hm : allocateFresh buffers u node b = .ok s') :
    ∃ addr, s'.hash = (u.modify node (placeAt b addr)).hash := by
  obtain ⟨buft, talloc, addr, -, -, rfl⟩ := allocateFresh_ok hm
  exact ⟨addr, rfl⟩

theorem freeExtraSpace_hash {u : GallocrState} (hm : freeExtraSpace buffers u node parent = .ok s') :
    s'.hash = u.hash ∧ ∃ pb nb, buftOf buffers u.hash parent = some pb ∧ buftOf buffers u.hash node = some nb ∧
      buffers.allocSize nb node ≤ buffers.allocSize pb parent := by
  obtain ⟨pb, nb, hpb, hnb, hsize, hextra⟩ := freeExtraSpace_ok hm
  refine ⟨?_, pb, nb, hpb, hnb, hsize⟩
  rcases hextra with ⟨rfl, -⟩ | ⟨-, talloc, -, rfl⟩
  · rfl
  · rfl

/-- The node is in the buffer asked for, or where a source of its layout was that nobody else reads. -/
def Granted (graph : Cgraph) (s : GallocrState) (node : ℕ) (bufferId : ℤ) (s' : GallocrState) : Prop :=
  (s'.hash node).bufferId = bufferId.toNat ∨
    ∃ parent ∈ (graph.tensor node).src, ggmlOpCanInplace (graph.tensor node).op = true ∧
      ggmlAreSameLayout (graph.tensor node) (graph.tensor parent) = true ∧ (s.hash parent).allocated = true ∧
      (s.hash parent).nChildren = 1 ∧ (s'.hash node).bufferId = (s.hash parent).bufferId ∧
      (s'.hash node).addr = (s.hash parent).addr

theorem allocateNode_hash {bufferId : ℤ} (hself : NoSelfReuse graph) (hin : InGraph graph node)
    (hown : OwnsPlain graph s) (hm : allocateNode buffers graph s node bufferId = .ok s') :
    AllocateNode buffers graph s node s' ∧ 0 ≤ bufferId ∧
      (Plain graph node → (s.hash node).allocated = false → Granted graph s node bufferId s') := by
  unfold allocateNode at hm
  split_ifs at hm with hneg hskip
  · cases hm
    have hiff := (not_congr (@plain_iff graph s node)).2 (not_not.2 hskip)
    by_cases hplain : Plain graph node
    · have halloc : (s.hash node).allocated = true := by simpa [hplain] using hiff
      exact ⟨.skip (.inr halloc) rfl, by omega, fun _ hno => (nomatch halloc.symm.trans hno)⟩
    · exact ⟨.skip (.inl hplain) rfl, by omega, fun hp => absurd hp hplain⟩
  · obtain ⟨hplain, hno⟩ := plain_iff.2 hskip
    cases hr : reuseOf graph (s.modify node (setAllocated true)) node with
    | none =>
      simp only [hr] at hm
      obtain ⟨addr, hhash⟩ := allocateFresh_hash hm
      have hnode : s'.hash node = placeAt bufferId.toNat addr (setAllocated true (s.hash node)) := by
        rw [hhash, modify_hash_self, modify_hash_self]
      refine ⟨.fresh hplain hno ?_ ⟨bufferId.toNat, addr, hnode⟩, by omega, fun _ _ => .inl (by rw [hnode]; rfl)⟩
      intro t ht
      rw [hhash, modify_hash_ne _ _ ht, modify_hash_ne _ _ ht]
    | some q =>
      obtain ⟨parent, owner⟩ := q
      simp only [hr] at hm
      obtain ⟨hop, hsrc, hp, hout, hlayout, hone, hviews, howner⟩ := reuseOf_spec hr
      have hne : parent ≠ node := fun he => hself node hin hplain hop (he ▸ hsrc)
      rw [modify_hash_ne _ _ hne] at hp hone hviews
      rw [howner (hown parent hp).1] at hm
      obtain ⟨hhash, pb, nb, hpb, hnb, hsize⟩ := freeExtraSpace_hash hm
      have hparent : s'.hash parent = setAllocated false (s.hash parent) := by
        rw [hhash]
        simp [takeOver, hne, setAllocated]
      have hnode : s'.hash node =
          placeAt (s.hash parent).bufferId (s.hash parent).addr (setAllocated true (s.hash node)) := by
        rw [hhash]
        simp [takeOver, hne, hne.symm]
      have hpb : buffers.bufts[(s.hash parent).bufferId]? = some pb := by
        rw [← hhash, buftOf, hparent] at hpb
        exact hpb
      have hnb : buffers.bufts[(s.hash parent).bufferId]? = some nb := by
        rw [← hhash, buftOf, hnode] at hnb
        exact hnb
      rw [hpb] at hnb
      cases hnb
      refine ⟨.reuse parent hplain hno hop hsrc hp hout hlayout hone hviews ⟨pb, hpb, hsize⟩ ?_ hparent hnode, by omega,
        fun _ _ => .inr ⟨parent, hsrc, hop, hlayout, hp, hone, by rw [hnode]; rfl, by rw [hnode]; rfl⟩⟩
      intro t htn htp
      rw [hhash]
      simp [takeOver, htn, htp]

theorem allocateNode_spec {bufferId : ℤ} (hs : Sizes buffers graph) (hself : NoSelfReuse graph)
    (hin : InGraph graph node) (h : OwnInv buffers graph s owned)
    (hm : allocateNode buffers graph s node bufferId = .ok s') :
    (∃ owned', OwnInv buffers graph s' owned') ∧ AllocateNode buffers graph s node s' := by
  refine ⟨?_, (allocateNode_hash hself hin h.ownsPlain hm).1⟩
  unfold allocateNode at hm
  split_ifs at hm with hneg hskip
  · cases hm
    exact ⟨owned, h⟩
  · obtain ⟨hplain, hno⟩ := plain_iff.2 hskip
    have hfree : node ∉ owned := fun hmem => by simp [(h.mem node).1 hmem] at hno
    cases hr : reuseOf graph (s.modify node (setAllocated true)) node with
    | none =>
      simp only [hr] at hm
      exact ⟨_, allocateFresh_inv hs h ⟨hin, hplain⟩ hfree hm⟩
    | some q =>
      obtain ⟨parent, owner⟩ := q
      simp only [hr] at hm
      obtain ⟨hop, hsrc, hp, -, -, -, -, howner⟩ := reuseOf_spec hr
      have hne : parent ≠ node := fun he => hself node hin hplain hop (he ▸ hsrc)
      rw [modify_hash_ne _ _ hne] at hp
      rw [howner (h.ownsPlain parent hp).1] at hm
      exact takeOver_inv hs h ⟨hin, hplain⟩ hfree hp hm

/-- Nothing changes but that a tensor without readers and views may lose its block. -/
structure Freed (graph : Cgraph) (s : GallocrState) (owner : ℕ) (s' : GallocrState) : Prop where
  children : ∀ t, (s'.hash t).nChildren = (s.hash t).nChildren
  views : ∀ t, (s'.hash t).nViews = (s.hash t).nViews
  place : ∀ t, (s'.hash t).bufferId = (s.hash t).bufferId ∧ (s'.hash t).addr = (s.hash t).addr
  freed : ∀ t, (s'.hash t).allocated = (s.hash t).allocated ∨
    t = owner ∧ (s'.hash t).allocated = false ∧ (graph.tensor t).output = false ∧
      (s'.hash t).nChildren = 0 ∧ (s'.hash t).nViews = 0

theorem Freed.refl (graph : Cgraph) (s : GallocrState) (owner : ℕ) : Freed graph s owner s :=
  ⟨fun _ => rfl, fun _ => rfl, fun _ => ⟨rfl, rfl⟩, fun _ => .inl rfl⟩

theorem freeNode_hash (hm : freeNode buffers graph s t = .ok s') :
    ((graph.tensor t).output = true ∧ s' = s) ∨
    ((graph.tensor t).output = false ∧
      ∀ u, s'.hash u = if u = t then setAllocated false (s.hash u) else s.hash u) := by
  rcases freeNode_ok hm with hout | ⟨hout, buft, talloc, -, -, rfl⟩
  · exact .inl hout
  · refine .inr ⟨hout, fun u => ?_⟩
    split_ifs with hu
    · subst hu
      exact modify_hash_self _ _
    · exact modify_hash_ne _ _ hu

theorem freeNode_freed (hv : (s.hash t).nViews = 0) (hc : (s.hash t).nChildren = 0)
    (hm : freeNode buffers graph s t = .ok s') : Freed graph s t s' := by
  rcases freeNode_hash hm with ⟨-, rfl⟩ | ⟨hout, hsame⟩
  · exact .refl graph _ t
  · refine ⟨?_, ?_, ?_, ?_⟩
    · intro u
      rw [hsame]
      split_ifs <;> rfl
    · intro u
      rw [hsame]
      split_ifs <;> rfl
    · intro u
      rw [hsame]
      split_ifs <;> exact ⟨rfl, rfl⟩
    · intro u
      rw [hsame]
      split_ifs with hu
      · subst hu
        exact .inr ⟨rfl, rfl, hout, hc, hv⟩
      · exact .inl rfl

theorem freeNode_frees (hout : (graph.tensor t).output = false) (hm : freeNode buffers graph s t = .ok s') :
    (s'.hash t).allocated = false := by
  rcases freeNode_hash hm with ⟨hflag, -⟩ | ⟨-, hsame⟩
  · rw [hout] at hflag
    cases hflag
  · rw [hsame, if_pos rfl]
    rfl

/-- The counters of a parent after one of its readers is done. -/
structure Counted (graph : Cgraph) (s : GallocrState) (parent : ℕ) (u : GallocrState) : Prop where
  children : ∀ t, (u.hash t).nChildren = (s.hash t).nChildren - if t = parent then 1 else 0
  views : ∀ t, (u.hash t).nViews = (s.hash t).nViews -
    if (graph.tensor parent).viewSrc = some t ∧ (s.hash parent).nChildren = 1 ∧ (s.hash parent).nViews = 0 then 1
    else 0
  same : ∀ t, (u.hash t).bufferId = (s.hash t).bufferId ∧ (u.hash t).addr = (s.hash t).addr ∧
    (u.hash t).allocated = (s.hash t).allocated

theorem Counted.updateParent {u : GallocrState} (hc : Counted graph s parent u) (hf : Freed graph u owner s')
    (ho : owner = parent ∨ (graph.tensor parent).viewSrc = some owner) : UpdateParent graph s parent s' := by
  refine ⟨fun t => (hf.children t).trans (hc.children t), fun t => (hf.views t).trans (hc.views t), ?_, ?_⟩
  · intro t
    exact ⟨(hf.place t).1.trans (hc.same t).1, (hf.place t).2.trans (hc.same t).2.1⟩
  · intro t
    rw [← (hc.same t).2.2]
    rcases hf.freed t with hsame | ⟨rfl, hfreed⟩
    · exact .inl hsame
    · exact .inr ⟨ho, hfreed⟩

theorem childrenCounted (s : GallocrState) (parent : ℕ)
    (h : ∀ v, (graph.tensor parent).viewSrc = some v → ¬((s.hash parent).nChildren = 1 ∧ (s.hash parent).nViews = 0)) :
    Counted graph s parent (s.modify parent (addChildren (-1))) := by
  refine ⟨?_, ?_, ?_⟩
  · intro t
    split_ifs with ht
    · subst ht
      simp [Int.sub_eq_add_neg]
    · simp [ht]
  · intro t
    rw [if_neg (fun hc => h t hc.1 hc.2), Int.sub_zero]
    by_cases ht : t = parent
    · subst ht
      simp
    · simp [ht]
  · intro t
    by_cases ht : t = parent
    · subst ht
      simp
    · simp [ht]

theorem viewCounted {v : ℕ} (s : GallocrState) (hview : (graph.tensor parent).viewSrc = some v)
    (hone : (s.hash parent).nChildren = 1) (hzero : (s.hash parent).nViews = 0) :
    Counted graph s parent ((s.modify parent (addChildren (-1))).modify v (addViews (-1))) := by
  have hchildren : ∀ t, ((s.modify parent (addChildren (-1))).hash t).nChildren =
      (s.hash t).nChildren - (if t = parent then 1 else 0) ∧
      ((s.modify parent (addChildren (-1))).hash t).nViews = (s.hash t).nViews ∧
      ((s.modify parent (addChildren (-1))).hash t).bufferId = (s.hash t).bufferId ∧
      ((s.modify parent (addChildren (-1))).hash t).addr = (s.hash t).addr ∧
      ((s.modify parent (addChildren (-1))).hash t).allocated = (s.hash t).allocated := by
    intro t
    split_ifs with hp
    · subst hp
      rw [modify_hash_self]
      exact ⟨rfl, rfl, rfl, rfl, rfl⟩
    · rw [modify_hash_ne _ _ hp, Int.sub_zero]
      exact ⟨rfl, rfl, rfl, rfl, rfl⟩
  have hv : ∀ t, ((graph.tensor parent).viewSrc = some t ∧ (s.hash parent).nChildren = 1 ∧
      (s.hash parent).nViews = 0) ↔ t = v := by
    intro t
    rw [hview, Option.some.injEq]
    exact ⟨fun h => h.1.symm, fun h => ⟨h.symm, hone, hzero⟩⟩
  refine ⟨?_, ?_, ?_⟩
  · intro t
    by_cases ht : t = v
    · subst ht
      rw [modify_hash_self]
      exact (hchildren t).1
    · rw [modify_hash_ne _ _ ht]
      exact (hchildren t).1
  · intro t
    simp only [hv]
    split_ifs with ht
    · subst ht
      rw [modify_hash_self, addViews_nViews, (hchildren t).2.1]
      rfl
    · rw [modify_hash_ne _ _ ht, (hchildren t).2.1, Int.sub_zero]
  · intro t
    by_cases ht : t = v
    · subst ht
      rw [modify_hash_self]
      exact (hchildren t).2.2
    · rw [modify_hash_ne _ _ ht]
      exact (hchildren t).2.2

/-- The tensor that is released with the last reader of a parent, and the tables when it is. -/
inductive LastReader (graph : Cgraph) (s : GallocrState) (parent : ℕ) : ℕ → GallocrState → Prop where
  | owner (hview : (graph.tensor parent).viewSrc = none) :
      LastReader graph s parent parent (s.modify parent (addChildren (-1)))
  | view (v : ℕ) (hview : (graph.tensor parent).viewSrc = some v) :
      LastReader graph s parent v ((s.modify parent (addChildren (-1))).modify v (addViews (-1)))

theorem LastReader.touched {u : GallocrState} (h : LastReader graph s parent owner u) :
    owner = parent ∨ (graph.tensor parent).viewSrc = some owner := by
  cases h with
  | owner _ => exact .inl rfl
  | view v hview => exact .inr hview

theorem LastReader.counted {u : GallocrState} (h : LastReader graph s parent owner u)
    (hone : (s.hash parent).nChildren = 1) (hzero : (s.hash parent).nViews = 0) : Counted graph s parent u := by
  cases h with
  | owner hview => exact childrenCounted s _ (fun v hv => nomatch hview.symm.trans hv)
  | view v hview => exact viewCounted s hview hone hzero

theorem LastReader.inv {u : GallocrState} (h : LastReader graph s parent owner u) (hinv : OwnInv buffers graph s owned) :
    OwnInv buffers graph u owned := by
  have hchildren : OwnInv buffers graph (s.modify parent (addChildren (-1))) owned :=
    @OwnInv.count _ _ _ _ hinv (addChildren (-1)) (fun _ => ⟨rfl, rfl, rfl⟩) parent
  cases h with
  | owner _ => exact hchildren
  | view _ _ => exact @OwnInv.count _ _ _ _ hchildren (addViews (-1)) (fun _ => ⟨rfl, rfl, rfl⟩) owner

/-- Either the parent has another reader or a view, or its owner is freed if it has none any more. -/
theorem updateParent_cases (hm : updateParent buffers graph s parent = .ok s') :
    (¬((s.hash parent).nChildren = 1 ∧ (s.hash parent).nViews = 0) ∧ s' = s.modify parent (addChildren (-1))) ∨
    ((s.hash parent).nChildren = 1 ∧ (s.hash parent).nViews = 0) ∧ ∃ owner u, LastReader graph s parent owner u ∧
      if (u.hash owner).nViews = 0 ∧ (u.hash owner).nChildren = 0 ∧ (u.hash owner).allocated = true then
        freeNode buffers graph u owner = .ok s'
      else s' = u := by
  have hdone : ((s.modify parent (addChildren (-1))).hash parent).nChildren = 0 ∧
      ((s.modify parent (addChildren (-1))).hash parent).nViews = 0 ↔
      (s.hash parent).nChildren = 1 ∧ (s.hash parent).nViews = 0 := by
    simp only [modify_hash_self, addChildren_nChildren, addChildren_nViews, Int.add_neg_eq_sub, sub_eq_zero]
  unfold updateParent at hm
  simp only at hm
  by_cases hzero : (s.hash parent).nChildren = 1 ∧ (s.hash parent).nViews = 0
  · rw [if_pos (hdone.2 hzero)] at hm
    refine .inr ⟨hzero, ?_⟩
    cases hview : (graph.tensor parent).viewSrc with
    | none =>
      simp only [hview] at hm
      refine ⟨parent, _, .owner hview, ?_⟩
      obtain ⟨hchildren, hviews⟩ := hdone.2 hzero
      split_ifs at hm with halloc
      · rw [if_pos ⟨hviews, hchildren, halloc⟩]
        exact hm
      · rw [if_neg (fun h => halloc h.2.2)]
        cases hm
        rfl
    | some v =>
      simp only [hview] at hm
      refine ⟨v, _, .view v hview, ?_⟩
      split_ifs at hm ⊢ with halloc
      · exact hm
      · cases hm
        rfl
  · rw [if_neg (fun hc => hzero (hdone.1 hc))] at hm
    cases hm
    exact .inl ⟨hzero, rfl⟩

theorem updateParent_hash (hm : updateParent buffers graph s parent = .ok s') : UpdateParent graph s parent s' := by
  rcases updateParent_cases hm with ⟨hmore, rfl⟩ | ⟨⟨hone, hzero⟩, owner, u, hlast, hfree⟩
  · exact (childrenCounted s parent (fun _ _ => hmore)).updateParent (.refl graph _ parent) (.inl rfl)
  · have hcounted := hlast.counted hone hzero
    split_ifs at hfree with halloc
    · exact hcounted.updateParent (freeNode_freed halloc.1 halloc.2.1 hfree) hlast.touched
    · rw [hfree]
      exact hcounted.updateParent (.refl graph _ owner) hlast.touched

theorem updateParent_frees (hm : updateParent buffers graph s parent = .ok s')
    (hout : (graph.tensor t).output = false) (hplain : Plain graph t)
    (htouch : parent = t ∨
      (graph.tensor parent).viewSrc = some t ∧ (s.hash parent).nChildren = 1 ∧ (s.hash parent).nViews = 0)
    (hchildren : (s'.hash t).nChildren = 0) (hviews : (s'.hash t).nViews = 0) : (s'.hash t).allocated = false := by
  have hupdate := updateParent_hash hm
  have hdone : (s.hash parent).nChildren = 1 ∧ (s.hash parent).nViews = 0 := by
    rcases htouch with rfl | ⟨-, hdone⟩
    · have hchild := hupdate.children parent
      have hview := hupdate.views parent
      rw [if_pos rfl] at hchild
      rw [hplain.1, if_neg (fun h => nomatch h.1)] at hview
      exact ⟨by omega, by omega⟩
    · exact hdone
  rcases updateParent_cases hm with ⟨hmore, -⟩ | ⟨-, owner, u, hlast, hfree⟩
  · exact absurd hdone hmore
  · have howner : owner = t := by
      cases hlast with
      | owner hview =>
        rcases htouch with htp | ⟨hsrc, -⟩
        · exact htp
        · rw [hview] at hsrc
          cases hsrc
      | view v hview =>
        rcases htouch with rfl | ⟨hsrc, -⟩
        · rw [hplain.1] at hview
          cases hview
        · exact Option.some.inj (hview.symm.trans hsrc)
    subst howner
    split_ifs at hfree with halloc
    · exact freeNode_frees hout hfree
    · rw [hfree] at hchildren hviews ⊢
      by_contra hheld
      exact halloc ⟨hviews, hchildren, by simpa using hheld⟩

theorem updateParent_spec (hs : Sizes buffers graph) (h : OwnInv buffers graph s owned)
    (hm : updateParent buffers graph s parent = .ok s') :
    (∃ owned', OwnInv buffers graph s' owned') ∧ UpdateParent graph s parent s' := by
  refine ⟨?_, updateParent_hash hm⟩
  rcases updateParent_cases hm with ⟨-, rfl⟩ | ⟨-, owner, u, hlast, hfree⟩
  · exact ⟨owned, @OwnInv.count _ _ _ _ h (addChildren (-1)) (fun _ => ⟨rfl, rfl, rfl⟩) parent⟩
  · have hinv := hlast.inv h
    split_ifs at hfree with halloc
    · exact freeNode_inv hs hinv halloc.2.2 hfree
    · rw [hfree]
      exact ⟨owned, hinv⟩

end PyannoteCpp.Gallocr
