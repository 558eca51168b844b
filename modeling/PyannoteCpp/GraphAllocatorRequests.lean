import PyannoteCpp.GraphAllocatorSafety

set_option autoImplicit false

/-!
# The buffers asked for

A leaf is allocated in the buffer asked for it. A node is too, unless it works in
place and takes the place of a source. The blocks of the leafs and of the nodes
that are done stay where they are, because a source that is still to be read
holds its block.
-/
namespace PyannoteCpp.Gallocr

open Tallocr PrefixGrammar CheckedLoops

variable {buffers : Buffers} {graph : Cgraph} {s s' u w : GallocrState} {node t : ℕ} {bufferId : ℤ}
  {nodeBufferIds leafBufferIds : ℕ → ℤ}

/-- Every tensor is listed once and after its sources. What is computed in place is listed, and is no input. -/
structure Orderly (graph : Cgraph) : Prop where
  distinct : (graph.nodes ++ graph.leafs).Nodup
  order : ∀ done node rest, graph.nodes = done ++ node :: rest → ∀ src ∈ (graph.tensor node).src, src ∉ rest
  inplace : ∀ node ∈ graph.nodes, ∀ src ∈ (graph.tensor node).src, Plain graph src →
    ggmlOpCanInplace (graph.tensor src).op = true → src ∈ graph.nodes ∨ src ∈ graph.leafs
  inputs : ∀ t, InGraph graph t → Plain graph t → (graph.tensor t).input = true →
    ggmlOpCanInplace (graph.tensor t).op = false

def Asked (s : GallocrState) (t : ℕ) (bufferId : ℤ) : Prop := 0 ≤ bufferId ∧ (s.hash t).bufferId = bufferId.toNat

theorem Asked.samePlace (h : Asked s t bufferId) (hsame : SamePlace s s' t) : Asked s' t bufferId :=
  ⟨h.1, hsame.1.trans h.2⟩

theorem AllocateNode.ownsPlain (h : AllocateNode buffers graph s node s') (hown : OwnsPlain graph s) :
    OwnsPlain graph s' := by
  intro t ht
  cases h with
  | skip _ hs =>
    subst hs
    exact hown t ht
  | fresh hplain _ hother _ =>
    by_cases hne : t = node
    · subst hne
      exact hplain
    · rw [hother t hne] at ht
      exact hown t ht
  | reuse parent hplain _ _ _ _ _ _ _ _ _ hother hparent _ =>
    by_cases hne : t = node
    · subst hne
      exact hplain
    · by_cases hp : t = parent
      · subst hp
        rw [hparent] at ht
        cases ht
      · rw [hother t hne hp] at ht
        exact hown t ht

theorem UpdateParent.ownsPlain {parent : ℕ} (h : UpdateParent graph s parent s') (hown : OwnsPlain graph s) :
    OwnsPlain graph s' := by
  intro t ht
  rcases h.freed t with hsame | ⟨-, hfreed, -⟩
  · exact hown t (hsame.symm.trans ht)
  · rw [hfreed] at ht
    cases ht

theorem AllocateNode.other (h : AllocateNode buffers graph s node s')
    (hno : (Plain graph node → (s.hash node).allocated = false → ggmlOpCanInplace (graph.tensor node).op = false) ∨
      ∀ t, (s.hash t).nChildren = 0) (hne : t ≠ node) : s'.hash t = s.hash t := by
  cases h with
  | skip _ hs => rw [hs]
  | fresh _ _ hother _ => exact hother t hne
  | reuse parent hplain hfree hop _ _ _ _ hone =>
    rcases hno with hop' | hzero
    · rw [hop' hplain hfree] at hop
      cases hop
    · rw [hzero parent] at hone
      cases hone

theorem AllocateNode.eq_of_allocated (h : AllocateNode buffers graph s node s') (ha : (s.hash node).allocated = true) :
    s' = s := h.eq_of_available (fun _ => ha)

theorem Granted.asked (h : Granted graph s node bufferId s') (hid : 0 ≤ bufferId)
    (hno : ggmlOpCanInplace (graph.tensor node).op = false ∨ ∀ t, (s.hash t).nChildren = 0) : Asked s' node bufferId := by
  rcases h with h | ⟨parent, -, hop, -, -, hone, -⟩
  · exact ⟨hid, h⟩
  · rcases hno with hop' | hzero
    · rw [hop'] at hop
      cases hop
    · rw [hzero parent] at hone
      cases hone

/-! The leafs. -/

theorem getElem?_inj_of_nodup {l : List ℕ} (h : l.Nodup) {i j : ℕ} (hi : l[i]? = some t) (hj : l[j]? = some t) :
    i = j := by
  obtain ⟨hi', hti⟩ := List.getElem?_eq_some_iff.1 hi
  obtain ⟨hj', htj⟩ := List.getElem?_eq_some_iff.1 hj
  exact (List.Nodup.getElem_inj_iff h).1 (hti.trans htj.symm)

theorem mem_drop_of_getElem? {i j : ℕ} {l : List ℕ} (hle : i ≤ j) (h : l[j]? = some t) : t ∈ l.drop i := by
  apply List.mem_of_getElem? (i := j - i)
  rw [List.getElem?_drop, Nat.add_sub_cancel' hle, h]

structure LeafsServed (graph : Cgraph) (leafBufferIds : ℕ → ℤ) (i : ℕ) (s : GallocrState) : Prop where
  own : OwnsPlain graph s
  children : ∀ t, (s.hash t).nChildren = 0
  only : ∀ t, (s.hash t).allocated = true → ∃ j < i, graph.leafs[j]? = some t
  leafs : ∀ j < i, ∀ t, graph.leafs[j]? = some t → Plain graph t →
    (s.hash t).allocated = true ∧ Asked s t (leafBufferIds j)

theorem LeafsServed.step {i : ℕ} (hself : NoSelfReuse graph) (hdistinct : graph.leafs.Nodup)
    (h : LeafsServed graph leafBufferIds i s) (hi : graph.leafs[i]? = some t)
    (hm : allocateNode buffers graph s t (leafBufferIds i) = .ok s') :
    LeafsServed graph leafBufferIds (i + 1) s' := by
  have hin : InGraph graph t := .inr (.inl (List.mem_of_getElem? hi))
  obtain ⟨hcase, hid, hgranted⟩ := allocateNode_hash hself hin h.own hm
  have hother : ∀ v, v ≠ t → s'.hash v = s.hash v := fun v hv => hcase.other (.inr h.children) hv
  refine ⟨hcase.ownsPlain h.own, fun v => (hcase.counters v).1.trans (h.children v), ?_, ?_⟩
  · intro v hv
    by_cases hvt : v = t
    · subst hvt
      exact ⟨i, Nat.lt_succ_self i, hi⟩
    · rw [hother v hvt] at hv
      obtain ⟨j, hj, hget⟩ := h.only v hv
      exact ⟨j, by omega, hget⟩
  · intro j hj v hv hplain
    by_cases hvt : v = t
    · subst hvt
      have hji := getElem?_inj_of_nodup hdistinct hv hi
      subst hji
      have hfree : (s.hash v).allocated = false := by
        by_contra hheld
        obtain ⟨k, hk, hget⟩ := h.only v (by simpa using hheld)
        have hkj := getElem?_inj_of_nodup hdistinct hget hi
        omega
      exact ⟨hcase.allocated hplain, (hgranted hplain hfree).asked hid (.inr h.children)⟩
    · have hlt : j < i := by
        by_contra hge
        have hji : j = i := by omega
        subst hji
        rw [hi] at hv
        exact hvt (Option.some.inj hv).symm
      have hold := h.leafs j hlt v hv hplain
      unfold Asked
      rw [hother v hvt]
      exact hold

/-! The counting loop. -/

def Listed (graph : Cgraph) (t : ℕ) : Prop := t ∈ graph.nodes ∨ t ∈ graph.leafs

def SameBlock (s s' : GallocrState) (t : ℕ) : Prop :=
  (s'.hash t).allocated = (s.hash t).allocated ∧ SamePlace s s' t

theorem SameBlock.refl (s : GallocrState) (t : ℕ) : SameBlock s s t := ⟨rfl, rfl, rfl⟩

theorem SameBlock.trans (h : SameBlock s u t) (h' : SameBlock u s' t) : SameBlock s s' t :=
  ⟨h'.1.trans h.1, h'.2.1.trans h.2.1, h'.2.2.trans h.2.2⟩

theorem sameBlock_of_hash (h : s'.hash t = s.hash t) : SameBlock s s' t := by
  unfold SameBlock SamePlace
  rw [h]
  exact ⟨rfl, rfl, rfl⟩

theorem OwnsPlain.of_sameBlock (h : OwnsPlain graph s) (hsame : ∀ t, SameBlock s s' t) : OwnsPlain graph s' :=
  fun t ht => h t ((hsame t).1.symm.trans ht)

theorem sameBlock_modify (s : GallocrState) (v : ℕ) (f : HashNode → HashNode)
    (hf : ∀ hn, (f hn).allocated = hn.allocated ∧ (f hn).bufferId = hn.bufferId ∧ (f hn).addr = hn.addr) (t : ℕ) :
    SameBlock s (s.modify v f) t := by
  by_cases ht : t = v
  · subst ht
    unfold SameBlock SamePlace
    rw [modify_hash_self]
    exact hf _
  · exact sameBlock_of_hash (modify_hash_ne _ _ ht)

theorem countView_block (s : GallocrState) (node t : ℕ) :
    SameBlock s (countView graph s node) t ∧
      ((countView graph s node).hash t).nChildren = (s.hash t).nChildren := by
  unfold countView
  cases (graph.tensor node).viewSrc with
  | none => exact ⟨.refl s t, rfl⟩
  | some v =>
    change SameBlock s (if (graph.tensor node).op = .none then s else s.modify v (addViews 1)) t ∧
      ((if (graph.tensor node).op = .none then s else s.modify v (addViews 1)).hash t).nChildren = _
    split_ifs
    · exact ⟨.refl s t, rfl⟩
    · refine ⟨sameBlock_modify s v (addViews 1) (fun _ => ⟨rfl, rfl, rfl⟩) t, ?_⟩
      by_cases ht : t = v
      · subst ht
        simp
      · simp [ht]

/-- The tensor had no block and has one in the buffer asked for. -/
def NewBlock (s s' : GallocrState) (t : ℕ) (bufferId : ℤ) : Prop :=
  (s.hash t).allocated = false ∧ (s'.hash t).allocated = true ∧ Asked s' t bufferId

theorem allocateInput_hash (hself : NoSelfReuse graph) (ho : Orderly graph) (hin : InGraph graph t)
    (hown : OwnsPlain graph s) (hm : allocateInput buffers graph bufferId s t = .ok s') :
    OwnsPlain graph s' ∧ (∀ v, (s'.hash v).nChildren = (s.hash v).nChildren) ∧ (∀ v, v ≠ t → s'.hash v = s.hash v) ∧
      (SameBlock s s' t ∨ (graph.tensor t).input = true ∧ NewBlock s s' t bufferId) ∧
      ((graph.tensor t).input = true → Plain graph t → (s'.hash t).allocated = true) := by
  unfold allocateInput at hm
  split_ifs at hm with hinput
  · obtain ⟨hcase, hid, hgranted⟩ := allocateNode_hash hself hin hown hm
    have hop : Plain graph t → ggmlOpCanInplace (graph.tensor t).op = false := fun hp => ho.inputs t hin hp hinput
    refine ⟨hcase.ownsPlain hown, fun v => (hcase.counters v).1, fun v hv => hcase.other (.inl fun hp _ => hop hp) hv,
      ?_, fun _ hp => hcase.allocated hp⟩
    by_cases hnew : Plain graph t ∧ (s.hash t).allocated = false
    · exact .inr ⟨hinput, hnew.2, hcase.allocated hnew.1, (hgranted hnew.1 hnew.2).asked hid (.inl (hop hnew.1))⟩
    · have hkept : Plain graph t → (s.hash t).allocated = true := by
        intro hp
        by_contra hno
        exact hnew ⟨hp, by simpa using hno⟩
      exact .inl (sameBlock_of_hash (by rw [hcase.eq_of_available hkept]))
  · cases hm
    exact ⟨hown, fun _ => rfl, fun _ _ => rfl, .inl (.refl s t), fun h => absurd h hinput⟩

theorem countSrc_listed {src : ℕ} (hself : NoSelfReuse graph) (ho : Orderly graph) (hin : InGraph graph src)
    (hown : OwnsPlain graph s)
    (hheld : Listed graph src → Plain graph src → (graph.tensor src).input = true → (s.hash src).allocated = true)
    (hm : countSrc buffers graph bufferId s src = .ok s') :
    OwnsPlain graph s' ∧ (∀ v, (s'.hash v).nChildren = (s.hash v).nChildren + (if v = src then 1 else 0)) ∧
      ∀ v, Listed graph v → SameBlock s s' v := by
  have hcounted := sameBlock_modify s src (addChildren 1) (fun _ => ⟨rfl, rfl, rfl⟩)
  obtain ⟨hown', hchildren, hother, hblock, -⟩ := allocateInput_hash hself ho hin (hown.of_sameBlock hcounted) hm
  refine ⟨hown', ?_, ?_⟩
  · intro v
    rw [hchildren v]
    by_cases hv : v = src
    · subst hv
      simp
    · simp [hv]
  · intro v hv
    refine (hcounted v).trans ?_
    by_cases hvs : v = src
    · subst hvs
      rcases hblock with hsame | ⟨hinput, hno, hnew, -⟩
      · exact hsame
      · have hheld := hheld hv (hown' v hnew) hinput
        rw [(hcounted v).1, hheld] at hno
        cases hno
    · exact sameBlock_of_hash (hother v hvs)

/-- The round of a node: of the listed tensors only the node may change, and only when it is an input. -/
theorem countNode_listed (hself : NoSelfReuse graph) (ho : Orderly graph) (hnode : node ∈ graph.nodes)
    (hown : OwnsPlain graph s)
    (hheld : ∀ src ∈ (graph.tensor node).src, src ≠ node → Listed graph src → Plain graph src →
      (graph.tensor src).input = true → (s.hash src).allocated = true)
    (hm : countNode buffers graph bufferId s node = .ok s') :
    OwnsPlain graph s' ∧ (∀ v, (s'.hash v).nChildren = (s.hash v).nChildren + ((graph.tensor node).src.count v : ℕ)) ∧
      (∀ v, Listed graph v → v ≠ node → SameBlock s s' v) ∧
      (SameBlock s s' node ∨ NewBlock s s' node bufferId) ∧
      ((graph.tensor node).input = true → Plain graph node → (s'.hash node).allocated = true) := by
  have hviews := @countView_block graph s node
  unfold countNode at hm
  obtain ⟨u, hu, hm⟩ := except_bind_ok.1 hm
  obtain ⟨hownu, hchildrenu, hotheru, hblocku, hallocu⟩ :=
    allocateInput_hash hself ho (.inl hnode) (hown.of_sameBlock fun t => (hviews t).1) hu
  have hothersu : ∀ v, v ≠ node → SameBlock s u v := fun v hv => (hviews v).1.trans (sameBlock_of_hash (hotheru v hv))
  have hrun := foldlM_steps (I := fun todo w => OwnsPlain graph w ∧ (∀ src ∈ todo, src ∈ (graph.tensor node).src) ∧
      (∀ v, (w.hash v).nChildren + (todo.count v : ℕ) = (s.hash v).nChildren + ((graph.tensor node).src.count v : ℕ)) ∧
      ∀ v, Listed graph v → SameBlock u w v) ?_
    ⟨hownu, fun _ h => h, fun v => by rw [hchildrenu, (hviews v).2], fun v _ => .refl u v⟩ hm
  · obtain ⟨hown', -, hchildren, hsame⟩ := hrun
    have hnodesame := hsame node (.inl hnode)
    refine ⟨hown', fun v => by simpa using hchildren v, fun v hv hne => (hothersu v hne).trans (hsame v hv), ?_, ?_⟩
    · rcases hblocku with hsamed | ⟨-, hno, hnew, hasked⟩
      · exact .inl ((hviews node).1.trans (hsamed.trans hnodesame))
      · exact .inr ⟨(hviews node).1.1.symm.trans hno, hnodesame.1.trans hnew, hasked.samePlace hnodesame.2⟩
    · intro hinput hplain
      exact hnodesame.1.trans (hallocu hinput hplain)
  · rintro src todo w w' ⟨hownw, hmem, hchildren, hsame⟩ hstep
    have hsrc := hmem src List.mem_cons_self
    have hheldw : Listed graph src → Plain graph src → (graph.tensor src).input = true →
        (w.hash src).allocated = true := by
      intro hl hplain hinput
      rw [(hsame src hl).1]
      by_cases hne : src = node
      · subst hne
        exact hallocu hinput hplain
      · rw [(hothersu src hne).1]
        exact hheld src hsrc hne hl hplain hinput
    obtain ⟨hownw', hchildren', hsame'⟩ :=
      countSrc_listed hself ho (.inr (.inr ⟨node, hnode, hsrc⟩)) hownw hheldw hstep
    refine ⟨hownw', fun q hq => hmem q (List.mem_cons_of_mem _ hq), ?_, fun v hv => (hsame v hv).trans (hsame' v hv)⟩
    intro v
    have hold := hchildren v
    rw [List.count_cons] at hold
    rw [hchildren' v, ← hold]
    by_cases hv : v = src
    · subst hv
      simp
      omega
    · simp [hv, Ne.symm hv]

structure Tallied (graph : Cgraph) (nodeBufferIds leafBufferIds : ℕ → ℤ) (i : ℕ) (s : GallocrState) : Prop where
  own : OwnsPlain graph s
  children : ∀ t, (s.hash t).nChildren + ((readsOf graph (graph.nodes.drop i)).count t : ℕ) =
    ((readsOf graph graph.nodes).count t : ℕ)
  leafs : ∀ (j t : ℕ), graph.leafs[j]? = some t → Plain graph t →
    (s.hash t).allocated = true ∧ Asked s t (leafBufferIds j)
  nodes : ∀ (j t : ℕ), graph.nodes[j]? = some t → (s.hash t).allocated = true → Asked s t (nodeBufferIds j)
  inputs : ∀ (j t : ℕ), j < i → graph.nodes[j]? = some t → (graph.tensor t).input = true → Plain graph t →
    (s.hash t).allocated = true

theorem Orderly.nodes_nodup (ho : Orderly graph) : graph.nodes.Nodup := (List.nodup_append.1 ho.distinct).1

theorem Orderly.leafs_nodup (ho : Orderly graph) : graph.leafs.Nodup := (List.nodup_append.1 ho.distinct).2.1

theorem Orderly.not_leaf (ho : Orderly graph) (ht : t ∈ graph.nodes) : t ∉ graph.leafs :=
  fun hl => (List.nodup_append.1 ho.distinct).2.2 t ht t hl rfl

theorem nodes_split {i : ℕ} (hi : graph.nodes[i]? = some node) :
    graph.nodes = graph.nodes.take i ++ node :: graph.nodes.drop (i + 1) := by
  obtain ⟨hlt, hget⟩ := List.getElem?_eq_some_iff.1 hi
  rw [← hget, List.cons_getElem_drop_succ, List.take_append_drop]

theorem drop_split {i : ℕ} (hi : graph.nodes[i]? = some node) :
    graph.nodes.drop i = node :: graph.nodes.drop (i + 1) := by
  obtain ⟨hlt, hget⟩ := List.getElem?_eq_some_iff.1 hi
  rw [← hget, List.cons_getElem_drop_succ]

theorem Orderly.source {i src : ℕ} (ho : Orderly graph) (hi : graph.nodes[i]? = some node)
    (hsrc : src ∈ (graph.tensor node).src) (hne : src ≠ node) (hl : Listed graph src) :
    src ∈ graph.leafs ∨ ∃ j < i, graph.nodes[j]? = some src := by
  rcases hl with hnode | hleaf
  · right
    have horder := ho.order _ node _ (nodes_split hi) src hsrc
    obtain ⟨j, hj⟩ := List.mem_iff_getElem?.1 hnode
    refine ⟨j, ?_, hj⟩
    by_contra hge
    by_cases hij : j = i
    · subst hij
      rw [hi] at hj
      exact hne (Option.some.inj hj).symm
    · have hlt : i < j := by omega
      exact horder (mem_drop_of_getElem? hlt hj)
  · exact .inl hleaf

theorem Tallied.step {i : ℕ} (hself : NoSelfReuse graph) (ho : Orderly graph)
    (h : Tallied graph nodeBufferIds leafBufferIds i s) (hi : graph.nodes[i]? = some node)
    (hm : countNode buffers graph (nodeBufferIds i) s node = .ok s') :
    Tallied graph nodeBufferIds leafBufferIds (i + 1) s' := by
  have hnode := List.mem_of_getElem? hi
  have hheld : ∀ src ∈ (graph.tensor node).src, src ≠ node → Listed graph src → Plain graph src →
      (graph.tensor src).input = true → (s.hash src).allocated = true := by
    intro src hsrc hne hl hplain hinput
    rcases ho.source hi hsrc hne hl with hleaf | ⟨j, hj, hget⟩
    · obtain ⟨j, hj⟩ := List.mem_iff_getElem?.1 hleaf
      exact (h.leafs j src hj hplain).1
    · exact h.inputs j src hj hget hinput hplain
  obtain ⟨hown, hchildren, hsame, hself', halloc⟩ := countNode_listed hself ho hnode h.own hheld hm
  refine ⟨hown, ?_, ?_, ?_, ?_⟩
  · intro t
    have hold := h.children t
    rw [drop_split hi, readsOf_cons, List.count_append] at hold
    rw [hchildren t, ← hold]
    push_cast
    omega
  · intro j t hj hplain
    have hleaf := List.mem_of_getElem? hj
    have hne : t ≠ node := fun he => ho.not_leaf hnode (he ▸ hleaf)
    obtain ⟨hold, hasked⟩ := h.leafs j t hj hplain
    have hblock := hsame t (.inr hleaf) hne
    exact ⟨hblock.1.trans hold, hasked.samePlace hblock.2⟩
  · intro j t hj ht
    by_cases hne : t = node
    · subst hne
      have hij := getElem?_inj_of_nodup ho.nodes_nodup hj hi
      subst hij
      rcases hself' with hblock | ⟨-, -, hasked⟩
      · exact (h.nodes j t hj (hblock.1.symm.trans ht)).samePlace hblock.2
      · exact hasked
    · have hblock := hsame t (.inl (List.mem_of_getElem? hj)) hne
      exact (h.nodes j t hj (hblock.1.symm.trans ht)).samePlace hblock.2
  · intro j t hj hget hinput hplain
    by_cases hne : t = node
    · subst hne
      exact halloc hinput hplain
    · have hji : j ≠ i := by
        intro hji
        subst hji
        rw [hi] at hget
        exact hne (Option.some.inj hget).symm
      rw [(hsame t (.inl (List.mem_of_getElem? hget)) hne).1]
      exact h.inputs j t (by omega) hget hinput hplain

/-! The loop that allocates the nodes. -/

/-- The tensor is no node to come, and holds its block if it is still to be read. -/
def Still (graph : Cgraph) (i : ℕ) (s : GallocrState) (t : ℕ) : Prop :=
  t ∉ graph.nodes.drop i ∧ ((s.hash t).allocated = true ∨ t ∉ readsOf graph (graph.nodes.drop i))

/-- Node `j` stands where a source of its layout was, that no later node reads. -/
def InPlace (graph : Cgraph) (j : ℕ) (s : GallocrState) (node : ℕ) : Prop :=
  ∃ parent ∈ (graph.tensor node).src, Plain graph parent ∧ ggmlOpCanInplace (graph.tensor node).op = true ∧
    ggmlAreSameLayout (graph.tensor node) (graph.tensor parent) = true ∧ parent ∉ graph.nodes.drop (j + 1) ∧
    parent ∉ readsOf graph (graph.nodes.drop (j + 1)) ∧ (s.hash node).bufferId = (s.hash parent).bufferId ∧
    (s.hash node).addr = (s.hash parent).addr

structure Serving (graph : Cgraph) (nodeBufferIds leafBufferIds : ℕ → ℤ) (i : ℕ) (s : GallocrState) : Prop where
  own : OwnsPlain graph s
  children : ∀ t, (s.hash t).nChildren = ((readsOf graph (graph.nodes.drop i)).count t : ℕ)
  leafs : ∀ (j t : ℕ), graph.leafs[j]? = some t → Plain graph t → Still graph i s t ∧ Asked s t (leafBufferIds j)
  early : ∀ (j t : ℕ), i ≤ j → graph.nodes[j]? = some t → (s.hash t).allocated = true → Asked s t (nodeBufferIds j)
  done : ∀ (j t : ℕ), j < i → graph.nodes[j]? = some t → Plain graph t →
    Still graph i s t ∧ (Asked s t (nodeBufferIds j) ∨ InPlace graph j s t)

/-- The loop over the parents of a node: places stay, and only what nobody reads any more loses its block. -/
theorem updateParents_hash {todo reads : List ℕ} (hc : ∀ t, (u.hash t).nChildren = ((todo ++ reads).count t : ℕ))
    (hm : todo.foldlM (updateParent buffers graph) u = .ok s') :
    (OwnsPlain graph u → OwnsPlain graph s') ∧ (∀ t, (s'.hash t).nChildren = (reads.count t : ℕ)) ∧
      ∀ t, SamePlace u s' t ∧ ((s'.hash t).allocated = (u.hash t).allocated ∨
        (s'.hash t).allocated = false ∧ t ∉ reads) := by
  have hrun := foldlM_steps (I := fun todo w => (OwnsPlain graph u → OwnsPlain graph w) ∧
      (∀ t, (w.hash t).nChildren = ((todo ++ reads).count t : ℕ)) ∧
      ∀ t, SamePlace u w t ∧ ((w.hash t).allocated = (u.hash t).allocated ∨
        (w.hash t).allocated = false ∧ t ∉ reads)) ?_
    ⟨id, hc, fun t => ⟨⟨rfl, rfl⟩, .inl rfl⟩⟩ hm
  · simpa using hrun
  · rintro q rest w w' ⟨hown, hcount, hkept⟩ hstep
    have hupdate := updateParent_hash hstep
    have hcount' : ∀ t, (w'.hash t).nChildren = ((rest ++ reads).count t : ℕ) := by
      intro t
      have hold := hcount t
      rw [List.cons_append, List.count_cons] at hold
      rw [hupdate.children t, hold]
      by_cases ht : t = q
      · subst ht
        simp
      · simp [ht, Ne.symm ht]
    refine ⟨fun h => hupdate.ownsPlain (hown h), hcount', fun t => ⟨?_, ?_⟩⟩
    · exact ⟨(hupdate.place t).1.trans (hkept t).1.1, (hupdate.place t).2.trans (hkept t).1.2⟩
    · rcases hupdate.freed t with hsame | ⟨-, hfreed, -, hzero, -⟩
      · rw [hsame]
        exact (hkept t).2
      · have hnone := hcount' t
        rw [hzero, List.count_append] at hnone
        exact .inr ⟨hfreed, List.count_eq_zero.1 (by omega)⟩

theorem mem_reads {i src : ℕ} (hi : graph.nodes[i]? = some node) (hsrc : src ∈ (graph.tensor node).src) :
    src ∈ readsOf graph (graph.nodes.drop i) := by
  rw [drop_split hi, readsOf_cons]
  exact List.mem_append_left _ hsrc

theorem Serving.source_held {i src : ℕ} (hself : NoSelfReuse graph) (ho : Orderly graph)
    (h : Serving graph nodeBufferIds leafBufferIds i s) (hi : graph.nodes[i]? = some node)
    (hsrc : src ∈ (graph.tensor node).src) (hplain : Plain graph src) (hno : (s.hash src).allocated = false) :
    ggmlOpCanInplace (graph.tensor src).op = false := by
  have hnode := List.mem_of_getElem? hi
  by_contra hop
  have hop : ggmlOpCanInplace (graph.tensor src).op = true := by simpa using hop
  by_cases hne : src = node
  · subst hne
    exact hself src (.inl hnode) hplain hop hsrc
  · have hstill : Still graph i s src := by
      rcases ho.source hi hsrc hne (ho.inplace node hnode src hsrc hplain hop) with hleaf | ⟨j, hj, hget⟩
      · obtain ⟨j, hj⟩ := List.mem_iff_getElem?.1 hleaf
        exact (h.leafs j src hj hplain).1
      · exact (h.done j src hj hget hplain).1
    rcases hstill.2 with hheld | hunread
    · rw [hno] at hheld
      cases hheld
    · exact hunread (mem_reads hi hsrc)

theorem NewBlock.of_hash {bufferId : ℤ} (h : NewBlock s u t bufferId) (hsame : s'.hash t = u.hash t) :
    NewBlock s s' t bufferId := by
  unfold NewBlock Asked
  rw [hsame]
  exact h

/-- The loop that allocates the parents: a source that is in no list may get a block, and a node that reads itself. -/
theorem parents_hash {i : ℕ} (hself : NoSelfReuse graph) (ho : Orderly graph)
    (h : Serving graph nodeBufferIds leafBufferIds i s) (hi : graph.nodes[i]? = some node)
    (hm : (graph.tensor node).src.foldlM (fun s parent => allocateNode buffers graph s parent bufferId) s = .ok w) :
    OwnsPlain graph w ∧ (∀ t, (w.hash t).nChildren = (s.hash t).nChildren) ∧
      (∀ t, (s.hash t).allocated = true ∨ t ∉ (graph.tensor node).src → w.hash t = s.hash t) ∧
      (w.hash node = s.hash node ∨ NewBlock s w node bufferId) := by
  have hnode := List.mem_of_getElem? hi
  have hrun := foldlM_steps (I := fun todo w => OwnsPlain graph w ∧ (∀ q ∈ todo, q ∈ (graph.tensor node).src) ∧
      (∀ t, (w.hash t).nChildren = (s.hash t).nChildren) ∧
      (∀ t, (s.hash t).allocated = true ∨ t ∉ (graph.tensor node).src → w.hash t = s.hash t) ∧
      (w.hash node = s.hash node ∨ NewBlock s w node bufferId)) ?_
    ⟨h.own, fun _ hq => hq, fun _ => rfl, fun _ _ => rfl, .inl rfl⟩ hm
  · exact ⟨hrun.1, hrun.2.2⟩
  · rintro q todo v v' ⟨hown, hmem, hchildren, hkept, hnew⟩ hstep
    have hsrc := hmem q List.mem_cons_self
    obtain ⟨hcase, hid, hgranted⟩ := allocateNode_hash hself (.inr (.inr ⟨node, hnode, hsrc⟩)) hown hstep
    have hop : Plain graph q → (v.hash q).allocated = false → ggmlOpCanInplace (graph.tensor q).op = false := by
      intro hplain hno
      cases hold : (s.hash q).allocated with
      | true =>
        rw [hkept q (.inl hold), hold] at hno
        cases hno
      | false => exact h.source_held hself ho hi hsrc hplain hold
    refine ⟨hcase.ownsPlain hown, fun p hp => hmem p (List.mem_cons_of_mem _ hp),
      fun t => (hcase.counters t).1.trans (hchildren t), ?_, ?_⟩
    · intro t ht
      by_cases htq : t = q
      · subst htq
        have hold := ht.resolve_right (not_not.2 hsrc)
        have hheld : (v.hash t).allocated = true := by rw [hkept t ht, hold]
        rw [hcase.eq_of_allocated hheld, hkept t ht]
      · rw [hcase.other (.inl hop) htq, hkept t ht]
    · by_cases hqn : node = q
      · subst hqn
        by_cases hfree : Plain graph node ∧ (v.hash node).allocated = false
        · rcases hnew with hsame | hnew
          · refine .inr ⟨?_, hcase.allocated hfree.1, (hgranted hfree.1 hfree.2).asked hid (.inl (hop hfree.1 hfree.2))⟩
            rw [← hsame]
            exact hfree.2
          · have hheld := hnew.2.1
            rw [hfree.2] at hheld
            cases hheld
        · have hkeep : Plain graph node → (v.hash node).allocated = true := by
            intro hp
            by_contra hno
            exact hfree ⟨hp, by simpa using hno⟩
          rw [hcase.eq_of_available hkeep]
          exact hnew
      · have hsame := hcase.other (.inl hop) hqn
        rcases hnew with hold | hnew
        · exact .inl (hsame.trans hold)
        · exact .inr (hnew.of_hash hsame)

/-- Another tensor stays where it is. It loses its block only to a node that is its one reader. -/
theorem AllocateNode.others (h : AllocateNode buffers graph s node s') (hne : t ≠ node) :
    SamePlace s s' t ∧ ((s'.hash t).allocated = (s.hash t).allocated ∨
      t ∈ (graph.tensor node).src ∧ (s.hash t).nChildren = 1) := by
  cases h with
  | skip _ hs => rw [hs]; exact ⟨⟨rfl, rfl⟩, .inl rfl⟩
  | fresh _ _ hother _ =>
    have hblock := sameBlock_of_hash (hother t hne)
    exact ⟨hblock.2, .inl hblock.1⟩
  | reuse parent _ _ _ hsrc _ _ _ hone _ _ hother hparent _ =>
    by_cases hp : t = parent
    · subst hp
      unfold SamePlace
      rw [hparent]
      exact ⟨⟨rfl, rfl⟩, .inr ⟨hsrc, hone⟩⟩
    · have hblock := sameBlock_of_hash (hother t hne hp)
      exact ⟨hblock.2, .inl hblock.1⟩

theorem SamePlace.trans (h : SamePlace s u t) (h' : SamePlace u s' t) : SamePlace s s' t :=
  ⟨h'.1.trans h.1, h'.2.trans h.2⟩

theorem samePlace_of_hash (h : s'.hash t = s.hash t) : SamePlace s s' t := (sameBlock_of_hash h).2

/-- What the round of a node leaves of another tensor that has a block or is no source of it. -/
def Passed (graph : Cgraph) (i : ℕ) (s : GallocrState) (node : ℕ) (s' : GallocrState) : Prop :=
  ∀ t, t ≠ node → (s.hash t).allocated = true ∨ t ∉ (graph.tensor node).src →
    SamePlace s s' t ∧ ((s'.hash t).allocated = (s.hash t).allocated ∨
      (s'.hash t).allocated = false ∧ t ∉ readsOf graph (graph.nodes.drop (i + 1)) ∨
      t ∈ (graph.tensor node).src ∧ t ∉ readsOf graph (graph.nodes.drop (i + 1)))

theorem Passed.still {i : ℕ} (h : Passed graph i s node s') (hi : graph.nodes[i]? = some node)
    (hstill : Still graph i s t) : SamePlace s s' t ∧ Still graph (i + 1) s' t := by
  obtain ⟨hnew, hheld⟩ := hstill
  rw [drop_split hi] at hnew
  obtain ⟨hne, hrest⟩ := not_or.1 (fun hmem => hnew (List.mem_cons.2 hmem))
  rw [drop_split hi, readsOf_cons] at hheld
  have hnosrc : (s.hash t).allocated = true ∨ t ∉ (graph.tensor node).src :=
    hheld.imp id (fun hr hsrc => hr (List.mem_append_left _ hsrc))
  obtain ⟨hplace, halloc⟩ := h t hne hnosrc
  refine ⟨hplace, hrest, ?_⟩
  rcases halloc with hsame | ⟨-, hunread⟩ | ⟨-, hunread⟩
  · exact hheld.imp hsame.trans (fun hr hread => hr (List.mem_append_right _ hread))
  · exact .inr hunread
  · exact .inr hunread

theorem readsOf_drop {i j : ℕ} (hle : i ≤ j) (h : t ∈ readsOf graph (graph.nodes.drop j)) :
    t ∈ readsOf graph (graph.nodes.drop i) := by
  obtain ⟨n, hn, hsrc⟩ := List.mem_flatMap.1 h
  exact List.mem_flatMap.2 ⟨n, (List.drop_sublist_drop_left graph.nodes hle).subset hn, hsrc⟩

theorem Passed.inPlace {i j : ℕ} (h : Passed graph i s node s') (hi : graph.nodes[i]? = some node) (hj : j < i)
    (hstill : Still graph i s t) (hin : InPlace graph j s t) : InPlace graph j s' t := by
  obtain ⟨parent, hsrc, hplain, hop, hlayout, hnew, hunread, hid, haddr⟩ := hin
  have hrest : parent ∉ graph.nodes.drop i := fun hmem => hnew ((List.drop_sublist_drop_left graph.nodes hj).subset hmem)
  have hlater : parent ∉ readsOf graph (graph.nodes.drop i) := fun hread => hunread (readsOf_drop hj hread)
  obtain ⟨hplace, -⟩ := h.still hi hstill
  obtain ⟨hparent, -⟩ := h.still hi ⟨hrest, .inr hlater⟩
  refine ⟨parent, hsrc, hplain, hop, hlayout, hnew, hunread, ?_, ?_⟩
  · rw [hplace.1, hparent.1, hid]
  · rw [hplace.2, hparent.2, haddr]

theorem drop_not_self {i : ℕ} (ho : Orderly graph) (hi : graph.nodes[i]? = some node) :
    node ∉ graph.nodes.drop (i + 1) := by
  have hnodup := ho.nodes_nodup.sublist (List.drop_sublist i graph.nodes)
  rw [drop_split hi] at hnodup
  exact (List.nodup_cons.1 hnodup).1

theorem Serving.step {i : ℕ} (hself : NoSelfReuse graph) (ho : Orderly graph)
    (h : Serving graph nodeBufferIds leafBufferIds i s) (hi : graph.nodes[i]? = some node)
    (hm : allocNode buffers graph (nodeBufferIds i) s node = .ok s') :
    Serving graph nodeBufferIds leafBufferIds (i + 1) s' := by
  have hnode := List.mem_of_getElem? hi
  have horder := ho.order _ node _ (nodes_split hi)
  unfold allocNode at hm
  obtain ⟨w, hw, hm⟩ := except_bind_ok.1 hm
  obtain ⟨u, hu, hm⟩ := except_bind_ok.1 hm
  obtain ⟨hownw, hchildrenw, hkeptw, hnodew⟩ := parents_hash hself ho h hi hw
  obtain ⟨hcase, hid, hgranted⟩ := allocateNode_hash hself (.inl hnode) hownw hu
  have hcountw : ∀ t, (w.hash t).nChildren =
      (((graph.tensor node).src ++ readsOf graph (graph.nodes.drop (i + 1))).count t : ℕ) := by
    intro t
    rw [hchildrenw, h.children, drop_split hi, readsOf_cons]
  have hone : ∀ t, t ∈ (graph.tensor node).src → (w.hash t).nChildren = 1 →
      t ∉ readsOf graph (graph.nodes.drop (i + 1)) := by
    intro t hsrc hchildren
    have hcount := hcountw t
    have hpos := List.count_pos_iff.2 hsrc
    rw [hchildren, List.count_append] at hcount
    exact List.count_eq_zero.1 (by omega)
  obtain ⟨hown', hchildren', hplaced⟩ := updateParents_hash (fun t => (hcase.counters t).1.trans (hcountw t)) hm
  have hpassed : Passed graph i s node s' := by
    intro t hne ht
    obtain ⟨hplaceu, hallocu⟩ := hcase.others hne
    obtain ⟨hplace', halloc'⟩ := hplaced t
    have hsame := hkeptw t ht
    refine ⟨(samePlace_of_hash hsame).trans (hplaceu.trans hplace'), ?_⟩
    rcases halloc' with heq | hfreed
    · rcases hallocu with hu | ⟨hsrc, hchildren⟩
      · exact .inl (by rw [heq, hu, hsame])
      · exact .inr (.inr ⟨hsrc, hone t hsrc hchildren⟩)
    · exact .inr (.inl hfreed)
  refine ⟨hown' (hcase.ownsPlain hownw), hchildren', ?_, ?_, ?_⟩
  · intro j t hj hplain
    obtain ⟨hstill, hasked⟩ := h.leafs j t hj hplain
    obtain ⟨hplace, hstill'⟩ := hpassed.still hi hstill
    exact ⟨hstill', hasked.samePlace hplace⟩
  · intro j t hj hget ht
    have hrest : t ∈ graph.nodes.drop (i + 1) := mem_drop_of_getElem? hj hget
    have hne : t ≠ node := fun he => drop_not_self ho hi (he ▸ hrest)
    have hsrc : t ∉ (graph.tensor node).src := fun hsrc => horder t hsrc hrest
    obtain ⟨hplace, halloc⟩ := hpassed t hne (.inr hsrc)
    have hold : (s.hash t).allocated = true := by
      rcases halloc with hsame | ⟨hfreed, -⟩ | ⟨hsrc', -⟩
      · exact hsame.symm.trans ht
      · rw [ht] at hfreed
        cases hfreed
      · exact absurd hsrc' hsrc
    exact (h.early j t (by omega) hget hold).samePlace hplace
  · intro j t hj hget hplain
    by_cases hlast : j = i
    · subst hlast
      rw [hi] at hget
      cases hget
      obtain ⟨hplace', halloc'⟩ := hplaced node
      have hheldu := hcase.allocated hplain
      refine ⟨⟨drop_not_self ho hi, ?_⟩, ?_⟩
      · exact halloc'.imp (fun hsame => hsame.trans hheldu) And.right
      · cases hheldw : (w.hash node).allocated with
        | true =>
          have hsame : u = w := hcase.eq_of_allocated hheldw
          subst hsame
          left
          rcases hnodew with hold | ⟨-, -, hasked⟩
          · have holds : (s.hash node).allocated = true := by rw [← hold, hheldw]
            exact ((h.early j node (Nat.le_refl j) hi holds).samePlace (samePlace_of_hash hold)).samePlace hplace'
          · exact hasked.samePlace hplace'
        | false =>
          rcases hgranted hplain hheldw with hasked | ⟨parent, hsrc, hop, hlayout, hheld, hchildren, hids, haddrs⟩
          · left
            exact Asked.samePlace ⟨hid, hasked⟩ hplace'
          · right
            have hne : parent ≠ node := fun he => hself node (.inl hnode) hplain hop (he ▸ hsrc)
            have hparent := (hcase.others hne).1.trans (hplaced parent).1
            refine ⟨parent, hsrc, hownw parent hheld, hop, hlayout, horder parent hsrc, hone parent hsrc hchildren,
              ?_, ?_⟩
            · rw [hplace'.1, hids, hparent.1]
            · rw [hplace'.2, haddrs, hparent.2]
    · have hlt : j < i := by omega
      obtain ⟨hstill, hwhere⟩ := h.done j t hlt hget hplain
      obtain ⟨hplace, hstill'⟩ := hpassed.still hi hstill
      exact ⟨hstill', hwhere.imp (fun hasked => hasked.samePlace hplace) (hpassed.inPlace hi hlt hstill)⟩

/-! The whole plan. -/

theorem leafsServed (hself : NoSelfReuse graph) (ho : Orderly graph)
    (h : graph.leafs.zipIdx.foldlM (fun s p => allocateNode buffers graph s p.1 (leafBufferIds p.2))
      (emptyState buffers) = .ok s) : LeafsServed graph leafBufferIds graph.leafs.length s := by
  have hstart : LeafsServed graph leafBufferIds 0 (emptyState buffers) := by
    refine ⟨?_, fun _ => rfl, ?_, ?_⟩
    · intro t ht
      cases ht
    · intro t ht
      cases ht
    · intro j hj
      omega
  have hstep : ∀ (i t : ℕ) (u u' : GallocrState), graph.leafs[i]? = some t → LeafsServed graph leafBufferIds i u →
      allocateNode buffers graph u t (leafBufferIds i) = .ok u' → LeafsServed graph leafBufferIds (i + 1) u' := by
    intro i t u u' hi hu hm
    exact hu.step hself ho.leafs_nodup hi hm
  exact foldlM_zipIdx hstart hstep h

theorem tallied (hself : NoSelfReuse graph) (ho : Orderly graph)
    (hs : LeafsServed graph leafBufferIds graph.leafs.length s)
    (h : graph.nodes.zipIdx.foldlM (fun s p => countNode buffers graph (nodeBufferIds p.2) s p.1) s = .ok s') :
    Tallied graph nodeBufferIds leafBufferIds graph.nodes.length s' := by
  have hstart : Tallied graph nodeBufferIds leafBufferIds 0 s := by
    refine ⟨hs.own, ?_, ?_, ?_, ?_⟩
    · intro t
      rw [hs.children t, List.drop_zero, zero_add]
    · intro j t hj hplain
      exact hs.leafs j (List.getElem?_eq_some_iff.1 hj).1 t hj hplain
    · intro j t hj ht
      obtain ⟨k, -, hk⟩ := hs.only t ht
      exact absurd (List.mem_of_getElem? hk) (ho.not_leaf (List.mem_of_getElem? hj))
    · intro j t hj
      omega
  have hstep : ∀ (i t : ℕ) (u u' : GallocrState), graph.nodes[i]? = some t →
      Tallied graph nodeBufferIds leafBufferIds i u → countNode buffers graph (nodeBufferIds i) u t = .ok u' →
      Tallied graph nodeBufferIds leafBufferIds (i + 1) u' := by
    intro i t u u' hi hu hm
    exact hu.step hself ho hi hm
  exact foldlM_zipIdx hstart hstep h

theorem serving (hself : NoSelfReuse graph) (ho : Orderly graph)
    (hs : Tallied graph nodeBufferIds leafBufferIds graph.nodes.length s)
    (h : graph.nodes.zipIdx.foldlM (fun s p => allocNode buffers graph (nodeBufferIds p.2) s p.1) s = .ok s') :
    Serving graph nodeBufferIds leafBufferIds graph.nodes.length s' := by
  have hstart : Serving graph nodeBufferIds leafBufferIds 0 s := by
    refine ⟨hs.own, ?_, ?_, ?_, ?_⟩
    · intro t
      have hcount := hs.children t
      rw [List.drop_length] at hcount
      rw [List.drop_zero, ← hcount]
      simp [readsOf]
    · intro j t hj hplain
      obtain ⟨hheld, hasked⟩ := hs.leafs j t hj hplain
      exact ⟨⟨fun hnode => ho.not_leaf hnode (List.mem_of_getElem? hj), .inl hheld⟩, hasked⟩
    · intro j t _ hj ht
      exact hs.nodes j t hj ht
    · intro j t hj
      omega
  have hstep : ∀ (i t : ℕ) (u u' : GallocrState), graph.nodes[i]? = some t →
      Serving graph nodeBufferIds leafBufferIds i u → allocNode buffers graph (nodeBufferIds i) u t = .ok u' →
      Serving graph nodeBufferIds leafBufferIds (i + 1) u' := by
    intro i t u u' hi hu hm
    exact hu.step hself ho hi hm
  exact foldlM_zipIdx hstart hstep h

/-- The place of the node is the one the plan gives to a source of its layout that no later node reads. -/
def InPlaceOfSource (graph : Cgraph) (i node : ℕ) (alloc : TensorAlloc × List TensorAlloc) : Prop :=
  ggmlOpCanInplace (graph.tensor node).op = true ∧
    ∃ k src : ℕ, (graph.tensor node).src[k]? = some src ∧ Plain graph src ∧
      ggmlAreSameLayout (graph.tensor node) (graph.tensor src) = true ∧
      (∀ j reader, i < j → graph.nodes[j]? = some reader → src ∉ (graph.tensor reader).src) ∧
      (alloc.2[k]?).map (fun a : TensorAlloc => (a.bufferId, a.addr)) = some (alloc.1.bufferId, alloc.1.addr)

theorem Asked.tensorAlloc (h : Asked s t bufferId) (hplain : Plain graph t) :
    (tensorAlloc buffers graph s t).bufferId = bufferId := by
  have hid := h.1
  rw [tensorAlloc_plain hplain, h.2]
  exact Int.toNat_of_nonneg hid

/-- Leafs are in the buffers asked for, and so are the nodes that do not stand where a source was. -/
theorem plan_buffer_ids {plan : GallocrPlan} (hself : NoSelfReuse graph) (ho : Orderly graph)
    (h : gallocrReserveN buffers graph nodeBufferIds leafBufferIds = .ok (s, plan)) :
    (∀ i t, graph.leafs[i]? = some t → Plain graph t →
      ∃ alloc, plan.leafAllocs[i]? = some alloc ∧ alloc.bufferId = leafBufferIds i) ∧
    ∀ i node, graph.nodes[i]? = some node → Plain graph node →
      ∃ alloc, plan.nodeAllocs[i]? = some alloc ∧
        (alloc.1.bufferId = nodeBufferIds i ∨ InPlaceOfSource graph i node alloc) := by
  obtain ⟨rfl, u, w, hleafs, hcount, hnodes⟩ := reserve_ok h
  have hserved := serving hself ho (tallied hself ho (leafsServed hself ho hleafs) hcount) hnodes
  constructor
  · intro i t hi hplain
    have hasked := (hserved.leafs i t hi hplain).2
    refine ⟨tensorAlloc buffers graph s t, ?_, hasked.tensorAlloc hplain⟩
    change (graph.leafs.map (tensorAlloc buffers graph s))[i]? = _
    rw [List.getElem?_map, hi]
    rfl
  · intro i node hi hplain
    have hlt := (List.getElem?_eq_some_iff.1 hi).1
    have hplace := (hserved.done i node hlt hi hplain).2
    refine ⟨(tensorAlloc buffers graph s node, (graph.tensor node).src.map (tensorAlloc buffers graph s)), ?_, ?_⟩
    · change (graph.nodes.map _)[i]? = _
      rw [List.getElem?_map, hi]
      rfl
    · refine hplace.imp (fun hasked => hasked.tensorAlloc hplain) ?_
      rintro ⟨parent, hsrc, hparent, hop, hlayout, -, hunread, hid, haddr⟩
      obtain ⟨k, hk⟩ := List.mem_iff_getElem?.1 hsrc
      refine ⟨hop, k, parent, hk, hparent, hlayout, ?_, ?_⟩
      · intro j reader hj hget hread
        exact hunread (List.mem_flatMap.2 ⟨reader, mem_drop_of_getElem? hj hget, hread⟩)
      · rw [List.getElem?_map, hk]
        change some (_, _) = some (_, _)
        rw [tensorAlloc_plain hplain, tensorAlloc_plain hparent, hid, haddr]

def hostAndDevice : Buffers := ⟨[0, 1], fun _ => 32, fun _ => 2 ^ 20, fun _ _ => 32⟩

theorem scaledProduct_orderly : Orderly scaledProduct := by
  refine ⟨by decide, ?_, ?_, ?_⟩
  · intro done node rest h src hsrc
    exact (scaledProduct_regular.order done node rest h src hsrc).1
  · intro node hnode src hsrc _ _
    have hall : ∀ node ∈ [1, 2, 3], ∀ src ∈ (scaledProduct.tensor node).src, src ∈ [1, 2, 3] ∨ src ∈ [0] := by decide
    exact hall node hnode src hsrc
  · intro t _ _ hin
    rw [(scaledProduct_tensor t).1] at hin
    cases hin

/-- Node 2 is asked for in buffer 0 and takes the place of node 1 in buffer 1. -/
theorem plan_buffer_ids_scaled : ∃ s plan,
    gallocrReserveN hostAndDevice scaledProduct (fun i => if i = 0 then 1 else 0) (fun _ => 1) = .ok (s, plan) ∧
      (∃ alloc, plan.leafAllocs[0]? = some alloc ∧ alloc.bufferId = 1) ∧
      ∃ alloc, plan.nodeAllocs[1]? = some alloc ∧ (alloc.1.bufferId = 0 ∨ InPlaceOfSource scaledProduct 1 2 alloc) := by
  obtain ⟨s, plan, h⟩ : ∃ s plan,
      gallocrReserveN hostAndDevice scaledProduct (fun i => if i = 0 then 1 else 0) (fun _ => 1) = .ok (s, plan) :=
    ⟨_, _, rfl⟩
  have hall := plan_buffer_ids (fun t _ _ _ => (scaledProduct_tensor t).2.2) scaledProduct_orderly h
  exact ⟨s, plan, h, hall.1 0 0 rfl ⟨rfl, rfl, rfl⟩, hall.2 1 2 rfl ⟨rfl, rfl, rfl⟩⟩

/-- A leaf or a node that the allocator owns is planned in another buffer than the one asked for. -/
def Elsewhere (graph : Cgraph) (nodeBufferIds leafBufferIds : ℕ → ℤ) : Prop :=
  ∃ s plan i t, gallocrReserveN hostAndDevice graph nodeBufferIds leafBufferIds = .ok (s, plan) ∧ Plain graph t ∧
    (graph.leafs[i]? = some t ∧ (plan.leafAllocs[i]?).map TensorAlloc.bufferId ≠ some (leafBufferIds i) ∨
      graph.nodes[i]? = some t ∧ (plan.nodeAllocs[i]?).map (fun a => a.1.bufferId) ≠ some (nodeBufferIds i))

def plannedIds (graph : Cgraph) (nodeBufferIds leafBufferIds : ℕ → ℤ) : Except GallocrAbort (List ℤ × List ℤ) :=
  (gallocrReserveN hostAndDevice graph nodeBufferIds leafBufferIds).map (fun r =>
    (r.2.leafAllocs.map TensorAlloc.bufferId, r.2.nodeAllocs.map (fun a => a.1.bufferId)))

theorem elsewhere_of (i t : ℕ) (leafIds nodeIds : List ℤ)
    (hplan : plannedIds graph nodeBufferIds leafBufferIds = .ok (leafIds, nodeIds)) (hplain : Plain graph t)
    (hne : graph.leafs[i]? = some t ∧ leafIds[i]? ≠ some (leafBufferIds i) ∨
      graph.nodes[i]? = some t ∧ nodeIds[i]? ≠ some (nodeBufferIds i)) :
    Elsewhere graph nodeBufferIds leafBufferIds := by
  unfold plannedIds at hplan
  cases hr : gallocrReserveN hostAndDevice graph nodeBufferIds leafBufferIds with
  | error e =>
    rw [hr] at hplan
    cases hplan
  | ok r =>
    rw [hr] at hplan
    obtain ⟨rfl, rfl⟩ := Prod.mk.inj (Except.ok.inj hplan)
    refine ⟨r.1, r.2, i, t, hr, hplain, ?_⟩
    simpa only [List.getElem?_map] using hne

/-- A source in place of which the node stands, a source that is a later node, a leaf that is listed twice, a source
that is not listed and works in place, an input computed in place, and a node in place of itself. -/
theorem plan_ignores_buffer_ids :
    Elsewhere (smallGraph [smallTensor .none [], smallTensor .scale [0]] [1] [0]) (fun _ => 0) (fun _ => 1) ∧
    Elsewhere (smallGraph [smallTensor .none [], smallTensor .mulMat [2, 0], smallTensor .mulMat [0, 0],
      smallTensor .mulMat [2, 0]] [1, 2, 3] [0]) (fun i => if i = 1 then 1 else 0) (fun _ => 0) ∧
    Elsewhere (smallGraph [smallTensor .none []] [] [0, 0]) (fun _ => 0) (fun i => i) ∧
    Elsewhere (smallGraph [smallTensor .none [], smallTensor .scale [0], smallTensor .mulMat [1, 0]] [2] [0])
      (fun _ => 0) (fun _ => 1) ∧
    Elsewhere (smallGraph [smallTensor .none [], smallTensor .mulMat [0, 3],
      { smallTensor .scale [0] with input := true }, smallTensor .none []] [1, 2] [0, 3]) (fun _ => 0) (fun _ => 1) ∧
    Elsewhere (smallGraph [smallTensor .none [], smallTensor .add [1, 0]] [1] [0]) (fun _ => 1) (fun _ => 1) := by
  refine ⟨?_, ?_, ?_, ?_, ?_, ?_⟩
  · exact elsewhere_of 0 1 [1] [1] (by decide +kernel) ⟨rfl, rfl, rfl⟩ (.inr ⟨rfl, by decide⟩)
  · exact elsewhere_of 1 2 [0] [0, 0, 0] (by decide +kernel) ⟨rfl, rfl, rfl⟩ (.inr ⟨rfl, by decide⟩)
  · exact elsewhere_of 1 0 [0, 0] [] (by decide +kernel) ⟨rfl, rfl, rfl⟩ (.inl ⟨rfl, by decide⟩)
  · exact elsewhere_of 0 0 [0] [0] (by decide +kernel) ⟨rfl, rfl, rfl⟩ (.inl ⟨rfl, by decide⟩)
  · exact elsewhere_of 0 0 [0, 1] [0, 1] (by decide +kernel) ⟨rfl, rfl, rfl⟩ (.inl ⟨rfl, by decide⟩)
  · exact elsewhere_of 0 1 [1] [0] (by decide +kernel) ⟨rfl, rfl, rfl⟩ (.inr ⟨rfl, by decide⟩)

end PyannoteCpp.Gallocr
