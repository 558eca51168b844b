import PyannoteCpp.BackendSchedInputs

set_option autoImplicit false

/-!
# Correct splits

The splits tile the nodes of the graph, and run them on the backends that they
were given. A node reads its sources on the backend of its split, or in memory
that the backend supports, or from a copy that an input of this or an earlier
split of the backend fills.
-/
namespace PyannoteCpp.BackendSched

open CheckedLoops

def Source.origin : Source → ℕ
  | .tensor t => t
  | .copy t _ _ => t

def Tiles : ℕ → List Split → ℕ → Prop
  | start, [], stop => start = stop
  | start, split :: rest, stop => split.iStart = start ∧ start ≤ split.iEnd ∧ Tiles split.iEnd rest stop

/-- Some split of the backend has the tensor as an input. -/
def Listed (splits : List Split) (t b : ℕ) : Prop := ∃ split ∈ splits, split.backendId = b ∧ t ∈ split.inputs

/-- The splits run so far let the backend read the source. -/
def Fed (sched : Sched) (graph : Cgraph) (ids : BackendIds) (splits : List Split) (b : ℕ) : Source → Prop
  | .tensor t => ids t = some b ∨ bufferSupported sched graph ids t b = true
  | .copy t backend c => backend = b ∧ c = sched.curCopy ∧ Listed splits t b

/-- The nodes at the positions are on the backend, and their sources are fed. -/
def Served (sched : Sched) (graph : Cgraph) (ids : BackendIds) (srcs : ℕ → List Source) (splits : List Split)
    (b start stop : ℕ) : Prop :=
  ∀ i node, start ≤ i → i < stop → graph.nodes[i]? = some node → isViewNode graph node = false →
    ids node = some b ∧ ∀ src ∈ srcs node, Fed sched graph ids splits b src

/-- What `compute_splits` does in turn. Of weights with experts it may copy only the used part. -/
inductive Event where
  | copyInput (t backend : ℕ)
  | run (i : ℕ)

def splitEvents (split : Split) : List Event :=
  split.inputs.map (.copyInput · split.backendId) ++ (List.range' split.iStart (split.iEnd - split.iStart)).map .run

def computeSplits (splits : List Split) : List Event := splits.flatMap splitEvents

structure Correct (sched : Sched) (graph : Cgraph) (r : SplitGraph) : Prop where
  tiles : Tiles 0 r.splits graph.nodes.length
  origins : ∀ node, (r.srcs node).map Source.origin = (graph.tensor node).src
  served : ∀ before split after, r.splits = before ++ split :: after →
    Served sched graph r.ids r.srcs (before ++ [split]) split.backendId split.iStart split.iEnd
  copied : ∀ i node, graph.nodes[i]? = some node → isViewNode graph node = false →
    ∀ t b c, .copy t b c ∈ r.srcs node →
      ∃ before after, computeSplits r.splits = before ++ .run i :: after ∧ .copyInput t b ∈ before

theorem tiles_append {start mid stop : ℕ} {splits rest : List Split} (h : Tiles start splits mid)
    (hrest : Tiles mid rest stop) : Tiles start (splits ++ rest) stop := by
  induction splits generalizing start with
  | nil =>
    cases h
    exact hrest
  | cons split splits ih => exact ⟨h.1, h.2.1, ih h.2.2⟩

theorem tiles_cover {start stop i : ℕ} {splits : List Split} (h : Tiles start splits stop) (hi : start ≤ i)
    (hstop : i < stop) :
    ∃ before split after, splits = before ++ split :: after ∧ split.iStart ≤ i ∧ i < split.iEnd := by
  induction splits generalizing start with
  | nil =>
    have h : start = stop := h
    omega
  | cons split splits ih =>
    obtain ⟨hstart, -, hrest⟩ := h
    by_cases hend : i < split.iEnd
    · exact ⟨[], split, splits, rfl, by omega, hend⟩
    · obtain ⟨before, s, after, rfl, hs⟩ := ih hrest (by omega)
      exact ⟨split :: before, s, after, rfl, hs⟩

variable {sched : Sched} {graph : Cgraph} {ids : BackendIds} {st st' : SplitState} {t b u : ℕ}

theorem Listed.mono {splits splits' : List Split}
    (h : ∀ split ∈ splits, ∃ split' ∈ splits', split'.backendId = split.backendId ∧ split.inputs ⊆ split'.inputs)
    (hl : Listed splits t b) : Listed splits' t b := by
  obtain ⟨split, hsplit, hb, ht⟩ := hl
  obtain ⟨split', hsplit', hb', hsub⟩ := h split hsplit
  exact ⟨split', hsplit', hb'.trans hb, hsub ht⟩

theorem Fed.mono {splits splits' : List Split} {src : Source} (h : ∀ t, Listed splits t b → Listed splits' t b)
    (hf : Fed sched graph ids splits b src) : Fed sched graph ids splits' b src := by
  cases src with
  | tensor t => exact hf
  | copy t backend c => exact ⟨hf.1, hf.2.1, h t hf.2.2⟩

theorem isForeign_eq_false : isForeign sched graph ids b t = false ↔
    ids t = some b ∨ bufferSupported sched graph ids t b = true := by
  unfold isForeign
  by_cases h : ids t = some b <;> simp [h]

/-! The table of copies. -/

/-- A copy for a backend other than the tensor's is an input of a split of that backend. -/
def RowsListed (sched : Sched) (ids : BackendIds) (st : SplitState) : Prop :=
  ∀ t b row, ids t ≠ some b → st.copies t b = some row →
    row sched.curCopy = .copy t b sched.curCopy ∧ Listed (st.done ++ [st.split]) t b

theorem rowsListed_registered (ht : ids t = some b) (h : RowsListed sched ids st) :
    RowsListed sched ids (registered sched graph ids st t b) := by
  unfold registered
  split
  · intro u c row hne hrow
    by_cases hcell : u = t ∧ c = b
    · obtain ⟨rfl, rfl⟩ := hcell
      exact absurd ht hne
    · exact h u c row hne ((setCopies_ne hcell).symm.trans hrow)
  · exact h

theorem listed_putInput (h : Listed (st.done ++ [st.split]) u b) :
    Listed ((putInput st t).done ++ [(putInput st t).split]) u b := by
  refine h.mono ?_
  intro split hsplit
  rcases List.mem_append.1 hsplit with hdone | hlast
  · exact ⟨split, List.mem_append_left _ hdone, rfl, List.Subset.refl _⟩
  · cases List.mem_singleton.1 hlast
    exact ⟨(putInput st t).split, List.mem_append_right _ List.mem_cons_self, rfl, List.subset_append_left _ _⟩

theorem rowsListed_listed (h : RowsListed sched ids st) : RowsListed sched ids (listed sched graph ids st t) := by
  unfold listed
  split
  · intro u c row hne hrow
    by_cases hcell : u = t ∧ c = st.split.backendId
    · obtain ⟨rfl, rfl⟩ := hcell
      have hrow : some (Source.copy u st.split.backendId) = some row := setCopies_self.symm.trans hrow
      cases hrow
      refine ⟨rfl, (putInput st u).split, List.mem_append_right _ List.mem_cons_self, rfl, ?_⟩
      exact List.mem_append_right _ List.mem_cons_self
    · obtain ⟨hcopy, hlisted⟩ := h u c row hne ((setCopies_ne hcell).symm.trans hrow)
      exact ⟨hcopy, listed_putInput hlisted⟩
  · exact h

theorem rowsListed_taken (ht : ids t = some b) (h : RowsListed sched ids st) :
    RowsListed sched ids (taken sched graph ids st t b) :=
  rowsListed_listed (rowsListed_registered ht h)

/-- What a source leaves of the splits: the current one may have one more input. -/
structure Extends (st st' : SplitState) : Prop where
  done : st'.done = st.done
  srcs : st'.srcs = st.srcs
  iStart : st'.split.iStart = st.split.iStart
  backendId : st'.split.backendId = st.split.backendId
  inputs : st.split.inputs ⊆ st'.split.inputs

theorem Extends.refl : Extends st st := ⟨rfl, rfl, rfl, rfl, List.Subset.refl _⟩

theorem Extends.trans {st'' : SplitState} (h : Extends st st') (h' : Extends st' st'') : Extends st st'' :=
  ⟨h'.done.trans h.done, h'.srcs.trans h.srcs, h'.iStart.trans h.iStart, h'.backendId.trans h.backendId,
    List.Subset.trans h.inputs h'.inputs⟩

theorem Extends.listed (h : Extends st st') (hl : Listed (st.done ++ [st.split]) t b) :
    Listed (st'.done ++ [st'.split]) t b := by
  refine hl.mono ?_
  intro split hsplit
  rw [h.done]
  rcases List.mem_append.1 hsplit with hdone | hlast
  · exact ⟨split, List.mem_append_left _ hdone, rfl, List.Subset.refl _⟩
  · cases List.mem_singleton.1 hlast
    exact ⟨st'.split, List.mem_append_right _ List.mem_cons_self, h.backendId, h.inputs⟩

theorem extends_taken : Extends st (taken sched graph ids st t b) := by
  have hregistered : Extends st (registered sched graph ids st t b) := by
    unfold registered
    split
    · exact ⟨rfl, rfl, rfl, rfl, List.Subset.refl _⟩
    · exact .refl
  refine hregistered.trans ?_
  unfold taken listed
  split
  · exact ⟨rfl, rfl, rfl, rfl, List.subset_append_left _ _⟩
  · exact .refl

/-- The source of a node after the rewriting is there for the backend of the split. -/
theorem takenAs_fed (ht : ids t = some b) (h : RowsListed sched ids st) :
    (takenAs sched graph ids st t b).origin = t ∧
      Fed sched graph ids ((taken sched graph ids st t b).done ++ [(taken sched graph ids st t b).split])
        st.split.backendId (takenAs sched graph ids st t b) := by
  unfold takenAs
  cases hf : isForeign sched graph ids st.split.backendId t with
  | false => exact ⟨rfl, isForeign_eq_false.1 hf⟩
  | true =>
    have hsame := (@extends_taken sched graph ids st t b).backendId
    have hmade : needsCopy sched graph ids (taken sched graph ids st t b) t = false := by
      by_contra hno
      exact ((needsCopy_taken ht).1 (Bool.not_eq_false _ ▸ hno)).2 rfl
    rw [needsCopy, hsame, hf, Bool.true_and] at hmade
    rw [if_pos rfl, copyOf, hsame]
    cases hrow : (taken sched graph ids st t b).copies t st.split.backendId with
    | none =>
      rw [hrow] at hmade
      cases hmade
    | some row =>
      obtain ⟨hcopy, hlisted⟩ := rowsListed_taken ht h t st.split.backendId row (isForeign_ne hf) hrow
      simp only [hcopy]
      exact ⟨rfl, rfl, rfl, hlisted⟩

theorem takeSources_fed {srcs srcs' : List Source}
    (h : takeSources sched graph ids st srcs = .ok (st', srcs')) (hrows : RowsListed sched ids st) :
    Extends st st' ∧ RowsListed sched ids st' ∧ srcs'.map Source.origin = srcs.map Source.origin ∧
      ∀ src ∈ srcs', Fed sched graph ids (st'.done ++ [st'.split]) st.split.backendId src := by
  induction srcs generalizing st srcs' with
  | nil =>
    cases h
    exact ⟨.refl, hrows, rfl, by simp⟩
  | cons src rest ih =>
    unfold takeSources at h
    cases hsource : takeSource sched graph ids st src with
    | error e => rw [hsource] at h; cases h
    | ok r =>
      obtain ⟨mid, src'⟩ := r
      rw [hsource] at h
      cases hrest : takeSources sched graph ids mid rest with
      | error e => simp only [hrest] at h; cases h
      | ok r =>
        obtain ⟨last, rest'⟩ := r
        simp only [hrest] at h
        cases h
        obtain ⟨t, b, rfl, ht, rfl, rfl, -, -⟩ := takeSource_ok hsource
        obtain ⟨hextends, hrows', horigins, hfed⟩ := ih hrest (rowsListed_taken ht hrows)
        obtain ⟨horigin, hsrc⟩ := @takenAs_fed sched graph ids st t b ht hrows
        have hfirst := @extends_taken sched graph ids st t b
        refine ⟨hfirst.trans hextends, hrows', ?_, ?_⟩
        · rw [List.map_cons, List.map_cons, horigins, horigin]
          rfl
        · intro src hmem
          rcases List.mem_cons.1 hmem with rfl | hmem
          · exact hsrc.mono (fun u hu => hextends.listed hu)
          · have hsrc := hfed src hmem
            rwa [hfirst.backendId] at hsrc

theorem takeSources_settled {srcs srcs' : List Source} {splits : List Split}
    (h : takeSources sched graph ids st srcs = .ok (st', srcs'))
    (hfed : ∀ src ∈ srcs, Fed sched graph ids splits st.split.backendId src) : srcs' = srcs := by
  induction srcs generalizing st srcs' with
  | nil =>
    cases h
    rfl
  | cons src rest ih =>
    unfold takeSources at h
    cases hsource : takeSource sched graph ids st src with
    | error e => rw [hsource] at h; cases h
    | ok r =>
      obtain ⟨mid, src'⟩ := r
      rw [hsource] at h
      cases hrest : takeSources sched graph ids mid rest with
      | error e => simp only [hrest] at h; cases h
      | ok r =>
        obtain ⟨last, rest'⟩ := r
        simp only [hrest] at h
        cases h
        obtain ⟨t, b, rfl, ht, rfl, rfl, -, -⟩ := takeSource_ok hsource
        have hsettled := isForeign_eq_false.2 (hfed (.tensor t) List.mem_cons_self)
        have hsame : takenAs sched graph ids st t b = .tensor t := by
          rw [takenAs, hsettled]
          rfl
        have hbackend := (@extends_taken sched graph ids st t b).backendId
        rw [hsame, ih hrest]
        intro src hmem
        rw [hbackend]
        exact hfed src (List.mem_cons_of_mem _ hmem)

/-! The loop over the nodes. -/

structure Cut (sched : Sched) (graph : Cgraph) (ids : BackendIds) (i : ℕ) (st : SplitState) : Prop where
  tiles : Tiles 0 st.done st.split.iStart
  start_le : st.split.iStart ≤ i
  rows : RowsListed sched ids st
  origins : ∀ node, (st.srcs node).map Source.origin = (graph.tensor node).src
  served : ∀ before split after, st.done = before ++ split :: after →
    Served sched graph ids st.srcs (before ++ [split]) split.backendId split.iStart split.iEnd
  current : Served sched graph ids st.srcs (st.done ++ [st.split]) st.split.backendId st.split.iStart i

theorem cut_start : Cut sched graph ids 0 (splitStart sched graph ids) where
  tiles := rfl
  start_le := Nat.le_refl 0
  rows := by
    intro t b row _ hrow
    cases hrow
  origins := by
    intro node
    change ((graph.tensor node).src.map Source.tensor).map Source.origin = _
    rw [List.map_map]
    exact List.map_id _
  served := by
    intro before split after h
    cases before <;> cases h
  current := by
    intro j node _ hj
    omega

theorem Served.closed {srcs : ℕ → List Source} {splits : List Split} {split : Split} {i start stop : ℕ}
    (h : Served sched graph ids srcs (splits ++ [split]) b start stop) :
    Served sched graph ids srcs (splits ++ [closeSplit i split]) b start stop := by
  intro j node hstart hstop hnode hview
  obtain ⟨hb, hsrcs⟩ := h j node hstart hstop hnode hview
  refine ⟨hb, fun src hsrc => (hsrcs src hsrc).mono ?_⟩
  intro t hl
  refine hl.mono ?_
  intro s hs
  rcases List.mem_append.1 hs with hs | hs
  · exact ⟨s, List.mem_append_left _ hs, rfl, List.Subset.refl _⟩
  · cases List.mem_singleton.1 hs
    exact ⟨closeSplit i split, List.mem_append_right _ List.mem_cons_self, rfl, List.Subset.refl _⟩

theorem append_singleton_cases {α : Type} {l before after : List α} {x y : α}
    (h : l ++ [x] = before ++ y :: after) :
    (∃ rest, l = before ++ y :: rest) ∨ (l = before ∧ x = y ∧ after = []) := by
  induction l generalizing before with
  | nil =>
    cases before with
    | nil =>
      cases h
      exact .inr ⟨rfl, rfl, rfl⟩
    | cons head tail =>
      have hlength := congrArg List.length h
      simp at hlength
  | cons a l ih =>
    cases before with
    | nil =>
      cases h
      exact .inl ⟨l, rfl⟩
    | cons head tail =>
      obtain ⟨rfl, htail⟩ := List.cons.inj h
      rcases ih htail with ⟨rest, rfl⟩ | ⟨rfl, hx⟩
      · exact .inl ⟨rest, rfl⟩
      · exact .inr ⟨rfl, hx⟩

theorem cut_startSplit {i : ℕ} (h : Cut sched graph ids i st) : Cut sched graph ids i (startSplit st i b) where
  tiles := tiles_append h.tiles ⟨rfl, h.start_le, rfl⟩
  start_le := Nat.le_refl i
  rows := by
    intro t c row hne hrow
    obtain ⟨hcopy, hl⟩ := h.rows t c row hne hrow
    refine ⟨hcopy, hl.mono ?_⟩
    intro split hsplit
    rcases List.mem_append.1 hsplit with hdone | hlast
    · exact ⟨split, List.mem_append_left _ (List.mem_append_left _ hdone), rfl, List.Subset.refl _⟩
    · cases List.mem_singleton.1 hlast
      exact ⟨closeSplit i st.split, List.mem_append_left _ (List.mem_append_right _ List.mem_cons_self), rfl,
        List.Subset.refl _⟩
  origins := h.origins
  served := by
    intro before split after hdone
    rcases append_singleton_cases hdone with ⟨rest, hrest⟩ | ⟨rfl, rfl, -⟩
    · exact h.served before split rest hrest
    · exact h.current.closed
  current := by
    intro j node hstart hstop
    have hstart : i ≤ j := hstart
    omega

theorem cut_enterSplit {i node : ℕ} (h : Cut sched graph ids i st) :
    Cut sched graph ids i (enterSplit sched graph ids st i node b) ∧
      (enterSplit sched graph ids st i node b).split.backendId = b := by
  unfold enterSplit
  split
  · exact ⟨cut_startSplit h, rfl⟩
  · rename_i hstay
    exact ⟨h, (not_not.1 (not_or.1 hstay).1).symm⟩

theorem Served.setSrcs {splits : List Split} {srcs' : List Source} {c start stop node : ℕ}
    (h : Served sched graph ids st.srcs splits c start stop) (hnode : ids node = some st.split.backendId)
    (htake : takeSources sched graph ids st (st.srcs node) = .ok (st', srcs')) :
    Served sched graph ids (Function.update st.srcs node srcs') splits c start stop := by
  intro j other hstart hstop hother hview
  obtain ⟨hc, hsrcs⟩ := h j other hstart hstop hother hview
  refine ⟨hc, ?_⟩
  by_cases heq : other = node
  · subst heq
    rw [hnode] at hc
    cases hc
    rw [Function.update_self, takeSources_settled htake hsrcs]
    exact hsrcs
  · rw [Function.update_of_ne heq]
    exact hsrcs

theorem Served.mono {srcs : ℕ → List Source} {splits splits' : List Split} {start stop : ℕ}
    (h : ∀ t, Listed splits t b → Listed splits' t b) (hs : Served sched graph ids srcs splits b start stop) :
    Served sched graph ids srcs splits' b start stop := by
  intro j node hstart hstop hnode hview
  obtain ⟨hb, hsrcs⟩ := hs j node hstart hstop hnode hview
  exact ⟨hb, fun src hsrc => (hsrcs src hsrc).mono h⟩

/-- The node at position `i` has its sources, in the split that it entered. -/
theorem cut_setSrcs {i node : ℕ} {srcs' : List Source} (h : Cut sched graph ids i st)
    (hnode : graph.nodes[i]? = some node) (hb : ids node = some st.split.backendId)
    (htake : takeSources sched graph ids st (st.srcs node) = .ok (st', srcs')) :
    Cut sched graph ids (i + 1) (setSrcs st' node srcs') := by
  obtain ⟨hextends, hrows, horigins, hfed⟩ := takeSources_fed htake h.rows
  have hsrcs : (setSrcs st' node srcs').srcs = Function.update st.srcs node srcs' := by
    change Function.update st'.srcs node srcs' = _
    rw [hextends.srcs]
  have hdone : (setSrcs st' node srcs').done = st.done := hextends.done
  have hstart : (setSrcs st' node srcs').split.iStart = st.split.iStart := hextends.iStart
  have hbackend : (setSrcs st' node srcs').split.backendId = st.split.backendId := hextends.backendId
  refine ⟨?_, ?_, hrows, ?_, ?_, ?_⟩
  · rw [hdone, hstart]
    exact h.tiles
  · rw [hstart]
    have hle := h.start_le
    omega
  · intro other
    rw [hsrcs, Function.update_apply]
    split
    · subst other
      exact horigins.trans (h.origins node)
    · exact h.origins other
  · intro before split after hparts
    rw [hdone] at hparts
    rw [hsrcs]
    exact (h.served before split after hparts).setSrcs hb htake
  · rw [hsrcs, hbackend, hstart]
    intro j other hj hlt hother hview
    by_cases hlast : j = i
    · subst hlast
      rw [hnode] at hother
      cases hother
      refine ⟨hb, ?_⟩
      rw [Function.update_self]
      exact hfed
    · have hold := (h.current.setSrcs hb htake).mono (fun t => hextends.listed)
      exact hold j other hj (by omega) hother hview

theorem cut_splitNode {i node : ℕ} (h : Cut sched graph ids i st) (hnode : graph.nodes[i]? = some node)
    (hstep : splitNode sched graph ids st (node, i) = .ok st') : Cut sched graph ids (i + 1) st' := by
  unfold splitNode at hstep
  cases hview : isViewNode graph node with
  | true =>
    rw [if_pos hview] at hstep
    cases hstep
    have hle := h.start_le
    refine ⟨h.tiles, by omega, h.rows, h.origins, h.served, ?_⟩
    intro j other hj hlt hother hno
    by_cases hlast : j = i
    · subst hlast
      rw [hnode] at hother
      cases hother
      rw [hview] at hno
      cases hno
    · exact h.current j other hj (by omega) hother hno
  | false =>
    rw [if_neg (by rw [hview]; decide)] at hstep
    cases hb : ids node with
    | none => simp only [hb] at hstep; cases hstep
    | some b =>
      simp only [hb] at hstep
      cases htake : takeSources sched graph ids (enterSplit sched graph ids st i node b) (st.srcs node) with
      | error e => rw [htake] at hstep; cases hstep
      | ok r =>
        obtain ⟨mid, srcs⟩ := r
        rw [htake] at hstep
        cases hstep
        obtain ⟨hcut, hbackend⟩ := @cut_enterSplit sched graph ids st b i node h
        refine cut_setSrcs hcut hnode (by rw [hbackend]; exact hb) ?_
        rw [enterSplit_srcs]
        exact htake

theorem cut_splitNodes (h : splitNodes sched graph ids = .ok st) : Cut sched graph ids graph.nodes.length st := by
  have hstep : ∀ (i node : ℕ) (u u' : SplitState), graph.nodes[i]? = some node → Cut sched graph ids i u →
      splitNode sched graph ids u (node, i) = .ok u' → Cut sched graph ids (i + 1) u' := by
    intro i node u u' hget hcut hnode
    exact cut_splitNode hcut hget hnode
  exact foldlM_zipIdx cut_start hstep h

/-! The splits in the order in which they run. -/

theorem Tiles.start_le {start stop : ℕ} {splits : List Split} (h : Tiles start splits stop) : start ≤ stop := by
  induction splits generalizing start with
  | nil => exact Nat.le_of_eq h
  | cons split splits ih =>
    have hrest := ih h.2.2
    have hstart := h.2.1
    omega

/-- A copy that a node reads is made before the node runs. -/
theorem computeSplits_order {before after : List Split} {split : Split} {i : ℕ}
    (hstart : split.iStart ≤ i) (hend : i < split.iEnd) (h : Listed (before ++ [split]) t b) :
    ∃ front back, computeSplits (before ++ split :: after) = front ++ .run i :: back ∧ .copyInput t b ∈ front := by
  obtain ⟨s, hs, rfl, ht⟩ := h
  have hcopy : Event.copyInput t s.backendId ∈ s.inputs.map (Event.copyInput · s.backendId) := List.mem_map_of_mem ht
  have hrange : List.range' split.iStart (split.iEnd - split.iStart) =
      List.range' split.iStart (i - split.iStart) ++ i :: List.range' (i + 1) (split.iEnd - i - 1) := by
    have hone : i :: List.range' (i + 1) (split.iEnd - i - 1) = List.range' i (split.iEnd - i - 1 + 1) :=
      List.range'_succ.symm
    have hjoin : split.iEnd - split.iStart = (i - split.iStart) + (split.iEnd - i - 1 + 1) := by omega
    have hmid : split.iStart + (i - split.iStart) = i := by omega
    rw [hone, hjoin, ← List.range'_append_1, hmid]
  refine ⟨computeSplits before ++ (split.inputs.map (.copyInput · split.backendId) ++
    (List.range' split.iStart (i - split.iStart)).map .run),
    (List.range' (i + 1) (split.iEnd - i - 1)).map .run ++ computeSplits after, ?_, ?_⟩
  · simp [computeSplits, splitEvents, hrange]
  · rcases List.mem_append.1 hs with hbefore | hlast
    · refine List.mem_append_left _ (List.mem_flatMap.2 ⟨s, hbefore, List.mem_append_left _ hcopy⟩)
    · cases List.mem_singleton.1 hlast
      exact List.mem_append_right _ (List.mem_append_left _ hcopy)

theorem cut_served (h : Cut sched graph ids graph.nodes.length st) {before after : List Split} {split : Split}
    (hparts : splitsOf graph st = before ++ split :: after) :
    Served sched graph ids st.srcs (before ++ [split]) split.backendId split.iStart split.iEnd := by
  rcases append_singleton_cases hparts with ⟨rest, hrest⟩ | ⟨rfl, rfl, -⟩
  · exact h.served before split rest hrest
  · exact h.current.closed

theorem splitGraph_correct (sched : Sched) (graph : Cgraph) (user : BackendIds) (r : SplitGraph)
    (h : splitGraph sched graph user = .ok r) : Correct sched graph r := by
  unfold splitGraph at h
  cases hids : assignBackends sched graph user with
  | error e => rw [hids] at h; cases h
  | ok ids =>
    simp only [hids] at h
    cases hsplit : splitNodes sched graph ids with
    | error e => rw [hsplit] at h; cases h
    | ok st =>
      rw [hsplit] at h
      cases h
      have hcut := cut_splitNodes hsplit
      have htiles : Tiles 0 (splitsOf graph st) graph.nodes.length :=
        tiles_append hcut.tiles ⟨rfl, hcut.start_le, rfl⟩
      refine ⟨htiles, hcut.origins, fun before split after hparts => cut_served hcut hparts, ?_⟩
      intro i node hnode hview t b c hsrc
      have hi := (List.getElem?_eq_some_iff.1 hnode).1
      obtain ⟨before, split, after, hparts, hstart, hend⟩ := tiles_cover htiles (Nat.zero_le i) hi
      obtain ⟨-, hsrcs⟩ := cut_served hcut hparts i node hstart hend hnode hview
      obtain ⟨rfl, -, hlisted⟩ := hsrcs _ hsrc
      obtain ⟨front, back, hevents, hmem⟩ := @computeSplits_order t split.backendId before after split i hstart hend hlisted
      exact ⟨front, back, by rw [hparts]; exact hevents, hmem⟩

/-- The first and the last node run on the first backend, the one between them on the host. -/
def backAndForth : Cgraph :=
  ⟨fun t => if t = 1 then sumNode 0 0 else if t = 2 then sumNode 1 0 else if t = 3 then sumNode 0 2 else inputLeaf,
    [1, 2, 3], [0]⟩

def alternating : BackendIds := fun t => if t = 2 then some 1 else if t = 0 then none else some 0

/-- The last split reads the copy of the leaf that the first one has as an input. -/
theorem splitGraph_correct_backAndForth : ∃ r, splitGraph twoBackends backAndForth alternating = .ok r ∧
    r.splits = [⟨0, 0, 1, [0]⟩, ⟨1, 1, 2, [1]⟩, ⟨0, 2, 3, [2]⟩] ∧ Correct twoBackends backAndForth r := by
  have h : (splitGraph twoBackends backAndForth alternating).map SplitGraph.splits =
      .ok [⟨0, 0, 1, [0]⟩, ⟨1, 1, 2, [1]⟩, ⟨0, 2, 3, [2]⟩] := by decide +kernel
  cases hr : splitGraph twoBackends backAndForth alternating with
  | error e => rw [hr] at h; cases h
  | ok r =>
    rw [hr] at h
    exact ⟨r, rfl, Except.ok.inj h, splitGraph_correct twoBackends backAndForth alternating r hr⟩

end PyannoteCpp.BackendSched
