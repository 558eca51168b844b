import PyannoteCpp.GraphBuild
import Mathlib.Logic.Relation
import Mathlib.Algebra.BigOperators.Group.List.Basic

set_option autoImplicit false

/-!
# The order of a built graph

A visit adds tensors to the end of the two lists. The new ones are reachable
from the visited tensor, their sources are visited, and each of them counts its
sources once. A tensor that is being visited is in the table and in no list, so
the sources of a new node stand before it or are being visited themselves.
-/
namespace PyannoteCpp.GraphBuild

open LinearProbing PrefixGrammar CheckedLoops

variable (tensor : ℕ → Tensor)

def IsSource (t s : ℕ) : Prop := s ∈ (tensor t).src

def Reach : ℕ → ℕ → Prop := Relation.ReflTransGen (IsSource tensor)

def OtherSource (t s : ℕ) : Prop := s ∈ (tensor t).src ∧ s ≠ t

def Acyclic : Prop := ∀ t, ¬Relation.TransGen (OtherSource tensor) t t

/-- How often the tensors of the list have `t` as a source. -/
def usesIn (l : List ℕ) (t : ℕ) : ℕ := (l.map (fun v => (tensor v).src.count t)).sum

def SourcesFirst : (ℕ → Prop) → List ℕ → Prop
  | _, [] => True
  | listed, t :: rest => (∀ s, OtherSource tensor t s → listed s) ∧ SourcesFirst (fun s => listed s ∨ s = t) rest

def Slot (g : Cgraph) (t i : ℕ) : Prop := At g.visited (ggmlHash tensor) t i

def Has (g : Cgraph) (t : ℕ) : Prop := ∃ i, Slot tensor g t i

def countAt (g : Cgraph) (i : ℕ) : ℕ := if g.visited.used i then g.useCounts i else 0

/-- From `g` to `g'`, the nodes `ns` and the leafs `ls` are new, and `uses` counts what they do not. -/
structure Grown (R : ℕ → Prop) (g g' : Cgraph) (ns ls : List ℕ) (uses : ℕ → ℕ) : Prop where
  order : g'.order = g.order
  nodes : g'.nodes = g.nodes ++ ns
  leafs : g'.leafs = g.leafs ++ ls
  placed : Placed g'.visited (ggmlHash tensor)
  keep : ∀ t i, Slot tensor g t i → Slot tensor g' t i
  has : ∀ t, Has tensor g' t ↔ Has tensor g t ∨ t ∈ ns ++ ls
  fresh : ∀ t ∈ ns ++ ls, ¬Has tensor g t
  nodup : (ns ++ ls).Nodup
  leaf : ∀ t ∈ ls, isLeaf tensor t = true
  node : ∀ t ∈ ns, isLeaf tensor t = false
  reach : ∀ t ∈ ns ++ ls, R t
  closed : ∀ t ∈ ns ++ ls, ∀ s ∈ (tensor t).src, Has tensor g' s
  used : ∀ t, uses t ≠ 0 → Has tensor g' t
  counts : ∀ t i, Slot tensor g' t i → g'.useCounts i = countAt g i + usesIn tensor (ns ++ ls) t + uses t
  first : Acyclic tensor → SourcesFirst tensor (fun s => Has tensor g s ∨ s ∈ ls) ns

variable {tensor} {g g' g'' : Cgraph} {R : ℕ → Prop} {ns ls : List ℕ} {t s i pos : ℕ}

/-! Lists of tensors. -/

theorem SourcesFirst.mono {p q : ℕ → Prop} {l : List ℕ} (h : ∀ s, p s → q s) (hl : SourcesFirst tensor p l) :
    SourcesFirst tensor q l := by
  induction l generalizing p q with
  | nil => trivial
  | cons t rest ih => exact ⟨fun s hs => h s (hl.1 s hs), ih (fun s => Or.imp (h s) id) hl.2⟩

theorem sourcesFirst_append {p : ℕ → Prop} {l l' : List ℕ} :
    SourcesFirst tensor p (l ++ l') ↔
      SourcesFirst tensor p l ∧ SourcesFirst tensor (fun s => p s ∨ s ∈ l) l' := by
  induction l generalizing p with
  | nil => simp [SourcesFirst]
  | cons t rest ih =>
    simp only [List.cons_append, SourcesFirst, ih, List.mem_cons, or_assoc, and_assoc]

theorem SourcesFirst.strip {p q : ℕ → Prop} {l : List ℕ} (hq : ∀ s, q s → p s ∨ s = t)
    (hl : SourcesFirst tensor q l) (hno : ∀ v ∈ l, ¬OtherSource tensor v t) : SourcesFirst tensor p l := by
  induction l generalizing p q with
  | nil => trivial
  | cons v rest ih =>
    refine ⟨?_, ih ?_ hl.2 (fun u hu => hno u (List.mem_cons_of_mem _ hu))⟩
    · intro s hs
      rcases hq s (hl.1 s hs) with hp | rfl
      · exact hp
      · exact absurd hs (hno v List.mem_cons_self)
    · intro s hs
      rcases hs with hs | rfl
      · exact (hq s hs).imp Or.inl id
      · exact .inl (.inr rfl)

theorem SourcesFirst.get {p : ℕ → Prop} {l : List ℕ} (h : SourcesFirst tensor p l) (hi : l[i]? = some t)
    (hs : OtherSource tensor t s) : p s ∨ ∃ j < i, l[j]? = some s := by
  induction l generalizing p i with
  | nil => simp at hi
  | cons v rest ih =>
    cases i with
    | zero =>
      cases hi
      exact .inl (h.1 s hs)
    | succ i =>
      rcases ih h.2 hi with (hp | rfl) | ⟨j, hj, hget⟩
      · exact .inl hp
      · exact .inr ⟨0, Nat.zero_lt_succ i, rfl⟩
      · exact .inr ⟨j + 1, by omega, hget⟩

theorem usesIn_append {l l' : List ℕ} : usesIn tensor (l ++ l') t = usesIn tensor l t + usesIn tensor l' t := by
  simp [usesIn]

theorem usesIn_perm {l l' : List ℕ} (h : l.Perm l') : usesIn tensor l t = usesIn tensor l' t :=
  (h.map _).sum_eq

theorem usesIn_eq_zero {l : List ℕ} (h : ∀ v ∈ l, t ∉ (tensor v).src) : usesIn tensor l t = 0 := by
  refine List.sum_eq_zero ?_
  intro n hn
  obtain ⟨v, hv, rfl⟩ := List.mem_map.1 hn
  exact List.count_eq_zero.2 (h v hv)

theorem append_four {a b c d : List ℕ} : ((a ++ b) ++ (c ++ d)).Perm ((a ++ c) ++ (b ++ d)) := by
  have hmid : (b ++ (c ++ d)).Perm (c ++ (b ++ d)) := List.perm_append_comm_assoc b c d
  rw [List.append_assoc, List.append_assoc]
  exact hmid.append_left a

/-! Slots. -/

theorem slot_of_used (h : Placed g.visited (ggmlHash tensor)) (hused : g.visited.used i = true) :
    Slot tensor g (g.visited.keys i) i := h i hused

theorem countAt_slot (h : Slot tensor g t i) : countAt g i = g.useCounts i := if_pos h.2


theorem Grown.slot_free {uses : ℕ → ℕ} (h : Grown tensor R g g' ns ls uses)
    (hplaced : Placed g.visited (ggmlHash tensor)) (hslot : Slot tensor g' t i) (hnew : ¬Has tensor g t) :
    g.visited.used i = false := by
  by_contra hused
  have hused : g.visited.used i = true := by simpa using hused
  have hkept := h.keep _ _ (slot_of_used hplaced hused)
  have hkey : g.visited.keys i = t := hkept.keys_eq.symm.trans hslot.keys_eq
  exact hnew ⟨i, hkey ▸ slot_of_used hplaced hused⟩

theorem Grown.refl (h : Placed g.visited (ggmlHash tensor)) : Grown tensor R g g [] [] (fun _ => 0) where
  order := rfl
  nodes := (List.append_nil _).symm
  leafs := (List.append_nil _).symm
  placed := h
  keep := fun _ _ hslot => hslot
  has := by simp
  fresh := by simp
  nodup := List.nodup_nil
  leaf := by simp
  node := by simp
  reach := by simp
  closed := by simp
  used := by simp
  counts := by
    intro t i hslot
    rw [countAt_slot hslot]
    rfl
  first := fun _ => trivial

theorem Grown.mono {R' : ℕ → Prop} {uses : ℕ → ℕ} (hR : ∀ t, R t → R' t) (h : Grown tensor R g g' ns ls uses) :
    Grown tensor R' g g' ns ls uses :=
  { h with reach := fun t ht => hR t (h.reach t ht) }

theorem Grown.trans {ns' ls' : List ℕ} {uses uses' : ℕ → ℕ} (hplaced : Placed g.visited (ggmlHash tensor))
    (h : Grown tensor R g g' ns ls uses) (h' : Grown tensor R g' g'' ns' ls' uses') :
    Grown tensor R g g'' (ns ++ ns') (ls ++ ls') (fun t => uses t + uses' t) := by
  have hmem : ∀ t, t ∈ (ns ++ ns') ++ (ls ++ ls') ↔ t ∈ ns ++ ls ∨ t ∈ ns' ++ ls' := fun t => by
    rw [append_four.mem_iff, List.mem_append]
  have hkeep : ∀ t, Has tensor g' t → Has tensor g'' t := fun t ht => (h'.has t).2 (.inl ht)
  refine ⟨h'.order.trans h.order, by rw [h'.nodes, h.nodes, List.append_assoc],
    by rw [h'.leafs, h.leafs, List.append_assoc], h'.placed, fun t i hs => h'.keep t i (h.keep t i hs),
    ?_, ?_, ?_, ?_, ?_, ?_, ?_, ?_, ?_, ?_⟩
  · intro t
    rw [h'.has, h.has, hmem, or_assoc]
  · intro t ht hold
    rcases (hmem t).1 ht with ht | ht
    · exact h.fresh t ht hold
    · exact h'.fresh t ht ((h.has t).2 (.inl hold))
  · rw [append_four.nodup_iff]
    refine h.nodup.append h'.nodup ?_
    intro t ht ht'
    exact h'.fresh t ht' ((h.has t).2 (.inr ht))
  · intro t ht
    exact (List.mem_append.1 ht).elim (h.leaf t) (h'.leaf t)
  · intro t ht
    exact (List.mem_append.1 ht).elim (h.node t) (h'.node t)
  · intro t ht
    exact ((hmem t).1 ht).elim (h.reach t) (h'.reach t)
  · intro t ht s hs
    rcases (hmem t).1 ht with ht | ht
    · exact hkeep s (h.closed t ht s hs)
    · exact h'.closed t ht s hs
  · intro t ht
    by_cases hzero : uses t = 0
    · exact h'.used t (by omega)
    · exact hkeep t (h.used t hzero)
  · intro t i hslot
    have hlast := h'.counts t i hslot
    rw [usesIn_perm append_four, usesIn_append]
    by_cases hmid : Has tensor g' t
    · obtain ⟨j, hj⟩ := hmid
      have hij : j = i := (h'.keep t j hj).unique hslot
      subst hij
      have hfirst := h.counts t j hj
      rw [countAt_slot hj] at hlast
      omega
    · have hfree' := h'.slot_free h.placed hslot hmid
      have hold : ¬Has tensor g t := fun hold => hmid ((h.has t).2 (.inl hold))
      have hfree : g.visited.used i = false := by
        by_contra hused
        have hkept := h.keep _ _ (slot_of_used hplaced (by simpa using hused))
        rw [hkept.2] at hfree'
        cases hfree'
      have hunused : usesIn tensor (ns ++ ls) t = 0 :=
        usesIn_eq_zero (fun v hv hs => hmid (h.closed v hv t hs))
      have hzero : uses t = 0 := by
        by_contra hne
        exact hmid (h.used t hne)
      rw [countAt, hfree'] at hlast
      rw [countAt, hfree, hunused, hzero]
      simpa using hlast
  · intro hacyclic
    rw [sourcesFirst_append]
    refine ⟨(h.first hacyclic).mono ?_, (h'.first hacyclic).mono ?_⟩
    · intro s hs
      exact hs.imp id (fun hs => List.mem_append_left _ hs)
    · intro s hs
      rcases hs with hs | hs
      · rcases (h.has s).1 hs with hs | hs
        · exact .inl (.inl hs)
        · rcases List.mem_append.1 hs with hs | hs
          · exact .inr hs
          · exact .inl (.inr (List.mem_append_left _ hs))
      · exact .inl (.inr (List.mem_append_right _ hs))

/-! One use. -/

theorem grown_countUse (hplaced : Placed g.visited (ggmlHash tensor)) (h : Slot tensor g t pos) :
    Grown tensor R g (countUse g pos) [] [] (fun s => if s = t then 1 else 0) where
  order := rfl
  nodes := (List.append_nil _).symm
  leafs := (List.append_nil _).symm
  placed := hplaced
  keep := fun _ _ hslot => hslot
  has := fun s => by
    rw [List.append_nil]
    exact ⟨Or.inl, fun hs => hs.elim id (fun hs => absurd hs List.not_mem_nil)⟩
  fresh := by simp
  nodup := List.nodup_nil
  leaf := by simp
  node := by simp
  reach := by simp
  closed := by simp
  used := by
    intro s hs
    by_cases hst : s = t
    · exact ⟨pos, hst ▸ h⟩
    · rw [if_neg hst] at hs
      exact absurd rfl hs
  counts := by
    intro s i hslot
    have hold : Slot tensor g s i := hslot
    rw [countAt_slot hold]
    change Function.update g.useCounts pos (g.useCounts pos + 1) i = g.useCounts i + 0 + _
    by_cases hst : s = t
    · subst hst
      have hi : i = pos := hold.unique h
      subst hi
      rw [Function.update_self, if_pos rfl]
    · have hi : i ≠ pos := hold.ne h hst
      rw [Function.update_of_ne hi, if_neg hst]
      omega
  first := fun _ => trivial

/-! One tensor. -/

theorem reach_other {root v : ℕ} (h : Reach tensor root v) (hne : v ≠ root) :
    Relation.TransGen (OtherSource tensor) root v := by
  induction h with
  | refl => exact absurd rfl hne
  | @tail u w hpath hstep ih =>
    by_cases huw : w = u
    · subst huw
      exact ih hne
    · by_cases hroot : u = root
      · subst hroot
        exact .single ⟨hstep, huw⟩
      · exact .tail (ih hroot) ⟨hstep, huw⟩

section mark

variable {node : ℕ}

theorem slot_mark (hfree : g.visited.used pos = false) (h : Slot tensor g t i) :
    Slot tensor (markVisited g pos node) t i := At.put h hfree

theorem not_has_mark (hfind : ggmlHashFind tensor g.visited node = some pos)
    (hfree : g.visited.used pos = false) : ¬Has tensor g node := by
  rintro ⟨i, hi⟩
  have hpos : i = pos := Option.some.inj (hi.1.symm.trans hfind)
  rw [← hpos, hi.2] at hfree
  cases hfree

theorem has_mark (hplaced : Placed g.visited (ggmlHash tensor))
    (hfind : ggmlHashFind tensor g.visited node = some pos) (hfree : g.visited.used pos = false) :
    Has tensor (markVisited g pos node) t ↔ Has tensor g t ∨ t = node := by
  constructor
  · rintro ⟨i, hi⟩
    rcases hplaced.at_of_put hi with heq | hold
    · exact .inr heq
    · exact .inl ⟨i, hold⟩
  · rintro (⟨i, hi⟩ | rfl)
    · exact ⟨i, slot_mark hfree hi⟩
    · exact ⟨pos, at_put_self hfind hfree⟩

theorem countAt_mark (hfree : g.visited.used pos = false) : countAt (markVisited g pos node) i = countAt g i := by
  unfold countAt
  change (if Function.update g.visited.used pos true i = true then Function.update g.useCounts pos 0 i else 0) = _
  by_cases hi : i = pos
  · subst hi
    rw [Function.update_self, Function.update_self, hfree]
    rfl
  · rw [Function.update_of_ne hi, Function.update_of_ne hi]

/-- After its sources, a tensor is added to one of the lists, and its uses of them are counted. -/
theorem grown_close {g₂ g₃ : Cgraph} {ns' ls' : List ℕ} (hplaced : Placed g.visited (ggmlHash tensor))
    (hfind : ggmlHashFind tensor g.visited node = some pos) (hfree : g.visited.used pos = false)
    (hloop : Grown tensor (Reach tensor node) (markVisited g pos node) g₂ ns ls (fun t => (tensor node).src.count t))
    (hsame : g₃.visited = g₂.visited ∧ g₃.useCounts = g₂.useCounts ∧ g₃.order = g₂.order)
    (hnodes : g₃.nodes = g.nodes ++ ns') (hleafs : g₃.leafs = g.leafs ++ ls')
    (hperm : (ns' ++ ls').Perm (node :: (ns ++ ls))) (hleaf : ∀ t ∈ ls', isLeaf tensor t = true)
    (hnode : ∀ t ∈ ns', isLeaf tensor t = false)
    (hfirst : Acyclic tensor → SourcesFirst tensor (fun s => Has tensor g s ∨ s ∈ ls') ns') :
    Grown tensor (Reach tensor node) g g₃ ns' ls' (fun _ => 0) := by
  obtain ⟨hvisited, huses, horder⟩ := hsame
  have hslots : ∀ t i, Slot tensor g₃ t i ↔ Slot tensor g₂ t i := fun t i => by rw [Slot, Slot, hvisited]
  have hhas₃ : ∀ t, Has tensor g₃ t ↔ Has tensor g₂ t := fun t => exists_congr (hslots t)
  have hmem : ∀ t, t ∈ ns' ++ ls' ↔ t = node ∨ t ∈ ns ++ ls := fun t => by
    rw [hperm.mem_iff, List.mem_cons]
  have hhas : ∀ t, Has tensor g₂ t ↔ Has tensor g t ∨ t = node ∨ t ∈ ns ++ ls := fun t => by
    rw [hloop.has, has_mark hplaced hfind hfree, or_assoc]
  have hfresh : ∀ t ∈ ns ++ ls, ¬Has tensor g t ∧ t ≠ node := fun t ht => by
    have hno := hloop.fresh t ht
    rw [has_mark hplaced hfind hfree] at hno
    exact not_or.1 hno
  refine ⟨horder.trans hloop.order, hnodes, hleafs, hvisited ▸ hloop.placed, ?_, ?_, ?_, ?_, hleaf, hnode, ?_, ?_,
    fun t ht => absurd rfl ht, ?_, hfirst⟩
  · intro t i ht
    exact (hslots t i).2 (hloop.keep t i (slot_mark hfree ht))
  · intro t
    rw [hhas₃, hhas, hmem]
  · intro t ht
    rcases (hmem t).1 ht with rfl | ht
    · exact not_has_mark hfind hfree
    · exact (hfresh t ht).1
  · rw [hperm.nodup_iff, List.nodup_cons]
    exact ⟨fun ht => (hfresh node ht).2 rfl, hloop.nodup⟩
  · intro t ht
    rcases (hmem t).1 ht with rfl | ht
    · exact .refl
    · exact hloop.reach t ht
  · intro t ht s hs
    rw [hhas₃]
    rcases (hmem t).1 ht with rfl | ht
    · exact hloop.used s (Nat.ne_of_gt (List.count_pos_iff.2 hs))
    · exact hloop.closed t ht s hs
  · intro t i ht
    rw [huses, hloop.counts t i ((hslots t i).1 ht), countAt_mark hfree, usesIn_perm hperm]
    change _ = countAt g i + ((tensor node).src.count t + usesIn tensor (ns ++ ls) t) + 0
    omega

theorem grown_place {g₂ g₃ : Cgraph} (hplaced : Placed g.visited (ggmlHash tensor))
    (hfind : ggmlHashFind tensor g.visited node = some pos) (hfree : g.visited.used pos = false)
    (hloop : Grown tensor (Reach tensor node) (markVisited g pos node) g₂ ns ls (fun t => (tensor node).src.count t))
    (hplace : placeTensor tensor g₂ node = .ok g₃) :
    ∃ ns' ls', Grown tensor (Reach tensor node) g g₃ ns' ls' (fun _ => 0) := by
  have hfirst : Acyclic tensor → SourcesFirst tensor (fun s => Has tensor g s ∨ s ∈ ls) ns := by
    intro hacyclic
    have hmarked : ∀ s, Has tensor (markVisited g pos node) s ∨ s ∈ ls → (Has tensor g s ∨ s ∈ ls) ∨ s = node := by
      intro s hs
      rw [has_mark hplaced hfind hfree] at hs
      tauto
    refine (hloop.first hacyclic).strip hmarked ?_
    intro v hv hsource
    have hreach := hloop.reach v (List.mem_append_left _ hv)
    have hno := hloop.fresh v (List.mem_append_left _ hv)
    rw [has_mark hplaced hfind hfree] at hno
    exact hacyclic node ((reach_other hreach (not_or.1 hno).2).tail hsource)
  unfold placeTensor at hplace
  cases hkind : isLeaf tensor node with
  | true =>
    rw [if_pos hkind] at hplace
    split at hplace
    · cases hplace
      have hperm : (ns ++ (ls ++ [node])).Perm (node :: (ns ++ ls)) := by
        rw [← List.append_assoc]
        exact List.perm_append_singleton node (ns ++ ls)
      refine ⟨ns, ls ++ [node], grown_close hplaced hfind hfree hloop ⟨rfl, rfl, rfl⟩ hloop.nodes ?_ hperm ?_
        hloop.node (fun hacyclic => (hfirst hacyclic).mono ?_)⟩
      · change g₂.leafs ++ [node] = _
        rw [hloop.leafs, List.append_assoc]
        rfl
      · intro t ht
        rcases List.mem_append.1 ht with ht | ht
        · exact hloop.leaf t ht
        · cases List.mem_singleton.1 ht
          exact hkind
      · intro s hs
        exact hs.imp id (List.mem_append_left _)
    · cases hplace
  | false =>
    rw [if_neg (by rw [hkind]; decide)] at hplace
    split at hplace
    · cases hplace
      have hperm : ((ns ++ [node]) ++ ls).Perm (node :: (ns ++ ls)) := by
        rw [List.append_assoc]
        exact List.perm_middle
      refine ⟨ns ++ [node], ls, grown_close hplaced hfind hfree hloop ⟨rfl, rfl, rfl⟩ ?_ hloop.leafs hperm hloop.leaf
        ?_ (fun hacyclic => sourcesFirst_append.2 ⟨hfirst hacyclic, ?_, trivial⟩)⟩
      · change g₂.nodes ++ [node] = _
        rw [hloop.nodes, List.append_assoc]
        rfl
      · intro t ht
        rcases List.mem_append.1 ht with ht | ht
        · exact hloop.node t ht
        · cases List.mem_singleton.1 ht
          exact hkind
      · intro s hs
        have hseen := (hloop.has s).1 (hloop.used s (Nat.ne_of_gt (List.count_pos_iff.2 hs.1)))
        rw [has_mark hplaced hfind hfree, List.mem_append] at hseen
        have hne := hs.2
        tauto
    · cases hplace

end mark

theorem mem_sourcesOf {order : EvalOrder} : s ∈ sourcesOf tensor order t ↔ s ∈ (tensor t).src := by
  cases order <;> simp [sourcesOf]

theorem count_sourcesOf {order : EvalOrder} : (sourcesOf tensor order t).count s = (tensor t).src.count s := by
  cases order <;> simp [sourcesOf]

/-- What a visit does: new tensors that are reachable from the visited one, which is in the table then. -/
def VisitGrows (tensor : ℕ → Tensor) (visit : Cgraph → ℕ → Except BuildAbort (Cgraph × ℕ)) : Prop :=
  ∀ g t g' pos, Placed g.visited (ggmlHash tensor) → visit g t = .ok (g', pos) →
    ∃ ns ls, Grown tensor (Reach tensor t) g g' ns ls (fun _ => 0) ∧ Slot tensor g' t pos

theorem grown_sources {visit : Cgraph → ℕ → Except BuildAbort (Cgraph × ℕ)} (hvisit : VisitGrows tensor visit)
    {srcs : List ℕ} (hR : ∀ s ∈ srcs, ∀ t, Reach tensor s t → R t) (hplaced : Placed g.visited (ggmlHash tensor))
    (h : srcs.foldlM (visitSource visit) g = .ok g') :
    ∃ ns ls, Grown tensor R g g' ns ls (fun t => srcs.count t) := by
  induction srcs generalizing g with
  | nil =>
    cases h
    exact ⟨[], [], Grown.refl hplaced⟩
  | cons s rest ih =>
    rw [List.foldlM_cons] at h
    obtain ⟨g₂, hone, hrest⟩ := except_bind_ok.1 h
    obtain ⟨g₁, pos, hv, rfl⟩ := visitSource_ok hone
    obtain ⟨ns₁, ls₁, hgrown, hslot⟩ := hvisit g s g₁ pos hplaced hv
    have hgrown := hgrown.mono (hR s List.mem_cons_self)
    have hused := hgrown.trans hplaced (grown_countUse hgrown.placed hslot)
    obtain ⟨ns₂, ls₂, hlast⟩ := ih (fun u hu => hR u (List.mem_cons_of_mem _ hu)) hused.placed hrest
    have hall := hused.trans hplaced hlast
    have huses : (fun t => 0 + (if t = s then 1 else 0) + rest.count t) = fun t => (s :: rest).count t := by
      funext t
      rw [List.count_cons]
      by_cases hts : s = t
      · subst hts
        simp
        omega
      · have hst : ¬t = s := fun h => hts h.symm
        simp [hts, hst]
    rw [huses] at hall
    exact ⟨_, _, hall⟩

theorem visitParents_grows (fuel : ℕ) : VisitGrows tensor (ggmlVisitParents tensor fuel) := by
  induction fuel with
  | zero =>
    intro g t g' pos _ h
    cases h
  | succ fuel ih =>
    intro g t g' pos hplaced h
    obtain ⟨hfind, ⟨hused, rfl⟩ | ⟨hfree, g₁, hloop, hplace⟩⟩ := visitParents_ok h
    · exact ⟨[], [], Grown.refl hplaced, hfind, hused⟩
    · have hR : ∀ s ∈ sourcesOf tensor g.order t, ∀ u, Reach tensor s u → Reach tensor t u :=
        fun s hs u hu => .head (mem_sourcesOf.1 hs) hu
      obtain ⟨ns, ls, hgrown⟩ := grown_sources ih hR (hplaced.put hfind hfree) hloop
      simp only [count_sourcesOf] at hgrown
      obtain ⟨ns', ls', hall⟩ := grown_place hplaced hfind hfree hgrown hplace
      refine ⟨ns', ls', hall, ?_⟩
      rw [Slot, placeTensor_visited hplace]
      exact hgrown.keep t pos (at_put_self hfind hfree)

/-! The whole graph. -/

def FromRoots (tensor : ℕ → Tensor) (roots : List ℕ) (t : ℕ) : Prop := ∃ root ∈ roots, Reach tensor root t

theorem buildForward_grows {roots : List ℕ} (hplaced : Placed g.visited (ggmlHash tensor))
    (h : buildForward tensor g roots = .ok g') :
    ∃ ns ls, Grown tensor (FromRoots tensor roots) g g' ns ls (fun _ => 0) ∧ ∀ root ∈ roots, Has tensor g' root := by
  unfold buildForward at h
  induction roots generalizing g with
  | nil =>
    cases h
    exact ⟨[], [], Grown.refl hplaced, by simp⟩
  | cons root rest ih =>
    rw [List.foldlM_cons] at h
    obtain ⟨g₁, hone, hrest⟩ := except_bind_ok.1 h
    unfold ggmlBuildForwardExpand at hone
    cases hvisit : ggmlVisitParents tensor ((free g.visited).card + 1) g root with
    | error e => rw [hvisit] at hone; cases hone
    | ok r =>
      obtain ⟨g₂, pos⟩ := r
      simp only [hvisit] at hone
      split at hone
      · cases hone
      · cases hone
        obtain ⟨ns, ls, hgrown, hslot⟩ := visitParents_grows _ g root g₁ pos hplaced hvisit
        obtain ⟨ns', ls', hlast, hroots⟩ := ih hgrown.placed hrest
        have hfirst : Grown tensor (FromRoots tensor (root :: rest)) g g₁ ns ls (fun _ => 0) :=
          hgrown.mono (fun t ht => ⟨root, List.mem_cons_self, ht⟩)
        have hnext : Grown tensor (FromRoots tensor (root :: rest)) g₁ g' ns' ls' (fun _ => 0) :=
          hlast.mono (fun t ⟨r, hr, ht⟩ => ⟨r, List.mem_cons_of_mem _ hr, ht⟩)
        refine ⟨_, _, hfirst.trans hplaced hnext, ?_⟩
        intro r hr
        rcases List.mem_cons.1 hr with rfl | hr
        · exact (hlast.has r).2 (.inl ⟨pos, hslot⟩)
        · exact hroots r hr

/-- What the rest of the program relies on in a built graph. -/
structure Built (tensor : ℕ → Tensor) (roots : List ℕ) (g : Cgraph) : Prop where
  nodup : (g.nodes ++ g.leafs).Nodup
  listed : ∀ t, t ∈ g.nodes ++ g.leafs ↔ FromRoots tensor roots t
  leafs : ∀ t ∈ g.leafs, isLeaf tensor t = true
  nodes : ∀ t ∈ g.nodes, isLeaf tensor t = false
  order : ∀ i t : ℕ, g.nodes[i]? = some t → ∀ s, OtherSource tensor t s → s ∈ g.leafs ∨ ∃ j < i, g.nodes[j]? = some s
  counts : ∀ t ∈ g.nodes ++ g.leafs, ∃ pos, ggmlHashFind tensor g.visited t = some pos ∧
    g.visited.used pos = true ∧ g.useCounts pos = usesIn tensor (g.nodes ++ g.leafs) t
  useCount : ∀ i t : ℕ, g.nodes[i]? = some t →
    ggmlNodeGetUseCount tensor g i = some (usesIn tensor (g.nodes ++ g.leafs) t)

theorem buildForward_built (tensor : ℕ → Tensor) (roots : List ℕ) (start g : Cgraph) (hstart : Fresh start)
    (hacyclic : Acyclic tensor) (h : buildForward tensor start roots = .ok g) : Built tensor roots g := by
  obtain ⟨hnodes, hleafs, hfree⟩ := hstart
  have hempty : ∀ t, ¬Has tensor start t := by
    rintro t ⟨i, -, hused⟩
    rw [hfree i] at hused
    cases hused
  have hplaced : Placed start.visited (ggmlHash tensor) := by
    intro i hused
    rw [hfree i] at hused
    cases hused
  obtain ⟨ns, ls, hgrown, hroots⟩ := buildForward_grows hplaced h
  have hns : g.nodes = ns := by rw [hgrown.nodes, hnodes, List.nil_append]
  have hls : g.leafs = ls := by rw [hgrown.leafs, hleafs, List.nil_append]
  have hhas : ∀ t, Has tensor g t ↔ t ∈ ns ++ ls := by
    intro t
    rw [hgrown.has]
    exact ⟨fun ht => ht.resolve_left (hempty t), Or.inr⟩
  have hslots : ∀ t ∈ ns ++ ls, ∃ pos, ggmlHashFind tensor g.visited t = some pos ∧
      g.visited.used pos = true ∧ g.useCounts pos = usesIn tensor (ns ++ ls) t := by
    intro t ht
    obtain ⟨pos, hslot⟩ := (hhas t).2 ht
    have hcount := hgrown.counts t pos hslot
    rw [countAt, hfree pos] at hcount
    exact ⟨pos, hslot.1, hslot.2, by simpa using hcount⟩
  subst hns
  subst hls
  refine ⟨hgrown.nodup, ?_, hgrown.leaf, hgrown.node, ?_, hslots, ?_⟩
  · intro t
    refine ⟨hgrown.reach t, ?_⟩
    rintro ⟨root, hroot, hpath⟩
    induction hpath with
    | refl => exact (hhas root).1 (hroots root hroot)
    | tail _ hsource ih => exact (hhas _).1 (hgrown.closed _ ih _ hsource)
  · intro i t ht s hs
    rcases (hgrown.first hacyclic).get ht hs with (hold | hleaf) | hearlier
    · exact absurd hold (hempty s)
    · exact .inl hleaf
    · exact .inr hearlier
  · intro i t ht
    obtain ⟨pos, hfind, hused, hcount⟩ := hslots t (List.mem_append_left _ (List.mem_of_getElem? ht))
    simp only [ggmlNodeGetUseCount, ht, hfind, hused, if_true, hcount]

/-- A constant, a copy that is its own second source, and two tensors that use it. All hashes are equal. -/
def castTensors (t : ℕ) : Tensor :=
  match t with
  | 1 => ⟨.cpy, false, [0, 1], 80⟩
  | 2 => ⟨.add, false, [1, 1], 160⟩
  | 3 => ⟨.mulMat, false, [2, 1], 240⟩
  | _ => ⟨.none, false, [], 0⟩

def emptyGraph : Cgraph :=
  ⟨8, [], [], fun _ => 0, ⟨5, Nat.succ_pos 4, fun _ => false, fun _ => 0⟩, .rightToLeft, fun _ => ""⟩

theorem castTensors_acyclic : Acyclic castTensors := by
  have hless : ∀ t s, OtherSource castTensors t s → s < t := by
    intro t s hs
    match t with
    | 0 => simp [OtherSource, castTensors] at hs
    | 1 => simp [OtherSource, castTensors] at hs; omega
    | 2 => simp [OtherSource, castTensors] at hs; omega
    | 3 => simp [OtherSource, castTensors] at hs; omega
    | _ + 4 => simp [OtherSource, castTensors] at hs
  intro t hcycle
  have hdown : ∀ u, Relation.TransGen (OtherSource castTensors) t u → u < t := by
    intro u hu
    induction hu with
    | single hs => exact hless _ _ hs
    | tail _ hs ih => exact (hless _ _ hs).trans ih
  exact Nat.lt_irrefl t (hdown t hcycle)

theorem buildForward_built_cast : ∃ g, buildForward castTensors emptyGraph [2, 3] = .ok g ∧
    g.nodes = [1, 2, 3] ∧ g.leafs = [0] ∧ Built castTensors [2, 3] g := by
  have h : (buildForward castTensors emptyGraph [2, 3]).map (fun g => (g.nodes, g.leafs)) =
      .ok ([1, 2, 3], [0]) := by decide +kernel
  cases hg : buildForward castTensors emptyGraph [2, 3] with
  | error e => rw [hg] at h; cases h
  | ok g =>
    rw [hg] at h
    have hlists := Prod.mk.inj (Except.ok.inj h)
    exact ⟨g, rfl, hlists.1, hlists.2,
      buildForward_built castTensors [2, 3] emptyGraph g ⟨rfl, rfl, fun _ => rfl⟩ castTensors_acyclic hg⟩

end PyannoteCpp.GraphBuild
