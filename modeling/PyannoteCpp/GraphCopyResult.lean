import PyannoteCpp.GraphCopySlots

set_option autoImplicit false

/-!
# When a graph is copied

The gradients follow the slots of the nodes in both tables. A copy succeeds and is right
exactly when the destination's set has room for the tensors of the source and none of
them.
-/
namespace PyannoteCpp.GraphCopy
open LinearProbing PrefixGrammar CheckedLoops HashSets

variable {src dst : Cgraph}

section Gradients

variable {visited : HashSet} {M : Finset (BitVec 64)} {grads accs nodes : List (BitVec 64)}
  {st st' : List (BitVec 64) × List (BitVec 64)} {i n : ℕ} {t : BitVec 64}

theorem findSlot_ok : findSlot visited t = .ok i ↔ ggmlHashFind visited t = some i := by
  unfold findSlot
  rw [ggmlHashFind_eq]
  exact ⟨fun h => congrArg some (Except.ok.inj h), fun h => congrArg Except.ok (Option.some.inj h)⟩

theorem copyGrad_member (hsrc : WellFormed src) (hnode : src.nodes[i]? = some t)
    (h : copyGrad src grads accs nodes visited st i = .ok st') : t ∈ src.visited.members := by
  unfold copyGrad at h
  obtain ⟨t', ht', h⟩ := except_bind_ok.mp h
  obtain ⟨p, hp, h⟩ := except_bind_ok.mp h
  obtain ⟨_, -, h⟩ := except_bind_ok.mp h
  obtain ⟨_, -, h⟩ := except_bind_ok.mp h
  obtain ⟨_, hnotFull, h⟩ := except_bind_ok.mp h
  obtain ⟨_, hused, -⟩ := except_bind_ok.mp h
  cases Option.some.inj (hnode.symm.trans (readAt_ok.mp ht'))
  have hholds := Holds.ofPlaced hsrc.placed
  have hfind := findSlot_ok.mp hp
  by_contra hnot
  obtain ⟨-, hfree, -⟩ := hholds.laws.nonMember t hnot p hfind (ggmlAssert_ok.mp hnotFull)
  rw [ggmlAssert_ok.mp hused] at hfree
  cases hfree

theorem copyGrad_ok (hgrads : grads.length = src.visited.size)
    (haccs : accs.length = src.visited.size) (hnode : src.nodes[i]? = some t) (hcopied : nodes[i]? = some t)
    {p q : ℕ} (hp : At src.visited.table ggmlHash t p) (hq : At visited.table ggmlHash t q)
    (hlength : st.1.length = visited.size ∧ st.2.length = visited.size) :
    ∃ grad acc, grads[p]? = some grad ∧ accs[p]? = some acc ∧
      copyGrad src grads accs nodes visited st i = .ok (st.1.set q grad, st.2.set q acc) := by
  obtain ⟨hplace, hused⟩ := at_iff.mp hp
  obtain ⟨hplace', hused'⟩ := at_iff.mp hq
  have hpl := place_lt hplace
  have hql := place_lt hplace'
  have hgrad : grads[p]? = some grads[p] := List.getElem?_eq_getElem (hgrads ▸ hpl)
  have hacc : accs[p]? = some accs[p] := List.getElem?_eq_getElem (haccs ▸ hpl)
  refine ⟨_, _, hgrad, hacc, ?_⟩
  unfold copyGrad
  refine except_bind_ok.mpr ⟨t, readAt_ok.mpr hnode, except_bind_ok.mpr ⟨p, findSlot_ok.mpr (find_some hplace), ?_⟩⟩
  refine except_bind_ok.mpr ⟨t, readAt_ok.mpr hcopied, except_bind_ok.mpr ⟨q, findSlot_ok.mpr (find_some hplace'), ?_⟩⟩
  refine except_bind_ok.mpr ⟨(), ggmlAssert_ok.mpr (slot_ne hpl).1, except_bind_ok.mpr ⟨(), ggmlAssert_ok.mpr hused, ?_⟩⟩
  refine except_bind_ok.mpr ⟨(), ggmlAssert_ok.mpr (slot_ne hql).1, except_bind_ok.mpr ⟨(), ggmlAssert_ok.mpr hused', ?_⟩⟩
  refine except_bind_ok.mpr ⟨_, readAt_ok.mpr hgrad, except_bind_ok.mpr ⟨_, writeAt_ok.mpr ⟨hlength.1 ▸ hql, rfl⟩, ?_⟩⟩
  exact except_bind_ok.mpr ⟨_, readAt_ok.mpr hacc, except_bind_ok.mpr ⟨_, writeAt_ok.mpr ⟨hlength.2 ▸ hql, rfl⟩, rfl⟩⟩

/-- A tensor whose value is the same in both tables. -/
def SameAt (src : Cgraph) (visited : HashSet) (values dstValues : List (BitVec 64)) (t : BitVec 64) : Prop :=
  ∃ value, slotValue src.visited values t = some value ∧ slotValue visited dstValues t = some value

theorem slotValue_at {α : Type} {s : HashSet} {l : List α} {p : ℕ} (h : At s.table ggmlHash t p) : slotValue s l t = l[p]? := by
  unfold slotValue
  rw [find_some h.1]
  rfl

theorem SameAt.write {values dstValues : List (BitVec 64)} {u value : BitVec 64} {p q q' : ℕ}
    (hsame : SameAt src visited values dstValues u) (hu : At visited.table ggmlHash u q')
    (hp : At src.visited.table ggmlHash t p) (hq : At visited.table ggmlHash t q) (hvalue : values[p]? = some value)
    (hlength : q < dstValues.length) : SameAt src visited values (dstValues.set q value) u := by
  by_cases hut : u = t
  · subst hut
    refine ⟨value, (slotValue_at hp).trans hvalue, ?_⟩
    rw [slotValue_at hq, List.getElem?_set_self hlength]
  · obtain ⟨old, hold, hcopy⟩ := hsame
    refine ⟨old, hold, ?_⟩
    rw [slotValue_at hu] at hcopy ⊢
    rw [List.getElem?_set_ne (hu.ne hq hut).symm, hcopy]

theorem copyGradLoop_ok (hsrc : WellFormed src) (hgrads : grads.length = src.visited.size)
    (haccs : accs.length = src.visited.size) (hholds : Holds visited M) (hsub : src.visited.members ⊆ M)
    (hn : n ≤ src.nodes.length) (hnodes : nodes.take n = src.nodes.take n)
    (hmembers : ∀ t ∈ src.nodes.take n, t ∈ src.visited.members)
    (hlength : st.1.length = visited.size ∧ st.2.length = visited.size) :
    ∃ st', (List.range n).foldlM (copyGrad src grads accs nodes visited) st = .ok st' ∧
      (st'.1.length = visited.size ∧ st'.2.length = visited.size) ∧
      ∀ t ∈ src.nodes.take n, SameAt src visited grads st'.1 t ∧ SameAt src visited accs st'.2 t := by
  induction n with
  | zero => exact ⟨st, rfl, hlength, fun _ ht => nomatch ht⟩
  | succ n ih =>
    have hlt : n < src.nodes.length := hn
    have htake : src.nodes.take (n + 1) = src.nodes.take n ++ [src.nodes[n]] := List.take_succ_eq_append_getElem hlt
    have hinto : ∀ t ∈ src.nodes.take n, t ∈ src.nodes.take (n + 1) := fun t ht => by
      rw [htake]
      exact List.mem_append_left _ ht
    have hlast : src.nodes[n] ∈ src.nodes.take (n + 1) := by
      rw [htake]
      exact List.mem_append_right _ List.mem_cons_self
    have hearlier : nodes.take n = src.nodes.take n := by
      have hcut := congrArg (List.take n) hnodes
      rwa [List.take_take, List.take_take, Nat.min_eq_left (Nat.le_succ n)] at hcut
    have hcopied : nodes[n]? = some src.nodes[n] := by
      have hget := congrArg (fun l => l[n]?) hnodes
      rw [List.getElem?_take_of_lt (Nat.lt_succ_self n), List.getElem?_take_of_lt (Nat.lt_succ_self n)] at hget
      exact hget.trans (List.getElem?_eq_getElem hlt)
    obtain ⟨mid, hrun, hmid, hsame⟩ := ih (by omega) hearlier fun t ht => hmembers t (hinto t ht)
    have hplaces : ∀ t ∈ src.nodes.take (n + 1), ∃ p q, At src.visited.table ggmlHash t p ∧ At visited.table ggmlHash t q :=
      fun t ht => by
        obtain ⟨p, hp⟩ := ((Holds.ofPlaced hsrc.placed).members t).mp (hmembers t ht)
        obtain ⟨q, hq⟩ := (hholds.members t).mp (hsub (hmembers t ht))
        exact ⟨p, q, hp, hq⟩
    obtain ⟨p, q, hp, hq⟩ := hplaces _ hlast
    obtain ⟨grad, acc, hgrad, hacc, hstep⟩ := copyGrad_ok hgrads haccs (List.getElem?_eq_getElem hlt) hcopied hp hq hmid
    have hql : q < visited.size := place_lt hq.1
    refine ⟨(mid.1.set q grad, mid.2.set q acc), ?_, ?_, fun u hu => ?_⟩
    · rw [List.range_succ, List.foldlM_append]
      exact except_bind_ok.mpr ⟨mid, hrun, except_bind_ok.mpr ⟨_, hstep, rfl⟩⟩
    · rw [List.length_set, List.length_set]
      exact hmid
    · rw [htake, List.mem_append, List.mem_singleton] at hu
      rcases hu with hu | rfl
      · obtain ⟨_, q', -, hq'⟩ := hplaces u (hinto u hu)
        exact ⟨(hsame u hu).1.write hq' hp hq hgrad (hmid.1 ▸ hql), (hsame u hu).2.write hq' hp hq hacc (hmid.2 ▸ hql)⟩
      · refine ⟨⟨grad, (slotValue_at hp).trans hgrad, ?_⟩, ⟨acc, (slotValue_at hp).trans hacc, ?_⟩⟩
        · rw [slotValue_at hq, List.getElem?_set_self (hmid.1 ▸ hql)]
        · rw [slotValue_at hq, List.getElem?_set_self (hmid.2 ▸ hql)]

end Gradients

section Copies

theorem zeroFirst_ok {n : ℕ} {l : List (BitVec 64)} (h : l.length = n) :
    ∃ zeros, zeroFirst n l = .ok zeros ∧ zeros.length = n := by
  refine ⟨_, if_pos h.ge, ?_⟩
  rw [List.length_append, List.length_replicate, List.length_drop]
  omega

theorem clearGrads_ok (hdst : WellFormed dst) :
    ∃ cleared, clearGrads dst.visited.size dst.grads dst.gradAccs = .ok cleared ∧
      (dst.grads = none → cleared = (none, none)) ∧
      (dst.grads.isSome = true → ∃ grads accs, cleared = (some grads, some accs) ∧
        grads.length = dst.visited.size ∧ accs.length = dst.visited.size) := by
  have hpaired := hdst.paired
  cases hgrads : dst.grads with
  | none =>
    rw [hgrads] at hpaired
    have haccs : dst.gradAccs = none := by simpa using hpaired.symm
    rw [haccs]
    exact ⟨_, rfl, fun _ => rfl, nofun⟩
  | some grads =>
    rw [hgrads] at hpaired
    obtain ⟨accs, haccs⟩ := Option.isSome_iff_exists.mp hpaired.symm
    obtain ⟨zeros, hzeros, hlength⟩ := zeroFirst_ok (hdst.grads grads hgrads)
    obtain ⟨zeros', hzeros', hlength'⟩ := zeroFirst_ok (hdst.gradAccs accs haccs)
    rw [haccs]
    refine ⟨(some zeros, some zeros'), ?_, nofun, fun _ => ⟨zeros, zeros', rfl, hlength, hlength'⟩⟩
    exact except_bind_ok.mpr ⟨zeros, hzeros, except_bind_ok.mpr ⟨zeros', hzeros', rfl⟩⟩

/-- The destination has room for the tensors of the source and none of them, and gradients can follow their nodes. -/
structure Copyable (src dst : Cgraph) : Prop where
  slots : SlotsFree src dst
  grads : src.grads.isSome = true → dst.grads.isSome = true ∧ ∀ t ∈ src.nodes.take src.nNodes, t ∈ src.visited.members

theorem copyable_of_ok {g : Cgraph} (hsrc : WellFormed src) (hdst : WellFormed dst) (h : ggmlGraphCpy src dst = .ok g) :
    Copyable src dst := by
  unfold ggmlGraphCpy at h
  obtain ⟨_, -, h⟩ := except_bind_ok.mp h
  obtain ⟨_, -, h⟩ := except_bind_ok.mp h
  obtain ⟨_, -, h⟩ := except_bind_ok.mp h
  obtain ⟨leafs, -, h⟩ := except_bind_ok.mp h
  obtain ⟨nodes, -, h⟩ := except_bind_ok.mp h
  obtain ⟨st, hslots, h⟩ := except_bind_ok.mp h
  obtain ⟨cleared, hcleared, h⟩ := except_bind_ok.mp h
  obtain ⟨r, hr, -⟩ := except_bind_ok.mp h
  have hcopied := SlotsCopied.run hsrc hdst le_rfl hslots
  refine ⟨hcopied.free, fun hgrads => ?_⟩
  obtain ⟨grads, hgrads⟩ := Option.isSome_iff_exists.mp hgrads
  unfold copyGrads at hr
  rw [hgrads] at hr
  obtain ⟨cleared', hcleared', hnone, -⟩ := clearGrads_ok hdst
  rw [hcopied.size, hcleared'] at hcleared
  cases hcleared
  refine ⟨?_, fun t ht => ?_⟩
  · cases hown : dst.grads with
    | none =>
      rw [hnone hown] at hr
      cases hr
    | some _ => rfl
  · dsimp only at hr
    split at hr
    · obtain ⟨last, hloop, -⟩ := except_bind_ok.mp hr
      obtain ⟨i, hi, hnode⟩ := List.mem_iff_getElem.mp ht
      rw [List.length_take] at hi
      rw [List.getElem_take] at hnode
      have hlt : i < src.nNodes := hi.trans_le (Nat.min_le_left _ _)
      obtain ⟨u, u', hturn⟩ := foldlM_turn hloop (List.mem_range.mpr hlt)
      exact copyGrad_member hsrc (List.getElem?_eq_some_iff.mpr ⟨hi.trans_le (Nat.min_le_right _ _), hnode⟩) hturn
    · cases hr

theorem copyGrads_ok {st : HashSet × List (BitVec 32)} {nodes : List (BitVec 64)}
    {cleared : Option (List (BitVec 64)) × Option (List (BitVec 64))} (hsrc : WellFormed src)
    (hcopied : SlotsCopied src dst src.visited.size st) (hnodes : nodes.take src.nNodes = src.nodes.take src.nNodes)
    (hcopyable : Copyable src dst)
    (hcleared : dst.grads.isSome = true → ∃ grads accs, cleared = (some grads, some accs) ∧
      grads.length = dst.visited.size ∧ accs.length = dst.visited.size) :
    ∃ r, copyGrads src nodes st.1 cleared = .ok r ∧
      ∀ grads ∈ src.grads, ∀ accs ∈ src.gradAccs, ∃ dstGrads ∈ r.1, ∃ dstAccs ∈ r.2, ∀ t ∈ src.nodes.take src.nNodes,
        SameAt src st.1 grads dstGrads t ∧ SameAt src st.1 accs dstAccs t := by
  have hpaired := hsrc.paired
  have hgradients := hcopyable.grads
  unfold copyGrads
  cases hown : src.grads with
  | none => exact ⟨cleared, rfl, fun _ h => nomatch h⟩
  | some grads =>
    rw [hown] at hpaired hgradients
    obtain ⟨accs, haccs⟩ := Option.isSome_iff_exists.mp hpaired.symm
    obtain ⟨hdstGrads, hvisited⟩ := hgradients rfl
    obtain ⟨zeros, zeros', rfl, hzeros, hzeros'⟩ := hcleared hdstGrads
    obtain ⟨last, hloop, -, hsame⟩ := @copyGradLoop_ok src st.1 _ grads accs nodes (zeros, zeros') src.nNodes hsrc
      (hsrc.grads grads hown) (hsrc.gradAccs accs haccs) hcopied.holds Finset.subset_union_right hsrc.nodes.2 hnodes
      hvisited ⟨hzeros.trans hcopied.size.symm, hzeros'.trans hcopied.size.symm⟩
    rw [haccs]
    refine ⟨(some last.1, some last.2), except_bind_ok.mpr ⟨last, hloop, rfl⟩, fun grads' hg accs' ha => ?_⟩
    cases Option.mem_some.mp hg
    cases Option.mem_some.mp ha
    exact ⟨last.1, rfl, last.2, rfl, hsame⟩

theorem copied_of_copyable (hsrc : WellFormed src) (hdst : WellFormed dst) (hleafs : src.nLeafs ≤ dst.size)
    (hnodes : src.nNodes ≤ dst.size) (hsize : src.visited.size ≤ dst.visited.size) (hcopyable : Copyable src dst) :
    ∃ g, ggmlGraphCpy src dst = .ok g ∧ Copied src g := by
  obtain ⟨leafs, hleafsRun, -, hleafsTake⟩ := copyPointers_ok hsrc.leafs.2 (hleafs.trans hdst.leafs.1)
  obtain ⟨nodes, hnodesRun, -, hnodesTake⟩ := copyPointers_ok hsrc.nodes.2 (hnodes.trans hdst.nodes.1)
  obtain ⟨st, hslotsRun⟩ := copySlots_returns hsrc hdst hcopyable.slots le_rfl
  have hcopied := SlotsCopied.run hsrc hdst le_rfl hslotsRun
  obtain ⟨cleared, hcleared, -, hsome⟩ := clearGrads_ok hdst
  obtain ⟨r, hr, hsame⟩ := copyGrads_ok hsrc hcopied hnodesTake hcopyable hsome
  have hmembers : src.visited.members ⊆ st.1.members := fun t ht => by
    have hat := (hcopied.holds.members t).mp (Finset.mem_union_right _ ht)
    exact ((Holds.ofPlaced hcopied.holds.placed).members t).mpr hat
  refine ⟨{ dst with
    nNodes := src.nNodes, nLeafs := src.nLeafs, order := src.order, nodes := nodes, leafs := leafs,
    visited := st.1, useCounts := st.2, grads := r.1, gradAccs := r.2 }, ?_, ?_⟩
  · unfold ggmlGraphCpy
    refine except_bind_ok.mpr ⟨(), ggmlAssert_ok.mpr hleafs, except_bind_ok.mpr ⟨(), ggmlAssert_ok.mpr hnodes, ?_⟩⟩
    refine except_bind_ok.mpr ⟨(), ggmlAssert_ok.mpr hsize, except_bind_ok.mpr ⟨leafs, hleafsRun, ?_⟩⟩
    refine except_bind_ok.mpr ⟨nodes, hnodesRun, except_bind_ok.mpr ⟨st, hslotsRun, ?_⟩⟩
    refine except_bind_ok.mpr ⟨cleared, ?_, except_bind_ok.mpr ⟨r, hr, rfl⟩⟩
    rw [hcopied.size]
    exact hcleared
  · refine ⟨⟨rfl, hnodesTake⟩, ⟨rfl, hleafsTake⟩, rfl, hmembers, fun t ht => hcopied.lookup hsrc ht, ?_⟩
    intro grads hg accs ha
    obtain ⟨dstGrads, hdstGrads, dstAccs, hdstAccs, hall⟩ := hsame grads hg accs ha
    refine ⟨dstGrads, hdstGrads, dstAccs, hdstAccs, fun t ht => ?_⟩
    obtain ⟨⟨grad, hgrad, hcopyGrad⟩, acc, hacc, hcopyAcc⟩ := hall t ht
    exact ⟨grad, acc, hgrad, hcopyGrad, hacc, hcopyAcc⟩

/-- With room in the arrays, copying a graph is right exactly when the destination has room for the source's tensors and
none of them, and the source's gradients have a place. -/
theorem graph_cpy_iff (hsrc : WellFormed src) (hdst : WellFormed dst) (hleafs : src.nLeafs ≤ dst.size)
    (hnodes : src.nNodes ≤ dst.size) (hsize : src.visited.size ≤ dst.visited.size) :
    (∃ g, ggmlGraphCpy src dst = .ok g ∧ Copied src g) ↔ Copyable src dst :=
  ⟨fun ⟨_, hcopy, _⟩ => copyable_of_ok hsrc hdst hcopy, copied_of_copyable hsrc hdst hleafs hnodes hsize⟩

/-- A node that has been visited, with a gradient and an accumulator at its slot. -/
def oneNode : Cgraph where
  size := 1
  nNodes := 1
  nLeafs := 0
  nodes := [16]
  grads := some [0, 96]
  gradAccs := some [0, 112]
  leafs := [0]
  useCounts := [7, 3]
  visited := fill twoSlots 1 16
  order := .leftToRight

/-- A graph that has held another tensor, at the other slot. -/
def otherNode : Cgraph := { oneNode with nodes := [32], grads := some [48, 0], visited := fill twoSlots 0 32 }

theorem oneNode_wellFormed : WellFormed oneNode :=
  ⟨by decide, by decide, rfl, ((@Fresh.holds twoSlots rfl).filled rfl rfl).placed, fun _ hl => by cases hl; rfl,
    fun _ hl => by cases hl; rfl, rfl⟩

theorem otherNode_wellFormed : WellFormed otherNode :=
  ⟨by decide, by decide, rfl, ((@Fresh.holds twoSlots rfl).filled rfl rfl).placed, fun _ hl => by cases hl; rfl,
    fun _ hl => by cases hl; rfl, rfl⟩

theorem graph_cpy_other : ∃ g, ggmlGraphCpy oneNode otherNode = .ok g ∧ Copied oneNode g := by
  have hnode : (16 : BitVec 64) ∈ oneNode.visited.members := by decide
  refine (graph_cpy_iff oneNode_wellFormed otherNode_wellFormed (by decide) (by decide) (by decide)).2
    ⟨⟨by decide, by decide⟩, fun _ => ⟨rfl, fun t ht => ?_⟩⟩
  cases List.mem_singleton.mp ht
  exact hnode

/-- A graph that is copied twice into the same one has its use count written outside of the array. -/
theorem not_graph_cpy :
    ∃ g, ggmlGraphCpy oneNode otherNode = .ok g ∧ oneNode.nLeafs ≤ g.size ∧ oneNode.nNodes ≤ g.size ∧
      oneNode.visited.size ≤ g.visited.size ∧ ggmlGraphCpy oneNode g = .error .outOfBounds :=
  ⟨_, rfl, by decide, by decide, by decide, rfl⟩

end Copies

section Duplicates

structure Junk where
  pointers : ℕ → BitVec 64
  counts : ℕ → BitVec 32

def Junk.array (junk : Junk) (n : ℕ) : List (BitVec 64) := (List.range n).map junk.pointers

theorem Junk.array_length (junk : Junk) (n : ℕ) : (junk.array n).length = n :=
  (List.length_map _).trans List.length_range

def ggmlNewGraphCustom (junk : Junk) (size : ℕ) (grads : Bool) (hfits : 8 * ggmlHashSize (size * 2) < 2 ^ 64) : Cgraph where
  size := size
  nNodes := 0
  nLeafs := 0
  nodes := junk.array size
  grads := if grads then some (List.replicate (ggmlHashSize (size * 2)) 0) else none
  gradAccs := if grads then some (List.replicate (ggmlHashSize (size * 2)) 0) else none
  leafs := junk.array size
  useCounts := (List.range (ggmlHashSize (size * 2))).map junk.counts
  visited := ggmlHashSetNew (size * 2) (junk.array (ggmlHashSize (size * 2))) (junk.array_length _) hfits
  order := .leftToRight

def ggmlGraphDup (junk : Junk) (g : Cgraph) (forceGrads : Bool) (hfits : 8 * ggmlHashSize (g.size * 2) < 2 ^ 64) :
    Except Stop Cgraph :=
  ggmlGraphCpy g (ggmlNewGraphCustom junk g.size (g.grads.isSome || forceGrads) hfits)

variable {junk : Junk} {size : ℕ} {grads : Bool}

theorem newGraph_holds (hfits : 8 * ggmlHashSize (size * 2) < 2 ^ 64) :
    Holds (ggmlNewGraphCustom junk size grads hfits).visited ∅ :=
  @Fresh.holds (ggmlNewGraphCustom junk size grads hfits).visited rfl

theorem newGraph_wellFormed (hfits : 8 * ggmlHashSize (size * 2) < 2 ^ 64) :
    WellFormed (ggmlNewGraphCustom junk size grads hfits) := by
  have hgrads : ∀ l ∈ (if grads then some (List.replicate (ggmlHashSize (size * 2)) (0 : BitVec 64)) else none),
      l.length = ggmlHashSize (size * 2) := by
    cases grads with
    | false => exact fun l hl => nomatch hl
    | true =>
      intro l hl
      cases hl
      exact List.length_replicate
  exact ⟨⟨(junk.array_length size).ge, Nat.zero_le _⟩, ⟨(junk.array_length size).ge, Nat.zero_le _⟩,
    (List.length_map _).trans List.length_range, (newGraph_holds hfits).placed, hgrads, hgrads, rfl⟩

theorem graphDup_copied {forceGrads : Bool} (hsrc : WellFormed src) (hfits : 8 * ggmlHashSize (src.size * 2) < 2 ^ 64)
    (hleafs : src.nLeafs ≤ src.size) (hnodes : src.nNodes ≤ src.size) (hsize : src.visited.size ≤ ggmlHashSize (src.size * 2))
    (hvisited : ∀ t ∈ src.nodes.take src.nNodes, t ∈ src.visited.members) :
    ∃ g, ggmlGraphDup junk src forceGrads hfits = .ok g ∧ Copied src g := by
  have hempty : (ggmlNewGraphCustom junk src.size (src.grads.isSome || forceGrads) hfits).visited.members = ∅ := by
    have hholds := @newGraph_holds junk src.size (src.grads.isSome || forceGrads) hfits
    ext t
    exact ((Holds.ofPlaced hholds.placed).members t).trans (hholds.members t).symm
  have hcard : src.visited.members.card ≤ src.visited.size := by
    have hcount := (Holds.ofPlaced hsrc.placed).count
    omega
  refine copied_of_copyable hsrc (newGraph_wellFormed hfits) hleafs hnodes hsize ⟨⟨?_, ?_⟩, fun hgrads => ⟨?_, hvisited⟩⟩
  · rw [hempty]
    exact Finset.disjoint_empty_left _
  · rw [hempty, Finset.card_empty, Nat.zero_add]
    exact hcard.trans hsize
  · unfold ggmlNewGraphCustom
    dsimp only
    rw [hgrads]
    rfl

end Duplicates

end PyannoteCpp.GraphCopy
