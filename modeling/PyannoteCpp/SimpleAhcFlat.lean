import Mathlib.Logic.Equiv.Fin.Basic
import PyannoteCpp.CheckedVector
import PyannoteCpp.SimpleAhcFloat

set_option autoImplicit false

/-!
# The clustering on its flat matrices

`dist_matrix` and `G_data` are vectors of `n * n` cells, and the size and every
index into them are computed in numbers of type `int`. Where `n * n` fits, the
flat program is the clustering on a matrix of functions; where it does not, the
program stops at the first product it forms.
-/
namespace PyannoteCpp.SimpleAhc
open MachineInt CheckedVector CheckedLoops

variable {E C F : Type} {m : ℕ}

/-- The matrix of `m` rows as one vector, row after row. -/
def flatten (D : Fin m → Fin m → F) : List F := List.ofFn (fun p : Fin (m * m) => D p.divNat p.modNat)

def cell (n a b : ℤ) : Except Fault ℤ := do
  let row ← checked (mulInt a n)
  checked (addInt row b)

def readCell (n : ℤ) (v : List F) (a b : ℤ) : Except Fault F := do
  readAt v (← cell n a b)

def writeCell (n : ℤ) (v : List F) (a b : ℤ) (x : F) : Except Fault (List F) := do
  writeAt v (← cell n a b) x

structure FlatState (C F : Type) (m : ℕ) where
  active : Fin m → Bool
  centroids : Fin m → C
  clusterSize : Fin m → ℕ
  parent : ParentForest m
  distMatrix : List F
  numActive : ℕ

abbrev Ascending (m : ℕ) := {p : Fin m × Fin m // p.1 ≤ p.2}

theorem scanOrder_le (active : Fin m → Bool) : ∀ p ∈ scanOrder active, p.1 ≤ p.2 :=
  fun _ hp => (mem_scanOrder.1 hp).1.le

/-- The pairs of two indices that a double loop with `j` from `i + 1` goes through. -/
def ascendingPairs (active : Fin m → Bool) : List (Ascending m) :=
  (scanOrder active).attachWith (fun p => p.1 ≤ p.2) (scanOrder_le active)

variable (L : FloatLinkage C F) (threshold : F) (n : ℤ)

def scanCell (v : List F) (best : F × Option (Ascending m)) (p : Ascending m) :
    Except Fault (F × Option (Ascending m)) := do
  let d ← readCell n v p.1.1 p.1.2
  if L.lt d best.1 then
    let bestDist ← readCell n v p.1.1 p.1.2
    pure (bestDist, some p)
  else pure best

/-- Both cells of the pair `i`, `k`. -/
def writeBoth (v : List F) (i k : Fin m) (d : F) : Except Fault (List F) := do
  let v ← writeCell n v i k d
  writeCell n v k i d

def refreshCell (centroids : Fin m → C) (active : Fin m → Bool) (i : Fin m) (v : List F) (k : Fin m) :
    Except Fault (List F) :=
  if !active k || k = i then pure v else writeBoth n v i k (L.distance (centroids i) (centroids k))

def FlatState.merge (S : FlatState C F m) (p : Ascending m) : Except Fault (FlatState C F m) := do
  let i := p.1.1
  let j := p.1.2
  let centroids := Function.update S.centroids i
    (L.blend (S.centroids i) (S.clusterSize i) (S.centroids j) (S.clusterSize j))
  let active := Function.update S.active j false
  let distMatrix ← (List.finRange m).foldlM (refreshCell L n centroids active i) S.distMatrix
  pure
    { active := active
      centroids := centroids
      clusterSize := Function.update S.clusterSize i (S.clusterSize i + S.clusterSize j)
      parent := S.parent.point j i p.2
      distMatrix := distMatrix
      numActive := S.numActive - 1 }

def flatStep (S : FlatState C F m) : Except Fault (Option (FlatState C F m)) :=
  if S.numActive ≤ 1 then pure none
  else do
    let best ← (ascendingPairs S.active).foldlM (scanCell L n S.distMatrix) (L.sentinel, none)
    match best.2 with
    | none => pure none
    | some p =>
      if L.lt threshold best.1 then pure none
      else
        let U ← S.merge L n p
        pure (some U)

def flatLoop : ℕ → FlatState C F m → Except Fault (FlatState C F m)
  | 0, S => pure S
  | fuel + 1, S => do
    match ← flatStep L threshold n S with
    | none => pure S
    | some U => flatLoop fuel U

/-- The values in front of the loop: how an embedding is normalised, the entries of the product with the
transpose, and the distance that is made from one. -/
structure Preparation (E C F : Type) where
  normalize : E → C
  dot : C → C → F
  ofDot : F → F
  fill : F
  zero : F

variable (A : Preparation E C F)

/-- One entry of the product, and the two cells it goes into. -/
def startCell (gData v : List F) (p : Ascending m) : Except Fault (List F) := do
  let dot ← readCell n gData p.1.2 p.1.1
  writeBoth n v p.1.1 p.1.2 (A.ofDot dot)

def flatClusters (normed : Fin m → C) : Except Fault (List ℤ) := do
  let _ ← allocate n true
  let size ← checked (mulInt n n)
  let distMatrix ← allocate size A.fill
  let gSize ← checked (mulInt n n)
  let gData ← allocate gSize A.zero
  let gData ← copyInto gData (flatten (fun y x => A.dot (normed x) (normed y)))
  let distMatrix ← (ascendingPairs (fun _ : Fin m => true)).foldlM (startCell n A gData) distMatrix
  let S ← flatLoop L threshold n m ⟨fun _ => true, normed, fun _ => 1, .discrete m, distMatrix, m⟩
  pure (List.ofFn (buildLabels S.parent))

def flatAhc {count : ℕ} (embeddings : Fin count → E) : Except Fault (List ℤ) :=
  let n := toInt count
  if n = 0 then pure []
  else if n = 1 then pure [0]
  else flatClusters L threshold n A
    (fun i : Fin n.toNat => A.normalize (embeddings (Fin.castLE (toInt_toNat_le count) i)))

section Cells

def setCell (D : Fin m → Fin m → F) (i k : Fin m) (d : F) : Fin m → Fin m → F :=
  fun a b => if a = i ∧ b = k then d else D a b

theorem setBoth_eq (D : Fin m → Fin m → F) (i k : Fin m) (d : F) :
    setBoth D i k d = setCell (setCell D i k d) k i d := by
  funext a b
  unfold setBoth setCell
  by_cases hki : a = k ∧ b = i
  · rw [if_pos (.inr hki), if_pos hki]
  · rw [if_neg hki]
    by_cases hik : a = i ∧ b = k
    · rw [if_pos (.inl hik), if_pos hik]
    · rw [if_neg (by tauto), if_neg hik]

variable (hsize : InRange ((m : ℤ) * m))

include hsize

theorem cell_eq (a b : Fin m) : cell m (a : ℕ) (b : ℕ) = .ok ((finProdFinEquiv (a, b) : Fin (m * m)) : ℕ) := by
  have hb := b.isLt
  have hrow : (a : ℕ) * m ≤ (m - 1) * m := Nat.mul_le_mul_right m (by omega)
  have hpred : m - 1 + 1 = m := by omega
  have hlast : (m - 1) * m + m = m * m := by rw [← Nat.succ_mul, Nat.succ_eq_add_one, hpred]
  have hfit : (m : ℤ) * m = ((m * m : ℕ) : ℤ) := by push_cast; rfl
  have hvalue : ((finProdFinEquiv (a, b) : Fin (m * m)) : ℕ) = a * m + b := by
    rw [finProdFinEquiv_apply_val, Nat.mul_comm m, Nat.add_comm]
  have hmul : (a : ℕ) * (m : ℤ) = ((a * m : ℕ) : ℤ) := by push_cast; rfl
  rw [hfit] at hsize
  unfold InRange at hsize
  unfold cell mulInt addInt
  rw [hmul, checked_fit (by unfold InRange; omega), ok_bind, checked_fit (by unfold InRange; omega), hvalue,
    Nat.cast_add]

theorem readCell_flatten (D : Fin m → Fin m → F) (a b : Fin m) :
    readCell m (flatten D) (a : ℕ) (b : ℕ) = .ok (D a b) := by
  unfold readCell
  rw [cell_eq hsize]
  refine (readAt_ofFn _ _).trans ?_
  have hpair : ((finProdFinEquiv (a, b)).divNat, (finProdFinEquiv (a, b)).modNat) = (a, b) :=
    finProdFinEquiv.symm_apply_apply (a, b)
  obtain ⟨hdiv, hmod⟩ := Prod.mk.inj hpair
  rw [hdiv, hmod]

theorem writeCell_flatten (D : Fin m → Fin m → F) (a b : Fin m) (x : F) :
    writeCell m (flatten D) (a : ℕ) (b : ℕ) x = .ok (flatten (setCell D a b x)) := by
  unfold writeCell
  rw [cell_eq hsize]
  refine (writeAt_ofFn _ _ _).trans (congrArg (fun f => Except.ok (List.ofFn f)) ?_)
  funext p
  have hsplit : p = finProdFinEquiv (a, b) ↔ p.divNat = a ∧ p.modNat = b := by
    rw [← Equiv.symm_apply_eq]
    exact Prod.mk_inj
  unfold setCell Function.update
  by_cases h : p = finProdFinEquiv (a, b)
  · subst h
    rw [dif_pos rfl, if_pos (hsplit.1 rfl)]
  · rw [dif_neg h, if_neg (fun hp => h (hsplit.2 hp))]

theorem writeBoth_flatten (D : Fin m → Fin m → F) (i k : Fin m) (d : F) :
    writeBoth m (flatten D) i k d = .ok (flatten (setBoth D i k d)) := by
  unfold writeBoth
  rw [writeCell_flatten hsize, ok_bind, writeCell_flatten hsize, setBoth_eq]

end Cells

def FlatState.ofAhc (S : AhcState C F m) : FlatState C F m :=
  ⟨S.active, S.centroids, S.clusterSize, S.parent, flatten S.distMatrix, S.numActive⟩

section Simulation

variable (D : Fin m → Fin m → F)

def bestDist : Option (Ascending m) → F
  | none => L.sentinel
  | some p => D p.1.1 p.1.2

def nearer (best : Option (Ascending m)) (p : Ascending m) : Option (Ascending m) :=
  if L.lt (D p.1.1 p.1.2) (bestDist L D best) then some p else best

theorem foldl_nearer (S : AhcState C F m) :
    ((ascendingPairs S.active).foldl (nearer L S.distMatrix) none).map Subtype.val = nearestPair L S := by
  have hpairs : scanOrder S.active = (ascendingPairs S.active).map Subtype.val :=
    (List.attachWith_map_subtype_val (scanOrder_le S.active)).symm
  unfold nearestPair
  rw [hpairs, List.foldl_map]
  refine (List.foldl_hom (Option.map Subtype.val) (fun best p => ?_)).symm
  unfold nearer
  rw [apply_ite (Option.map Subtype.val)]
  cases best with
  | none => rfl
  | some b => rfl

variable {L threshold}

theorem floatMergeStep_none {S : AhcState C F m} (h : nearestPair L S = none) : floatMergeStep L threshold S = none := by
  unfold floatMergeStep
  split_ifs
  · rfl
  · split
    · rfl
    · next q hq =>
        rw [h] at hq
        cases hq

theorem floatMergeStep_found {S : AhcState C F m} {p : Fin m × Fin m} (hn : ¬S.numActive ≤ 1) (hp : p.1 ≤ p.2)
    (h : nearestPair L S = some p) : floatMergeStep L threshold S =
      if L.lt threshold (S.distMatrix p.1 p.2) then none
      else some (⟨S.distMatrix p.1 p.2, p.1, p.2⟩, S.merge L.toLinkage p.1 p.2 hp) := by
  unfold floatMergeStep
  rw [if_neg hn]
  split
  · next hq =>
      rw [h] at hq
      cases hq
  · next q hq =>
      rw [h] at hq
      cases hq
      rfl

variable (L threshold)

variable (hsize : InRange ((m : ℤ) * m))
include hsize

theorem scan_flatten (l : List (Ascending m)) (best : Option (Ascending m)) :
    l.foldlM (scanCell L m (flatten D)) (bestDist L D best, best) =
      .ok (bestDist L D (l.foldl (nearer L D) best), l.foldl (nearer L D) best) := by
  refine foldlM_simulates (fun best => (bestDist L D best, best)) l (fun best p _ => ?_) best
  unfold scanCell nearer
  simp only [readCell_flatten hsize, ok_bind]
  split_ifs <;> rfl

theorem refresh_flatten (centroids : Fin m → C) (active : Fin m → Bool) (i : Fin m) :
    (List.finRange m).foldlM (refreshCell L m centroids active i) (flatten D) =
      .ok (flatten (refresh L.toLinkage centroids active i D)) := by
  refine foldlM_simulates flatten _ (fun D k _ => ?_) D
  unfold refreshCell
  split_ifs
  · rfl
  · exact writeBoth_flatten hsize D i k _

theorem merge_flatten (S : AhcState C F m) (p : Ascending m) :
    (FlatState.ofAhc S).merge L m p = .ok (.ofAhc (S.merge L.toLinkage p.1.1 p.1.2 p.2)) := by
  unfold FlatState.merge FlatState.ofAhc
  simp only [refresh_flatten L _ hsize, ok_bind]
  rfl

theorem flatStep_ofAhc (S : AhcState C F m) :
    flatStep L threshold m (.ofAhc S) = .ok ((floatMergeStep L threshold S).map (fun x => .ofAhc x.2)) := by
  by_cases hn : S.numActive ≤ 1
  · have hflat : flatStep L threshold m (.ofAhc S) = .ok none := if_pos hn
    have hmerge : floatMergeStep L threshold S = none := if_pos hn
    rw [hflat, hmerge]
    rfl
  · have hflat : flatStep L threshold m (.ofAhc S) = _ := if_neg hn
    have hscan := scan_flatten L S.distMatrix hsize (ascendingPairs S.active) none
    have hnearest := foldl_nearer L S
    rw [hflat]
    change ((ascendingPairs S.active).foldlM (scanCell L m (flatten S.distMatrix))
      (bestDist L S.distMatrix none, none) >>= _) = _
    rw [hscan, ok_bind]
    cases hfound : (ascendingPairs S.active).foldl (nearer L S.distMatrix) none with
    | none =>
      rw [hfound] at hnearest
      rw [floatMergeStep_none hnearest.symm]
      rfl
    | some p =>
      rw [hfound] at hnearest
      rw [floatMergeStep_found hn p.2 hnearest.symm]
      change (if L.lt threshold (S.distMatrix p.1.1 p.1.2) then _ else (FlatState.ofAhc S).merge L m p >>= _) = _
      split_ifs
      · rfl
      · rw [merge_flatten L hsize, ok_bind]
        rfl

/-- As many turns as there are clusters are enough. -/
theorem flatLoop_ofAhc {fuel : ℕ} {S : AhcState C F m} (hfuel : S.numActive ≤ fuel) :
    flatLoop L threshold m fuel (.ofAhc S) = .ok (.ofAhc ((floatMergeLoop L threshold).run S).2) := by
  induction fuel generalizing S with
  | zero =>
    have hstop : floatMergeStep L threshold S = none := if_pos (by omega)
    rw [(floatMergeLoop L threshold).run_none hstop]
    rfl
  | succ fuel ih =>
    have hstep := flatStep_ofAhc L threshold hsize S
    unfold flatLoop
    cases hturn : floatMergeStep L threshold S with
    | none =>
      rw [hturn] at hstep
      rw [hstep, (floatMergeLoop L threshold).run_none hturn]
      rfl
    | some x =>
      have hlower := (floatMergeLoop L threshold).lower S x.1 x.2 hturn
      change x.2.numActive < S.numActive at hlower
      rw [hturn] at hstep
      rw [hstep, (floatMergeLoop L threshold).run_some hturn]
      exact ih (by omega)

end Simulation

section Start

def startMatrix (normed : Fin m → C) : Fin m → Fin m → F := fun i j =>
  if i = j then A.fill else A.ofDot (A.dot (normed (min i j)) (normed (max i j)))

theorem foldl_setBoth (d : Fin m → Fin m → F) (l : List (Ascending m)) (D : Fin m → Fin m → F) (a b : Fin m) :
    l.foldl (fun D p => setBoth D p.1.1 p.1.2 (d p.1.1 p.1.2)) D a b =
      if ∃ p ∈ l, p.1 = (min a b, max a b) then d (min a b) (max a b) else D a b := by
  induction l generalizing D with
  | nil => simp
  | cons p l ih =>
    have hp := p.2
    have hhere : (a = p.1.1 ∧ b = p.1.2) ∨ (a = p.1.2 ∧ b = p.1.1) ↔ p.1 = (min a b, max a b) := by
      rw [Prod.ext_iff]
      rcases le_total a b with h | h
      · rw [min_eq_left h, max_eq_right h]
        constructor
        · rintro (⟨rfl, rfl⟩ | ⟨rfl, rfl⟩)
          · exact ⟨rfl, rfl⟩
          · exact ⟨le_antisymm hp h, le_antisymm h hp⟩
        · rintro ⟨h₁, h₂⟩
          exact .inl ⟨h₁.symm, h₂.symm⟩
      · rw [min_eq_right h, max_eq_left h]
        constructor
        · rintro (⟨rfl, rfl⟩ | ⟨rfl, rfl⟩)
          · exact ⟨le_antisymm hp h, le_antisymm h hp⟩
          · exact ⟨rfl, rfl⟩
        · rintro ⟨h₁, h₂⟩
          exact .inr ⟨h₂.symm, h₁.symm⟩
    rw [List.foldl_cons, ih]
    unfold setBoth
    by_cases hlater : ∃ q ∈ l, q.1 = (min a b, max a b)
    · obtain ⟨q, hq, hqe⟩ := hlater
      rw [if_pos ⟨q, hq, hqe⟩, if_pos ⟨q, List.mem_cons_of_mem _ hq, hqe⟩]
    · rw [if_neg hlater]
      by_cases hnow : p.1 = (min a b, max a b)
      · rw [if_pos (hhere.2 hnow), if_pos ⟨p, List.mem_cons_self, hnow⟩, hnow]
      · rw [if_neg (fun h => hnow (hhere.1 h)), if_neg]
        rintro ⟨q, hq, hqe⟩
        rcases List.mem_cons.1 hq with rfl | hq
        · exact hnow hqe
        · exact hlater ⟨q, hq, hqe⟩

theorem exists_ascendingPair (a b : Fin m) :
    (∃ p ∈ ascendingPairs (fun _ => true), p.1 = (min a b, max a b)) ↔ a ≠ b := by
  unfold ascendingPairs
  simp only [List.mem_attachWith, Subtype.exists, exists_and_left, exists_prop]
  constructor
  · rintro ⟨p, hp, -, rfl⟩ rfl
    exact absurd (mem_scanOrder.1 hp).1 (by simp)
  · intro h
    have hlt : min a b < max a b := min_lt_max.2 h
    exact ⟨(min a b, max a b), mem_scanOrder.2 ⟨hlt, rfl, rfl⟩, hlt.le, rfl⟩

theorem start_flatten (hsize : InRange ((m : ℤ) * m)) (normed : Fin m → C) :
    (ascendingPairs (fun _ : Fin m => true)).foldlM
        (startCell m A (flatten (fun y x => A.dot (normed x) (normed y)))) (flatten (fun _ _ : Fin m => A.fill)) =
      .ok (flatten (startMatrix A normed)) := by
  have hfold : startMatrix A normed = (ascendingPairs (fun _ : Fin m => true)).foldl
      (fun D p => setBoth D p.1.1 p.1.2 (A.ofDot (A.dot (normed p.1.1) (normed p.1.2)))) (fun _ _ => A.fill) := by
    funext a b
    rw [foldl_setBoth (fun i j => A.ofDot (A.dot (normed i) (normed j)))]
    simp only [exists_ascendingPair, startMatrix]
    exact (ite_not _ _ _).symm
  rw [hfold]
  have hstep (D : Fin m → Fin m → F) : ∀ p ∈ ascendingPairs (fun _ : Fin m => true),
      startCell m A (flatten (fun y x => A.dot (normed x) (normed y))) (flatten D) p =
        .ok (flatten (setBoth D p.1.1 p.1.2 (A.ofDot (A.dot (normed p.1.1) (normed p.1.2))))) := by
    intro p _
    unfold startCell
    rw [readCell_flatten hsize, ok_bind]
    exact writeBoth_flatten hsize D _ _ _
  exact foldlM_simulates flatten _ hstep _

theorem flatClusters_eq {n : ℤ} (hn : n = m) (hsize : InRange ((m : ℤ) * m)) (normed : Fin m → C) :
    flatClusters L threshold n A normed = .ok (List.ofFn (buildLabels
      ((floatMergeLoop L threshold).run (.initial normed (startMatrix A normed))).2.parent)) := by
  subst hn
  have hcells : (m : ℤ) * m = ((m * m : ℕ) : ℤ) := by push_cast; rfl
  have hloop : flatLoop L threshold m m (.ofAhc (.initial normed (startMatrix A normed))) = _ :=
    flatLoop_ofAhc L threshold hsize le_rfl
  have hfill (x : F) : allocate ((m * m : ℕ) : ℤ) x = .ok (flatten (fun _ _ : Fin m => x)) := allocate_natCast x
  have hcopy (D G : Fin m → Fin m → F) : copyInto (flatten D) (flatten G) = .ok (flatten G) := copyInto_ofFn _ _
  unfold flatClusters mulInt
  rw [allocate_natCast, ok_bind, checked_fit hsize, ok_bind, hcells, hfill, ok_bind, ok_bind, hfill, ok_bind,
    hcopy, ok_bind, start_flatten A hsize, ok_bind]
  change flatLoop L threshold m m (.ofAhc (.initial normed (startMatrix A normed))) >>= _ = _
  rw [hloop, ok_bind]
  rfl

end Start

section Sizes

theorem square_inRange_iff (m : ℕ) : InRange ((m : ℤ) * m) ↔ m ≤ 46340 := by
  unfold InRange
  constructor
  · rintro ⟨-, h⟩
    by_contra hlarge
    nlinarith
  · intro h
    have hm : (m : ℤ) ≤ 46340 := by exact_mod_cast h
    constructor <;> nlinarith

theorem flatClusters_overflow {m : ℕ} {n : ℤ} (hn : n = m) (h : 46340 < m) (normed : Fin m → C) :
    flatClusters L threshold n A normed = .error .overflow := by
  subst hn
  have hlarge : ¬InRange ((m : ℤ) * m) := fun hfit => absurd ((square_inRange_iff m).1 hfit) (by omega)
  have hproduct : checked (mulInt m m) = .error .overflow := by
    unfold mulInt fit
    rw [if_neg hlarge]
    rfl
  unfold flatClusters
  rw [allocate_natCast, ok_bind, hproduct]
  rfl

theorem flatClusters_negative {n : ℤ} (h : n < 0) (normed : Fin m → C) :
    flatClusters L threshold n A normed = .error .lengthError := by
  have hactive : allocate n true = .error .lengthError := if_pos h
  unfold flatClusters
  rw [hactive]
  rfl

/-- No size and no index overflows or leaves its vector, exactly up to 46340 clusters. -/
theorem flatAhc_indices_iff {count : ℕ} (embeddings : Fin count → E) :
    flatAhc L threshold A embeddings ≠ .error .overflow ∧ flatAhc L threshold A embeddings ≠ .error .outOfBounds ↔
      toInt count ≤ 46340 := by
  unfold flatAhc
  by_cases h0 : toInt count = 0
  · rw [if_pos h0, h0]
    exact iff_of_true ⟨nofun, nofun⟩ (by norm_num)
  · rw [if_neg h0]
    by_cases h1 : toInt count = 1
    · rw [if_pos h1, h1]
      exact iff_of_true ⟨nofun, nofun⟩ (by norm_num)
    · rw [if_neg h1]
      rcases lt_or_ge (toInt count) 0 with hneg | hpos
      · rw [flatClusters_negative L threshold A hneg]
        exact iff_of_true ⟨nofun, nofun⟩ (by omega)
      · have hn : toInt count = (toInt count).toNat := (Int.toNat_of_nonneg hpos).symm
        rcases le_or_gt (toInt count).toNat 46340 with hsmall | hlarge
        · rw [flatClusters_eq L threshold A hn ((square_inRange_iff _).2 hsmall)]
          exact iff_of_true ⟨nofun, nofun⟩ (by omega)
        · rw [flatClusters_overflow L threshold A hn hlarge]
          exact iff_of_false (fun h => h.1 rfl) (by omega)

end Sizes

noncomputable section Special

variable {dim count : ℕ}

open ExactFloat

def gramEntry (a b : Fin dim → ExactFloat ℝ) : ExactFloat ℝ := sumLoop (fun k => a k * b k)

def clampedDistance (dot : ExactFloat ℝ) : ExactFloat ℝ :=
  let dot := if (finite 1).lt dot then finite 1 else dot
  let dsq := finite 2.0 * (finite 1 - dot)
  (if dsq.lt (finite 0) then finite 0 else dsq).sqrt

def unitPreparation : Preparation (Fin dim → ExactFloat ℝ) (Fin dim → ExactFloat ℝ) (ExactFloat ℝ) where
  normalize := normalizedFloat
  dot := gramEntry
  ofDot := clampedDistance
  fill := finite 1e20
  zero := finite 0

theorem gramEntry_comm (a b : Fin dim → ExactFloat ℝ) : gramEntry a b = gramEntry b a := by
  unfold gramEntry
  exact congrArg sumLoop (funext (fun k => product_comm _ _))

theorem startMatrix_unitPreparation (normed : Fin count → Fin dim → ExactFloat ℝ) :
    startMatrix unitPreparation normed =
      fun i j => if i = j then finite 1e20 else initialDistanceFloat (normed i) (normed j) := by
  funext i j
  refine ite_congr rfl (fun _ => rfl) (fun _ => ?_)
  change clampedDistance (gramEntry _ _) = clampedDistance (gramEntry (normed i) (normed j))
  rcases le_total i j with h | h
  · rw [min_eq_left h, max_eq_right h]
  · rw [min_eq_right h, max_eq_left h, gramEntry_comm]

/-- On as many embeddings as its indices allow, the flat program gives the labels of the clustering. -/
theorem flatAhc_labels (h : count ≤ 46340) (embeddings : Fin count → Fin dim → ExactFloat ℝ)
    (threshold : ExactFloat ℝ) : flatAhc euclideanFloat threshold unitPreparation embeddings =
      .ok (List.ofFn (simpleAhcFloat embeddings threshold)) := by
  have hn : toInt count = count := toInt_of_inRange (by unfold InRange; omega)
  have hclusters : ∀ (m : ℕ) (hm : m = count),
      flatClusters euclideanFloat threshold (toInt count) unitPreparation
          (fun i : Fin m => normalizedFloat (embeddings (Fin.castLE hm.le i))) =
        .ok (List.ofFn (buildLabels ((floatMergeLoop euclideanFloat threshold).run
          (.initial (fun i => normalizedFloat (embeddings i)) (fun i j =>
            if i = j then finite 1e20
            else initialDistanceFloat (normalizedFloat (embeddings i)) (normalizedFloat (embeddings j))))).2.parent)) := by
    rintro m rfl
    rw [flatClusters_eq _ _ _ hn ((square_inRange_iff m).2 h), startMatrix_unitPreparation]
    rfl
  unfold flatAhc simpleAhcFloat
  by_cases h0 : count = 0
  · subst h0
    rfl
  · by_cases h1 : count = 1
    · subst h1
      rfl
    · rw [if_neg h0, if_neg h1, if_neg (by omega), if_neg (by omega)]
      exact hclusters (toInt count).toNat (by omega)

/-- For 46341 embeddings the size of the matrix is not a number of type `int`. -/
theorem flatAhc_46341_overflows :
    flatAhc euclideanFloat (finite 0.6) unitPreparation (fun (_ : Fin 46341) (_ : Fin 256) => finite 0) =
      .error .overflow := by
  have hn : toInt (46341 : ℕ) = (46341 : ℕ) := toInt_of_inRange (by unfold InRange; omega)
  unfold flatAhc
  rw [if_neg (by omega), if_neg (by omega)]
  exact flatClusters_overflow _ _ _ (Int.toNat_of_nonneg (by omega)).symm (by omega) _

end Special

end PyannoteCpp.SimpleAhc
