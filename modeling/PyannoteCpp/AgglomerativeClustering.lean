import Mathlib.Algebra.Order.BigOperators.Group.List
import Mathlib.Data.List.FinRange
import PyannoteCpp.DescendingLoop
import PyannoteCpp.ExactFloat
import PyannoteCpp.FirstMinimum

set_option autoImplicit false

/-!
# The average-linkage clustering of the offline program

Embeddings are `n` vectors of one dimension with exact entries; the threshold
may be any float. The size parameter of the source is never read and is left
out. Events record the merges in the order they are made.
-/
namespace PyannoteCpp.AgglomerativeClustering
open FirstMinimum

variable {K : Type*} [Field K] [LinearOrder K] {n dim : ℕ}

/-- Despite the name, one minus the inner product. -/
def cosineDistance (a b : Fin dim → K) : K :=
  1 - (List.finRange dim).foldl (fun dot i => dot + a i * b i) 0

structure Cluster (n : ℕ) where
  members : List (Fin n)
  deriving DecidableEq

/-- The running `sum` and `count` of the two loops over members. -/
def linkageSum (embeddings : Fin n → Fin dim → K) (c₁ c₂ : Cluster n) : K × ℕ :=
  c₁.members.foldl (fun acc i => c₂.members.foldl
    (fun acc j => (acc.1 + cosineDistance (embeddings i) (embeddings j), acc.2 + 1)) acc) (0, 0)

def averageLinkage (embeddings : Fin n → Fin dim → K) (c₁ c₂ : Cluster n) : K :=
  let acc := linkageSum embeddings c₁ c₂
  if acc.2 > 0 then acc.1 / acc.2 else 0

/-- The pairs of positions `i < j` in the order of the two scanning loops. -/
def scanOrder (m : ℕ) : List (Fin m × Fin m) :=
  (List.finRange m).flatMap (fun i => ((List.finRange m).filter (fun j => i < j)).map (fun j => (i, j)))

def pairLinkage (embeddings : Fin n → Fin dim → K) (clusters : List (Cluster n))
    (p : Fin clusters.length × Fin clusters.length) : K :=
  averageLinkage embeddings clusters[p.1] clusters[p.2]

/-- `best_i` and `best_j`; every finite value lies below the initial infinity. -/
def bestPair (embeddings : Fin n → Fin dim → K) (clusters : List (Cluster n)) :
    Option (Fin clusters.length × Fin clusters.length) :=
  scan (fun _ => true) (pairLinkage embeddings clusters) (scanOrder clusters.length)

/-- What one turn did: the value compared with the threshold and the two positions. -/
structure Merge (K : Type*) where
  dist : K
  i : ℕ
  j : ℕ

/-- Position `i` takes over what is at position `j`, which is erased. -/
def mergeAt {α : Type*} (join : α → α → α) (l : List α) (i j : ℕ) : List α :=
  match l[i]?, l[j]? with
  | some a, some b => (l.set i (join a b)).eraseIdx j
  | _, _ => l

def Cluster.insert (a b : Cluster n) : Cluster n := ⟨a.members ++ b.members⟩

/-- One turn of `while (true)`, `none` when it breaks. -/
def mergeStep (embeddings : Fin n → Fin dim → K) (threshold : ExactFloat K)
    (clusters : List (Cluster n)) : Option (Merge K × List (Cluster n)) :=
  match bestPair embeddings clusters with
  | none => none
  | some (i, j) =>
    let dist := pairLinkage embeddings clusters (i, j)
    if threshold.lt (.finite dist) then none
    else some (⟨dist, i, j⟩, mergeAt Cluster.insert clusters i j)

section Positions

variable {α β : Type*} (join : α → α → α)

theorem exists_mergeAt {l : List α} {i j : ℕ} (hij : i < j) (hj : j < l.length) :
    ∃ A a B b C, l = A ++ a :: (B ++ b :: C) ∧ A.length = i ∧ A.length + B.length + 1 = j ∧
      mergeAt join l i j = A ++ join a b :: (B ++ C) := by
  have hi : i < l.length := hij.trans hj
  refine ⟨l.take i, l[i], (l.drop (i + 1)).take (j - (i + 1)), l[j], l.drop (j + 1), ?_, ?_, ?_, ?_⟩
  · have tail : l.drop (i + 1) = (l.drop (i + 1)).take (j - (i + 1)) ++ l[j] :: l.drop (j + 1) := by
      conv_lhs => rw [← List.take_append_drop (j - (i + 1)) (l.drop (i + 1))]
      rw [List.drop_drop, show i + 1 + (j - (i + 1)) = j by omega, List.drop_eq_getElem_cons hj]
    rw [← tail, ← List.drop_eq_getElem_cons hi, List.take_append_drop]
  · rw [List.length_take]
    omega
  · simp only [List.length_take, List.length_drop]
    omega
  · unfold mergeAt
    rw [List.getElem?_eq_getElem hi, List.getElem?_eq_getElem hj]
    dsimp only
    rw [List.set_eq_take_append_cons_drop, if_pos hi, List.eraseIdx_append_of_length_le (by simp; omega)]
    have hk : j - (l.take i).length = (j - (i + 1)) + 1 := by
      rw [List.length_take]
      omega
    rw [hk, List.eraseIdx_cons_succ, List.eraseIdx_eq_take_drop_succ, List.drop_drop,
      show i + 1 + (j - (i + 1) + 1) = j + 1 by omega]

theorem length_mergeAt {l : List α} {i j : ℕ} (hij : i < j) (hj : j < l.length) :
    (mergeAt join l i j).length + 1 = l.length := by
  obtain ⟨A, a, B, b, C, rfl, -, -, h⟩ := exists_mergeAt join hij hj
  rw [h]
  simp only [List.length_append, List.length_cons]
  omega

theorem map_mergeAt (f : α → β) (join' : β → β → β) (hf : ∀ a b, f (join a b) = join' (f a) (f b))
    (l : List α) (i j : ℕ) : (mergeAt join l i j).map f = mergeAt join' (l.map f) i j := by
  unfold mergeAt
  rw [List.getElem?_map, List.getElem?_map]
  cases l[i]? with
  | none => rfl
  | some a =>
    cases l[j]? with
    | none => rfl
    | some b =>
      change ((l.set i (join a b)).eraseIdx j).map f = ((l.map f).set i (join' (f a) (f b))).eraseIdx j
      rw [← List.eraseIdx_map, List.map_set, hf]

end Positions

theorem mem_scanOrder {m : ℕ} (p : Fin m × Fin m) : p ∈ scanOrder m ↔ p.1 < p.2 := by
  simp only [scanOrder, List.mem_flatMap, List.mem_finRange, true_and, List.mem_map,
    List.mem_filter, decide_eq_true_eq]
  constructor
  · rintro ⟨i, j, h, rfl⟩
    exact h
  · intro h
    exact ⟨p.1, p.2, h, rfl⟩

variable {embeddings : Fin n → Fin dim → K} {threshold : ExactFloat K}

theorem bestPair_none {clusters : List (Cluster n)} (h : bestPair embeddings clusters = none) :
    clusters.length ≤ 1 := by
  by_contra hlen
  have hmem : ((⟨0, by omega⟩, ⟨1, by omega⟩) : Fin clusters.length × Fin clusters.length) ∈
      scanOrder clusters.length := (mem_scanOrder _).2 (by simp)
  rw [bestPair, scan_eq_none_iff (fun _ _ => rfl)] at h
  rw [h] at hmem
  cases hmem

theorem bestPair_some {clusters : List (Cluster n)} {p : Fin clusters.length × Fin clusters.length}
    (h : bestPair embeddings clusters = some p) : p.1 < p.2 ∧
      ∀ q : Fin clusters.length × Fin clusters.length, q.1 < q.2 →
        pairLinkage embeddings clusters p ≤ pairLinkage embeddings clusters q := by
  obtain ⟨hp, hall⟩ := scan_spec (fun _ _ => rfl) h
  exact ⟨(mem_scanOrder p).1 hp, fun q hq => hall q ((mem_scanOrder q).2 hq)⟩

/-- Everything one turn does: a closest pair under the threshold is merged. -/
theorem mergeStep_some {clusters next : List (Cluster n)} {e : Merge K}
    (h : mergeStep embeddings threshold clusters = some (e, next)) :
    ∃ i j : Fin clusters.length, i < j ∧ e = ⟨pairLinkage embeddings clusters (i, j), i, j⟩ ∧
      (∀ q : Fin clusters.length × Fin clusters.length, q.1 < q.2 →
        e.dist ≤ pairLinkage embeddings clusters q) ∧
      threshold.lt (.finite e.dist) = false ∧ next = mergeAt Cluster.insert clusters e.i e.j := by
  unfold mergeStep at h
  split at h
  · cases h
  · next i j hb =>
      dsimp only at h
      split at h
      · cases h
      · next hd =>
          obtain ⟨hij, hall⟩ := bestPair_some hb
          cases h
          exact ⟨i, j, hij, rfl, hall, by simpa using hd, rfl⟩

theorem mergeStep_none {clusters : List (Cluster n)}
    (h : mergeStep embeddings threshold clusters = none) : clusters.length ≤ 1 ∨
      ∀ q : Fin clusters.length × Fin clusters.length, q.1 < q.2 → ∃ d,
        threshold.lt (.finite d) = true ∧ d ≤ pairLinkage embeddings clusters q := by
  unfold mergeStep at h
  split at h
  · next hb => exact Or.inl (bestPair_none hb)
  · next i j hb =>
      dsimp only at h
      split at h
      · next hd => exact Or.inr (fun q hq => ⟨_, hd, (bestPair_some hb).2 q hq⟩)
      · cases h

def mergeLoop (embeddings : Fin n → Fin dim → K) (threshold : ExactFloat K) :
    DescendingLoop (List (Cluster n)) (Merge K) where
  step := mergeStep embeddings threshold
  measure := List.length
  lower := by
    intro s e u h
    obtain ⟨i, j, hij, rfl, -, -, rfl⟩ := mergeStep_some h
    have hl := length_mergeAt (α := Cluster n) Cluster.insert (l := s) (i := i) (j := j) hij j.isLt
    dsimp only
    omega

def initialClusters (n : ℕ) : List (Cluster n) := (List.finRange n).map (fun i => ⟨[i]⟩)

def finalClusters (embeddings : Fin n → Fin dim → K) (threshold : ExactFloat K) : List (Cluster n) :=
  ((mergeLoop embeddings threshold).run (initialClusters n)).2

def linkageValues (embeddings : Fin n → Fin dim → K) (threshold : ExactFloat K) : List K :=
  ((mergeLoop embeddings threshold).run (initialClusters n)).1.map Merge.dist

def writeLabels (clusters : List (Cluster n)) : Fin n → ℤ :=
  clusters.zipIdx.foldl (fun labels c => c.1.members.foldl
    (fun labels idx => Function.update labels idx (c.2 : ℤ)) labels) (fun _ => -1)

/-- The two early returns answer `{}` and `{0}`. -/
def agglomerativeClustering (embeddings : Fin n → Fin dim → K) (threshold : ExactFloat K) : Fin n → ℤ :=
  if n = 0 then fun _ => -1
  else if n = 1 then fun _ => 0
  else writeLabels (finalClusters embeddings threshold)

end PyannoteCpp.AgglomerativeClustering
