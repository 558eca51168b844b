import Mathlib.Data.Fintype.Basic
import PyannoteCpp.ExactFloat
import PyannoteCpp.GreedyMatching
import PyannoteCpp.ReachableStates
import PyannoteCpp.SortContract

set_option autoImplicit false

/-!
# The online speaker clustering of the streaming program

Vectors of embeddings are functions on `Fin dim` and a speaker index of `-1`
is `none`. The sorted pair list is an argument of `identify`: `std::sort` is
unstable, so a step of the object may use any list its contract allows. The
distance is an argument too, since it is `cosine_distance` in the arithmetic
that a statement is about.
-/
namespace PyannoteCpp.StreamingClustering
open ReachableStates SortContract GreedyMatching

abbrev Embedding (K : Type*) (dim : ℕ) := Fin dim → ExactFloat K

variable {K : Type*} [Field K] [LinearOrder K] {maxSpeakers dim numLocal : ℕ}

/-- Despite the name, one minus the inner product. -/
def cosineDistance (a b : Embedding K dim) : ExactFloat K :=
  1 - (List.finRange dim).foldl (fun dot i => dot + a i * b i) 0

/-- `cosine_distance` where a product of magnitude `limit` or more is rounded to an infinity. -/
def floatDistance (limit : K) (a b : Embedding K dim) : ExactFloat K :=
  1 - (List.finRange dim).foldl (fun dot i => dot + (a i).floatMul limit (b i)) 0

def hasNan (e : Embedding K dim) : Bool :=
  (List.finRange dim).any (fun d => (e d).isnan || (e d).isinf)

structure Call (K : Type*) (dim : ℕ) where
  numFrames : ℕ
  numLocal : ℕ
  segmentation : Fin numFrames → Fin numLocal → ExactFloat K
  embeddings : Fin numLocal → Embedding K dim

def Call.maxVal (call : Call K dim) (s : Fin call.numLocal) : ExactFloat K :=
  (List.finRange call.numFrames).foldl (fun m t => m.max (call.segmentation t s)) 0

def Call.meanVal (call : Call K dim) (s : Fin call.numLocal) : ExactFloat K :=
  (List.finRange call.numFrames).foldl (fun m t => m + call.segmentation t s) 0 /
    .finite ((max 1 call.numFrames : ℕ) : K)

structure OnlineSpeakerClustering (K : Type*) (maxSpeakers dim : ℕ) where
  tauActive : ExactFloat K
  rhoUpdate : ExactFloat K
  deltaNew : ExactFloat K
  /-- `none` is the empty vector before `init_centers`. -/
  centers : Option (Fin maxSpeakers → Embedding K dim)
  activeCenters : Fin maxSpeakers → Bool

def OnlineSpeakerClustering.fresh (tau rho delta : ExactFloat K) :
    OnlineSpeakerClustering K maxSpeakers dim := ⟨tau, rho, delta, none, fun _ => false⟩

def getNextCenter (activeCenters : Fin maxSpeakers → Bool) : Option (Fin maxSpeakers) :=
  (List.finRange maxSpeakers).find? (fun i => !activeCenters i)

/-- What one call mutates: the centre table and the mapping under construction. -/
structure Table (K : Type*) (numLocal maxSpeakers dim : ℕ) where
  centers : Fin maxSpeakers → Embedding K dim
  activeCenters : Fin maxSpeakers → Bool
  mapping : Fin numLocal → Option (Fin maxSpeakers)

def Table.create (T : Table K numLocal maxSpeakers dim) (s : Fin numLocal) (c : Fin maxSpeakers)
    (e : Embedding K dim) : Table K numLocal maxSpeakers dim where
  centers := Function.update T.centers c e
  activeCenters := Function.update T.activeCenters c true
  mapping := Function.update T.mapping s (some c)

def Table.assign (T : Table K numLocal maxSpeakers dim) (s : Fin numLocal) (c : Fin maxSpeakers) :
    Table K numLocal maxSpeakers dim :=
  { T with mapping := Function.update T.mapping s (some c) }

/-- The loop of the first call; it ends early when no slot is left. -/
def initialAssignment (embeddings : Fin numLocal → Embedding K dim) :
    List (Fin numLocal) → Table K numLocal maxSpeakers dim → Table K numLocal maxSpeakers dim
  | [], T => T
  | s :: rest, T =>
    if hasNan (embeddings s) then initialAssignment embeddings rest T
    else match getNextCenter T.activeCenters with
      | none => T
      | some c => initialAssignment embeddings rest (T.create s c (embeddings s))

structure Pair (K : Type*) (numLocal maxSpeakers : ℕ) where
  s : Fin numLocal
  c : Fin maxSpeakers
  dist : ExactFloat K

variable (distance : Embedding K dim → Embedding K dim → ExactFloat K)

def candidatePairs (embeddings : Fin numLocal → Embedding K dim)
    (centers : Fin maxSpeakers → Embedding K dim) (activeCenters : Fin maxSpeakers → Bool)
    (activeSpeakers : List (Fin numLocal)) : List (Pair K numLocal maxSpeakers) :=
  activeSpeakers.flatMap fun s =>
    if hasNan (embeddings s) then []
    else ((List.finRange maxSpeakers).filter (fun c => activeCenters c)).map
      fun c => ⟨s, c, distance (embeddings s) (centers c)⟩

def distLt (a b : Pair K numLocal maxSpeakers) : Bool := a.dist.lt b.dist

/-- The matching loop over the sorted pairs, with `used_s` and `used_c`. -/
def matchPairs (deltaNew : ExactFloat K) (sorted : List (Pair K numLocal maxSpeakers)) :
    Matching (Fin numLocal) (Fin maxSpeakers) :=
  greedy Pair.s Pair.c (fun p => deltaNew.lt p.dist) sorted unmatched

/-- `best_dist` and `best_center`, updated by a strictly closer active centre. -/
def nearestStep (e : Embedding K dim) (centers : Fin maxSpeakers → Embedding K dim)
    (activeCenters : Fin maxSpeakers → Bool) (best : ExactFloat K × Option (Fin maxSpeakers))
    (c : Fin maxSpeakers) : ExactFloat K × Option (Fin maxSpeakers) :=
  if !activeCenters c then best
  else if (distance e (centers c)).lt best.1 then (distance e (centers c), some c)
  else best

def nearestCenter (e : Embedding K dim) (centers : Fin maxSpeakers → Embedding K dim)
    (activeCenters : Fin maxSpeakers → Bool) : Option (Fin maxSpeakers) :=
  ((List.finRange maxSpeakers).foldl (nearestStep distance e centers activeCenters) (.inf false, none)).2

/-- One round of the loop over the active speakers the matching left over. -/
def assignOne (embeddings : Fin numLocal → Embedding K dim) (longSpeakers : List (Fin numLocal))
    (T : Table K numLocal maxSpeakers dim) (s : Fin numLocal) : Table K numLocal maxSpeakers dim :=
  if (T.mapping s).isSome then T
  else if hasNan (embeddings s) then T
  else match (if s ∈ longSpeakers then getNextCenter T.activeCenters else none) with
    | some c => T.create s c (embeddings s)
    | none =>
      match nearestCenter distance (embeddings s) T.centers T.activeCenters with
      | some c => T.assign s c
      | none => T

def assignRemaining (embeddings : Fin numLocal → Embedding K dim) (longSpeakers : List (Fin numLocal))
    (speakers : List (Fin numLocal)) (T : Table K numLocal maxSpeakers dim) :
    Table K numLocal maxSpeakers dim :=
  speakers.foldl (assignOne distance embeddings longSpeakers) T

def updateOne (embeddings : Fin numLocal → Embedding K dim) (longSpeakers : List (Fin numLocal))
    (T : Table K numLocal maxSpeakers dim) (s : Fin numLocal) : Table K numLocal maxSpeakers dim :=
  match T.mapping s with
  | none => T
  | some c =>
    if s ∈ longSpeakers then
      { T with centers := Function.update T.centers c (fun d => T.centers c d + embeddings s d) }
    else T

def updateCenters (embeddings : Fin numLocal → Embedding K dim) (longSpeakers : List (Fin numLocal))
    (speakers : List (Fin numLocal)) (T : Table K numLocal maxSpeakers dim) :
    Table K numLocal maxSpeakers dim :=
  speakers.foldl (updateOne embeddings longSpeakers) T

namespace OnlineSpeakerClustering

variable (σ : OnlineSpeakerClustering K maxSpeakers dim)
  (distance : Embedding K dim → Embedding K dim → ExactFloat K) (call : Call K dim)

def activeSpeakers : List (Fin call.numLocal) :=
  (List.finRange call.numLocal).filter (fun s => σ.tauActive.le (call.maxVal s))

def longSpeakers : List (Fin call.numLocal) :=
  (List.finRange call.numLocal).filter (fun s => σ.rhoUpdate.le (call.meanVal s))

def pairs : List (Pair K call.numLocal maxSpeakers) :=
  match σ.centers with
  | none => []
  | some centers =>
    candidatePairs distance call.embeddings centers σ.activeCenters (σ.activeSpeakers call)

def matchedTable (centers : Fin maxSpeakers → Embedding K dim)
    (sorted : List (Pair K call.numLocal maxSpeakers)) : Table K call.numLocal maxSpeakers dim :=
  ⟨centers, σ.activeCenters, (matchPairs σ.deltaNew sorted).partner⟩

/-- The table a call ends with. With `maxSpeakers = 0` the vector stays empty
    for ever, and both branches then leave every speaker unmapped. -/
def finalTable (sorted : List (Pair K call.numLocal maxSpeakers)) :
    Table K call.numLocal maxSpeakers dim :=
  match σ.centers with
  | none =>
    initialAssignment call.embeddings (σ.activeSpeakers call)
      ⟨fun _ _ => 0, fun _ => false, fun _ => none⟩
  | some centers =>
    updateCenters call.embeddings (σ.longSpeakers call) (σ.activeSpeakers call)
      (assignRemaining distance call.embeddings (σ.longSpeakers call) (σ.activeSpeakers call)
        (σ.matchedTable call centers sorted))

def identify (sorted : List (Pair K call.numLocal maxSpeakers)) :
    (Fin call.numLocal → Option (Fin maxSpeakers)) × OnlineSpeakerClustering K maxSpeakers dim :=
  let T := σ.finalTable distance call sorted
  (T.mapping, { σ with centers := some T.centers, activeCenters := T.activeCenters })

/-- Even a comparator that is no strict weak order is taken to move the elements around only. -/
def Sorts (sorted : List (Pair K call.numLocal maxSpeakers)) : Prop :=
  sorted.Perm (σ.pairs distance call) ∧ SortResult distLt (σ.pairs distance call) sorted

end OnlineSpeakerClustering

def Start (σ : OnlineSpeakerClustering K maxSpeakers dim) : Prop :=
  ∃ tau rho delta, σ = .fresh tau rho delta

def Step (σ : OnlineSpeakerClustering K maxSpeakers dim) (call : Call K dim)
    (υ : OnlineSpeakerClustering K maxSpeakers dim) : Prop :=
  ∃ sorted, σ.Sorts distance call sorted ∧ υ = (σ.identify distance call sorted).2

section Tables

omit [Field K] [LinearOrder K]
variable (T : Table K numLocal maxSpeakers dim) (s : Fin numLocal) (c : Fin maxSpeakers)
  (e : Embedding K dim)

@[simp] theorem create_centers : (T.create s c e).centers = Function.update T.centers c e := rfl
@[simp] theorem create_activeCenters :
    (T.create s c e).activeCenters = Function.update T.activeCenters c true := rfl
@[simp] theorem create_mapping :
    (T.create s c e).mapping = Function.update T.mapping s (some c) := rfl
@[simp] theorem assign_centers : (T.assign s c).centers = T.centers := rfl
@[simp] theorem assign_activeCenters : (T.assign s c).activeCenters = T.activeCenters := rfl
@[simp] theorem assign_mapping : (T.assign s c).mapping = Function.update T.mapping s (some c) := rfl

theorem getNextCenter_inactive {a : Fin maxSpeakers → Bool} (h : getNextCenter a = some c) :
    a c = false := by
  simpa using List.find?_some h

theorem hasNan_eq_false_iff : hasNan e = false ↔ ∀ d, (e d).IsFinite := by
  simp [hasNan, ExactFloat.isFinite_iff]

end Tables

omit [Field K] in
theorem assignOne_cases (embeddings : Fin numLocal → Embedding K dim)
    (longSpeakers : List (Fin numLocal)) (T : Table K numLocal maxSpeakers dim) (s : Fin numLocal) :
    assignOne distance embeddings longSpeakers T s = T ∨
    (T.mapping s = none ∧ hasNan (embeddings s) = false ∧ ∃ c, s ∈ longSpeakers ∧
      getNextCenter T.activeCenters = some c ∧
      assignOne distance embeddings longSpeakers T s = T.create s c (embeddings s)) ∨
    (T.mapping s = none ∧ hasNan (embeddings s) = false ∧ ∃ c,
      (s ∈ longSpeakers → getNextCenter T.activeCenters = none) ∧
      nearestCenter distance (embeddings s) T.centers T.activeCenters = some c ∧
      assignOne distance embeddings longSpeakers T s = T.assign s c) := by
  unfold assignOne
  by_cases hm : (T.mapping s).isSome
  · exact Or.inl (if_pos hm)
  by_cases hn : hasNan (embeddings s)
  · refine Or.inl ?_
    rw [if_neg hm, if_pos hn]
  rw [if_neg hm, if_neg hn]
  rw [Option.not_isSome_iff_eq_none] at hm
  rw [Bool.not_eq_true] at hn
  cases hslot : (if s ∈ longSpeakers then getNextCenter T.activeCenters else none) with
  | some c =>
    have hl : s ∈ longSpeakers := by
      by_contra hl
      simp [hl] at hslot
    rw [if_pos hl] at hslot
    exact Or.inr (Or.inl ⟨hm, hn, c, hl, hslot, rfl⟩)
  | none =>
    have hfull : s ∈ longSpeakers → getNextCenter T.activeCenters = none := by
      intro hl
      rwa [if_pos hl] at hslot
    cases hnear : nearestCenter distance (embeddings s) T.centers T.activeCenters with
    | some c => exact Or.inr (Or.inr ⟨hm, hn, c, hfull, rfl, rfl⟩)
    | none => exact Or.inl rfl

omit [LinearOrder K] in
theorem updateOne_frame (embeddings : Fin numLocal → Embedding K dim)
    (longSpeakers : List (Fin numLocal)) (T : Table K numLocal maxSpeakers dim) (s : Fin numLocal) :
    (updateOne embeddings longSpeakers T s).mapping = T.mapping ∧
      (updateOne embeddings longSpeakers T s).activeCenters = T.activeCenters := by
  unfold updateOne
  split
  · exact ⟨rfl, rfl⟩
  · split <;> exact ⟨rfl, rfl⟩

omit [LinearOrder K] in
theorem updateCenters_frame (embeddings : Fin numLocal → Embedding K dim)
    (longSpeakers speakers : List (Fin numLocal)) (T : Table K numLocal maxSpeakers dim) :
    (updateCenters embeddings longSpeakers speakers T).mapping = T.mapping ∧
      (updateCenters embeddings longSpeakers speakers T).activeCenters = T.activeCenters := by
  induction speakers generalizing T with
  | nil => exact ⟨rfl, rfl⟩
  | cons s rest ih =>
    obtain ⟨hm, ha⟩ := updateOne_frame embeddings longSpeakers T s
    obtain ⟨him, hia⟩ := ih (updateOne embeddings longSpeakers T s)
    exact ⟨him.trans hm, hia.trans ha⟩

end PyannoteCpp.StreamingClustering
