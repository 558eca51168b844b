import PyannoteCpp.RoundHalfAway
import PyannoteCpp.ScatterAdd
import PyannoteCpp.TimelineAssignment

set_option autoImplicit false

/-!
# The averaged activity on the frame grid

Every chunk prediction credits its frames to the grid, one credit for each local
speaker that has a global one. A grid cell is the mean of its credits, so two
local speakers of one chunk with the same global speaker are averaged too.
-/
namespace PyannoteCpp.TimelineAccumulation
open RoundHalfAway ScatterAdd TimelineAssignment

variable {K : Type*} [Field K] [LinearOrder K] [IsStrictOrderedRing K]

/-- Softmax over the seven powerset classes. -/
structure Posterior (K : Type*) [Field K] [LinearOrder K] where
  prob : Fin 7 → K
  nonneg : ∀ c, 0 ≤ prob c
  sum_one : ∑ c, prob c = 1

def powersetToMultilabel (p : Fin 7 → K) : Fin 3 → K
  | 0 => min (p 1 + p 4 + p 5) 1
  | 1 => min (p 2 + p 4 + p 6) 1
  | 2 => min (p 3 + p 5 + p 6) 1

def soloPosterior (s : Fin 3) (p : K) (low : 0 ≤ p) (high : p ≤ 1) : Posterior K where
  prob c := if c = 0 then 1 - p else if c = s.succ.castLE (by omega) then p else 0
  nonneg c := by
    split_ifs
    · linarith
    · exact low
    · exact le_rfl
  sum_one := by
    fin_cases s <;> simp [Fin.sum_univ_succ]

structure ChunkWindow where
  chunkIdx : ℕ
  startTime : ℚ
  numFrames : ℕ
  start_nonneg : 0 ≤ startTime

structure ChunkPrediction (K : Type*) [Field K] [LinearOrder K] extends ChunkWindow where
  posterior : ℕ → Posterior K

def ChunkPrediction.multilabelProbs (p : ChunkPrediction K) (t : ℕ) (s : Fin 3) : K :=
  powersetToMultilabel (p.posterior t).prob s

def modelFrameDuration : ℚ := 270 / 16000

def ChunkWindow.startGridFrame (w : ChunkWindow) : ℕ :=
  (roundAway (w.startTime / modelFrameDuration)).toNat

/-- The frames accumulated before the loop breaks at the end of the grid. -/
def gridFramesOf (gridFrames : ℕ) (w : ChunkWindow) : List ℕ :=
  (List.range w.numFrames).takeWhile (fun t => w.startGridFrame + t < gridFrames)

abbrev Cell := ℕ × ℕ

def frameCredits (assign : Key → Option ℕ) (p : ChunkPrediction K) (t : ℕ) : List (Cell × K) :=
  (List.finRange 3).flatMap fun s =>
    match assign (p.chunkIdx, s) with
    | none => []
    | some globalId => [((globalId, p.startGridFrame + t), p.multilabelProbs t s)]

variable {n : ℕ}

def credits (assign : Key → Option ℕ) (gridFrames : ℕ) (predictions : Fin n → ChunkPrediction K) :
    List (Cell × K) :=
  (List.finRange n).flatMap fun i =>
    (gridFramesOf gridFrames (predictions i).toChunkWindow).flatMap
      (frameCredits assign (predictions i))

def globalAcc (assign : Key → Option ℕ) (gridFrames : ℕ) (predictions : Fin n → ChunkPrediction K) :
    Cell → K :=
  scatter (credits assign gridFrames predictions) 0

def globalCount (assign : Key → Option ℕ) (gridFrames : ℕ)
    (predictions : Fin n → ChunkPrediction K) : Cell → K :=
  scatter ((credits assign gridFrames predictions).map (fun c => (c.1, 1))) 0

def gridValue (assign : Key → Option ℕ) (gridFrames : ℕ) (predictions : Fin n → ChunkPrediction K)
    (c : Cell) : K :=
  if 0 < globalCount assign gridFrames predictions c then
    globalAcc assign gridFrames predictions c / globalCount assign gridFrames predictions c
  else 0

def gridActive (assign : Key → Option ℕ) (gridFrames : ℕ)
    (predictions : Fin n → ChunkPrediction K) (c : Cell) : Prop :=
  0.5 < gridValue assign gridFrames predictions c

def ChunkWindow.Covers (gridFrames : ℕ) (w : ChunkWindow) (g : ℕ) : Prop :=
  g < gridFrames ∧ w.startGridFrame ≤ g ∧ g < w.startGridFrame + w.numFrames

instance (gridFrames : ℕ) (w : ChunkWindow) (g : ℕ) : Decidable (w.Covers gridFrames g) :=
  inferInstanceAs (Decidable (_ ∧ _ ∧ _))

def shares (assign : Key → Option ℕ) (p : ChunkPrediction K) (speaker t : ℕ) : List K :=
  ((List.finRange 3).filter (fun s => assign (p.chunkIdx, s) = some speaker)).map
    (p.multilabelProbs t)

theorem takeWhile_range (a m k : ℕ) :
    (List.range k).takeWhile (fun t => a + t < m) = List.range (min k (m - a)) := by
  induction k with
  | zero => simp
  | succ k ih =>
    rw [List.range_succ]
    by_cases h : a + k < m
    · have all : ∀ t ∈ List.range k, decide (a + t < m) = true := by
        intro t ht
        have := List.mem_range.1 ht
        simp only [decide_eq_true_eq]
        omega
      have size : min (k + 1) (m - a) = k + 1 := by omega
      rw [List.takeWhile_append_of_pos all, List.takeWhile_cons, if_pos (by simpa using h), size,
        List.range_succ, List.takeWhile_nil]
    · have size : min (k + 1) (m - a) = min k (m - a) := by omega
      rw [List.takeWhile_append, ih, size]
      split_ifs with full
      · rw [List.takeWhile_cons, if_neg (by simpa using h), List.append_nil]
        rw [List.length_range, List.length_range] at full
        rw [full]
      · rfl

theorem mem_gridFramesOf {gridFrames t : ℕ} {w : ChunkWindow} :
    t ∈ gridFramesOf gridFrames w ↔ w.Covers gridFrames (w.startGridFrame + t) := by
  rw [gridFramesOf, takeWhile_range, List.mem_range, ChunkWindow.Covers]
  omega

theorem nodup_gridFramesOf (gridFrames : ℕ) (w : ChunkWindow) :
    (gridFramesOf gridFrames w).Nodup := by
  rw [gridFramesOf, takeWhile_range]
  exact List.nodup_range

omit [IsStrictOrderedRing K] in
theorem received_frameCredits (assign : Key → Option ℕ) (p : ChunkPrediction K)
    (speaker t g : ℕ) :
    received (frameCredits assign p t) (speaker, g) =
      if p.startGridFrame + t = g then shares assign p speaker t else [] := by
  rw [frameCredits, received_flatMap, shares]
  induction List.finRange 3 with
  | nil => simp
  | cons s l ih =>
    rw [List.flatMap_cons, ih]
    cases h : assign (p.chunkIdx, s) with
    | none => simp [received, h]
    | some globalId =>
      by_cases hg : p.startGridFrame + t = g
      · by_cases hs : globalId = speaker
        · simp [received, h, hg, hs]
        · simp [received, h, hg, hs]
      · simp [received, hg]

omit [IsStrictOrderedRing K] in
theorem received_credits (assign : Key → Option ℕ) (gridFrames : ℕ)
    (predictions : Fin n → ChunkPrediction K) (speaker g : ℕ) :
    received (credits assign gridFrames predictions) (speaker, g) =
      (List.finRange n).flatMap fun i =>
        if (predictions i).Covers gridFrames g then
          shares assign (predictions i) speaker (g - (predictions i).startGridFrame)
        else [] := by
  rw [credits, received_flatMap]
  refine List.flatMap_congr fun i _ => ?_
  rw [received_flatMap, flatMap_single (nodup_gridFramesOf _ _) _ (g - (predictions i).startGridFrame)]
  · by_cases hc : (predictions i).Covers gridFrames g
    · have back : (predictions i).startGridFrame + (g - (predictions i).startGridFrame) = g := by
        have := hc.2.1
        omega
      have hm : g - (predictions i).startGridFrame ∈
          gridFramesOf gridFrames (predictions i).toChunkWindow := by
        rw [mem_gridFramesOf, back]
        exact hc
      rw [if_pos hm, if_pos hc, received_frameCredits, if_pos back]
    · rw [if_neg hc, received_frameCredits]
      split_ifs with hm back
      · rw [mem_gridFramesOf, back] at hm
        exact absurd hm hc
      · rfl
      · rfl
  · intro t _ ht
    rw [received_frameCredits, if_neg]
    omega

/-- What one chunk contributes above one half, over its local speakers with this global speaker. -/
def surplus (assign : Key → Option ℕ) (gridFrames : ℕ) (p : ChunkPrediction K)
    (speaker g : ℕ) : K :=
  if p.Covers gridFrames g then
    ∑ s, if assign (p.chunkIdx, s) = some speaker then
      p.multilabelProbs (g - p.startGridFrame) s - 0.5 else 0
  else 0

omit [IsStrictOrderedRing K] in
theorem sum_shares (assign : Key → Option ℕ) (p : ChunkPrediction K) (speaker t : ℕ) :
    ((shares assign p speaker t).map (fun x => x - 0.5)).sum =
      ∑ s, if assign (p.chunkIdx, s) = some speaker then p.multilabelProbs t s - 0.5 else 0 := by
  rw [shares, Fin.sum_univ_def, List.map_map]
  induction List.finRange 3 with
  | nil => rfl
  | cons s l ih =>
    by_cases h : assign (p.chunkIdx, s) = some speaker
    · rw [List.filter_cons_of_pos (by simpa using h), List.map_cons, List.sum_cons, ih,
        List.map_cons, List.sum_cons, if_pos h]
      rfl
    · rw [List.filter_cons_of_neg (by simpa using h), ih, List.map_cons, List.sum_cons, if_neg h,
        zero_add]

theorem sum_sub_half (l : List K) :
    (l.map (fun x => x - 0.5)).sum = l.sum - (l.length : K) * 0.5 := by
  induction l with
  | nil => simp
  | cons x l ih =>
    rw [List.map_cons, List.sum_cons, List.sum_cons, List.length_cons, ih, Nat.cast_succ]
    ring

/-- A mean above one half is a positive total surplus. -/
theorem gridActive_iff (assign : Key → Option ℕ) (gridFrames : ℕ)
    (predictions : Fin n → ChunkPrediction K) (speaker g : ℕ) :
    gridActive assign gridFrames predictions (speaker, g) ↔
      0 < ∑ i, surplus assign gridFrames (predictions i) speaker g := by
  have total : ∑ i, surplus assign gridFrames (predictions i) speaker g =
      ((received (credits assign gridFrames predictions) (speaker, g)).map
        (fun x => x - 0.5)).sum := by
    rw [received_credits, Fin.sum_univ_def]
    induction List.finRange n with
    | nil => rfl
    | cons i l ih =>
      rw [List.map_cons, List.sum_cons, ih, List.flatMap_cons, List.map_append, List.sum_append,
        surplus]
      split_ifs
      · rw [sum_shares]
      · rfl
  rw [total, sum_sub_half, gridActive, gridValue, globalCount, globalAcc, scatter_ones,
    scatter_apply, Pi.zero_apply, zero_add]
  cases received (credits assign gridFrames predictions) (speaker, g) with
  | nil => norm_num
  | cons x l =>
    have pos : (0 : K) < ((x :: l).length : K) := by
      exact_mod_cast List.length_pos_iff.2 (List.cons_ne_nil x l)
    rw [if_pos pos, lt_div_iff₀ pos]
    constructor <;> intro h <;> linarith

end PyannoteCpp.TimelineAccumulation
