import Mathlib.Algebra.BigOperators.Fin
import Mathlib.Algebra.Order.Field.Basic
import PyannoteCpp.CheckedVector

set_option autoImplicit false

/-!
# The mel filterbank

The rows are built cell by cell from the edges. In exact arithmetic a row is
the difference of two neighbouring ramps, so the rows add up to one between
the second edge and the last but one.
-/
namespace PyannoteCpp.MelFilterbank
open CheckedVector CheckedLoops Finset

section Model

variable {F : Type} [Zero F] [Sub F] [Div F] [LE F] [LT F] [DecidableLE F] [DecidableLT F] [BEq F]

/-- What is written into the cell of a bin; none leaves its zero. -/
def slope (left center right freq : F) : Option F :=
  if freq ≥ left ∧ freq < center then
    if center != left then some ((freq - left) / (center - left)) else none
  else if freq ≥ center ∧ freq ≤ right then
    if right != center then some ((right - freq) / (right - center)) else none
  else none

def writeSlope (left center right : F) (freq : ℕ → F) (row : List F) (j : ℕ) : Except Fault (List F) :=
  match slope left center right (freq j) with
  | some w => writeAt row j w
  | none => pure row

def filterRow (hzPoints : List F) (bins : ℤ) (freq : ℕ → F) (i : ℕ) : Except Fault (List F) := do
  let row ← allocate bins 0
  let left ← readAt hzPoints i
  let center ← readAt hzPoints (i + 1 : ℕ)
  let right ← readAt hzPoints (i + 2 : ℕ)
  (List.range bins.toNat).foldlM (writeSlope left center right freq) row

def writeRow (hzPoints : List F) (bins : ℤ) (freq : ℕ → F) (filterbank : List (List F)) (i : ℕ) :
    Except Fault (List (List F)) := do
  let row ← filterRow hzPoints bins freq i
  writeAt filterbank i row

/-- `freq` is the grid of the bins. -/
def melFilterbank (nMels : ℤ) (hzPoints : List F) (bins : ℤ) (freq : ℕ → F) : Except Fault (List (List F)) := do
  let filterbank ← allocate nMels []
  (List.range nMels.toNat).foldlM (writeRow hzPoints bins freq) filterbank

def weight (hz : ℕ → F) (i : ℕ) (freq : F) : F := (slope (hz i) (hz (i + 1)) (hz (i + 2)) freq).getD 0

theorem filterRow_cells {n : ℕ} (hz : ℕ → F) (bins : ℕ) (freq : ℕ → F) {i : ℕ} (hi : i < n) :
    filterRow (cells (n + 2) hz) bins freq i = .ok (cells bins (fun j => weight hz i (freq j))) := by
  have hcell : ∀ f : ℕ → F, ∀ j < bins, writeSlope (hz i) (hz (i + 1)) (hz (i + 2)) freq (cells bins f) j =
      .ok (cells bins ((slope (hz i) (hz (i + 1)) (hz (i + 2)) (freq j)).elim f (Function.update f j))) := by
    intro f j hj
    unfold writeSlope
    cases slope (hz i) (hz (i + 1)) (hz (i + 2)) (freq j) with
    | none => rfl
    | some w => exact writeAt_cells f hj w
  unfold filterRow
  rw [allocate_cells, ok_bind, readAt_cells hz (by omega), ok_bind, readAt_cells hz (by omega), ok_bind,
    readAt_cells hz (by omega), ok_bind, Int.toNat_natCast]
  exact foldlM_overwrite (fun j => slope (hz i) (hz (i + 1)) (hz (i + 2)) (freq j)) hcell _

theorem melFilterbank_cells (n : ℕ) (hz : ℕ → F) (bins : ℕ) (freq : ℕ → F) :
    melFilterbank n (cells (n + 2) hz) bins freq =
      .ok (cells n (fun i => cells bins (fun j => weight hz i (freq j)))) := by
  have hrow : ∀ f : ℕ → List F, ∀ i < n, writeRow (cells (n + 2) hz) bins freq (cells n f) i =
      .ok (cells n ((some (cells bins (fun j => weight hz i (freq j)))).elim f (Function.update f i))) := by
    intro f i hi
    unfold writeRow
    rw [filterRow_cells hz bins freq hi, ok_bind, writeAt_cells f hi]
    rfl
  unfold melFilterbank
  rw [allocate_cells, ok_bind, Int.toNat_natCast]
  exact foldlM_overwrite (fun i => some (cells bins (fun j => weight hz i (freq j)))) hrow _

end Model

section Ramps

variable {K : Type} [Field K] [LinearOrder K] [IsStrictOrderedRing K]

/-- From zero before the edge `i` to one behind the edge `i + 1`. -/
def ramp (hz : ℕ → K) (i : ℕ) (x : K) : K :=
  if x < hz i then 0 else if x < hz (i + 1) then (x - hz i) / (hz (i + 1) - hz i) else 1

variable {hz : ℕ → K} {i : ℕ} {x : K}

/-- A weight is what one ramp has climbed and the next one not yet. -/
theorem weight_eq (h₁ : hz i < hz (i + 1)) (h₂ : hz (i + 1) < hz (i + 2)) :
    weight hz i x = ramp hz i x - ramp hz (i + 1) x := by
  have hfall : hz (i + 2) - hz (i + 1) ≠ 0 := (sub_pos.2 h₂).ne'
  have hleft : (hz (i + 1) != hz i) = true := bne_iff_ne.2 h₁.ne'
  have hright : (hz (i + 2) != hz (i + 1)) = true := bne_iff_ne.2 h₂.ne'
  unfold weight slope ramp
  rw [if_pos hleft, if_pos hright]
  rcases lt_or_ge x (hz i) with hbefore | hin
  · rw [if_neg (fun h => absurd h.1 (not_le.2 hbefore)), if_neg (fun h => absurd h.1 (not_le.2 (hbefore.trans h₁))),
      if_pos hbefore, if_pos (hbefore.trans h₁), sub_zero]
    rfl
  · rcases lt_or_ge x (hz (i + 1)) with hrise | hpast
    · rw [if_pos ⟨hin, hrise⟩, if_neg (not_lt.2 hin), if_pos hrise, if_pos hrise, sub_zero]
      rfl
    · rw [if_neg (fun h => absurd h.2 (not_lt.2 hpast)), if_neg (not_lt.2 hin), if_neg (not_lt.2 hpast),
        if_neg (not_lt.2 hpast)]
      rcases lt_trichotomy x (hz (i + 2)) with hfalls | rfl | hafter
      · rw [if_pos ⟨hpast, hfalls.le⟩, if_pos hfalls, Option.getD_some, one_sub_div hfall, sub_sub_sub_cancel_right]
      · rw [if_pos ⟨hpast, le_rfl⟩, if_neg (lt_irrefl _), Option.getD_some, sub_self, zero_div, sub_self]
      · rw [if_neg (fun h => absurd h.2 (not_le.2 hafter)), if_neg (not_lt.2 hafter.le), sub_self]
        rfl

theorem weight_mem (h₁ : hz i < hz (i + 1)) (h₂ : hz (i + 1) < hz (i + 2)) : 0 ≤ weight hz i x ∧ weight hz i x ≤ 1 := by
  unfold weight slope
  split_ifs with hrise _ hfall _
  · exact ⟨div_nonneg (sub_nonneg.2 hrise.1) (sub_nonneg.2 h₁.le),
      (div_le_one (sub_pos.2 h₁)).2 (sub_le_sub_right hrise.2.le _)⟩
  · exact ⟨le_rfl, zero_le_one⟩
  · exact ⟨div_nonneg (sub_nonneg.2 hfall.2) (sub_nonneg.2 h₂.le),
      (div_le_one (sub_pos.2 h₂)).2 (sub_le_sub_left hfall.1 _)⟩
  · exact ⟨le_rfl, zero_le_one⟩
  · exact ⟨le_rfl, zero_le_one⟩

theorem weight_support (h₁ : hz i < hz (i + 1)) (h₂ : hz (i + 1) < hz (i + 2)) (hx : weight hz i x ≠ 0) :
    hz i < x ∧ x < hz (i + 2) := by
  rw [weight_eq h₁ h₂] at hx
  constructor
  · by_contra hlow
    rw [not_lt] at hlow
    refine hx ?_
    unfold ramp
    rcases hlow.lt_or_eq with hlt | rfl
    · rw [if_pos hlt, if_pos (hlt.trans h₁), sub_zero]
    · rw [if_neg (lt_irrefl _), if_pos h₁, if_pos h₁, sub_self, zero_div, sub_zero]
  · by_contra hhigh
    rw [not_lt] at hhigh
    have hpast : hz (i + 1) ≤ x := h₂.le.trans hhigh
    refine hx ?_
    unfold ramp
    rw [if_neg (not_lt.2 (h₁.le.trans hpast)), if_neg (not_lt.2 hpast), if_neg (not_lt.2 hpast),
      if_neg (not_lt.2 hhigh), sub_self]

/-- The ramps in between cancel. -/
theorem sum_weight {n : ℕ} (h : ∀ i ≤ n, hz i < hz (i + 1)) (hfirst : hz 1 ≤ x) (hlast : x ≤ hz n) :
    ∑ i ∈ range n, weight hz i x = 1 := by
  have hramps : ∑ i ∈ range n, weight hz i x = ∑ i ∈ range n, (ramp hz i x - ramp hz (i + 1) x) := by
    refine sum_congr rfl (fun i hi => ?_)
    have hi := mem_range.1 hi
    exact weight_eq (h i hi.le) (h (i + 1) hi)
  have hclimbed : ramp hz 0 x = 1 := by
    unfold ramp
    rw [if_neg (not_lt.2 ((h 0 (Nat.zero_le n)).le.trans hfirst)), if_neg (not_lt.2 hfirst)]
  have hwaiting : ramp hz n x = 0 := by
    unfold ramp
    rcases hlast.lt_or_eq with hlt | rfl
    · rw [if_pos hlt]
    · rw [if_neg (lt_irrefl _), if_pos (h n le_rfl), sub_self, zero_div]
  rw [hramps, sum_range_sub', hclimbed, hwaiting, sub_zero]

theorem weight_neighbours {n : ℕ} (h : ∀ i ≤ n, hz i < hz (i + 1)) {a : ℕ} (ha : a < n) (hxa : weight hz a x ≠ 0)
    (hib : i < n) (hai : a ≤ i) (hxi : weight hz i x ≠ 0) : i = a ∨ i = a + 1 := by
  by_contra hfar
  have hmono : hz (a + 2) ≤ hz i :=
    monotoneOn_of_le_succ Set.ordConnected_Iic (s := Set.Iic (n + 1)) (fun k _ _ hk => (h k (by simpa using hk)).le)
      (show a + 2 ∈ Set.Iic (n + 1) from Set.mem_Iic.2 (by omega)) (Set.mem_Iic.2 (by omega)) (by omega)
  have hafter := (weight_support (h a ha.le) (h (a + 1) ha) hxa).2
  have hbefore := (weight_support (h i hib.le) (h (i + 1) hib) hxi).1
  exact absurd (hbefore.trans hafter) (not_lt.2 hmono)

/-- The filterbank is a partition of unity, wherever the bins lie. -/
theorem melFilterbank_partition {n bins : ℕ} (hz : Fin (n + 2) → K) (hmono : StrictMono hz) (freq : ℕ → K) :
    ∃ W : Fin n → Fin bins → K,
      melFilterbank n (List.ofFn hz) bins freq = .ok (List.ofFn (fun i => List.ofFn (W i))) ∧
      (∀ i j, 0 ≤ W i j ∧ W i j ≤ 1) ∧
      (∀ j, ∃ a : ℕ, ∀ i : Fin n, W i j ≠ 0 → (i : ℕ) = a ∨ (i : ℕ) = a + 1) ∧
      ∀ j : Fin bins, hz 1 ≤ freq j → freq j ≤ hz (Fin.last n).castSucc → ∑ i, W i j = 1 := by
  have hedge (i : Fin (n + 2)) : padded hz 0 i = hz i := padded_of_lt hz 0 i.isLt
  have hstep : ∀ i ≤ n, padded hz 0 i < padded hz 0 (i + 1) := by
    intro i hi
    rw [padded_of_lt hz 0 (show i < n + 2 by omega), padded_of_lt hz 0 (show i + 1 < n + 2 by omega)]
    exact hmono (Nat.lt_succ_self i)
  refine ⟨fun i j => weight (padded hz 0) i (freq j), ?_, ?_, ?_, ?_⟩
  · rw [ofFn_eq_cells hz 0]
    exact melFilterbank_cells n _ bins freq
  · exact fun i j => weight_mem (hstep i i.isLt.le) (hstep (i + 1) i.isLt)
  · intro j
    by_cases hsome : ∃ a, a < n ∧ weight (padded hz 0) a (freq j) ≠ 0
    · obtain ⟨ha, hxa⟩ := Nat.find_spec hsome
      exact ⟨Nat.find hsome, fun i hi =>
        weight_neighbours hstep ha hxa i.isLt (Nat.find_min' hsome ⟨i.isLt, hi⟩) hi⟩
    · exact ⟨0, fun i hi => absurd ⟨i, i.isLt, hi⟩ hsome⟩
  · intro j hfirst hlast
    rw [← hedge] at hfirst hlast
    have hsum := sum_weight hstep (x := freq j) (by simpa using hfirst) (by simpa using hlast)
    rwa [Finset.sum_range] at hsum

/-- Two filters over the edges 0, 1, 2, 3, on the bins 0, 1, 2. -/
theorem melFilterbank_partition_two : ∃ W : Fin 2 → Fin 3 → ℚ,
    melFilterbank 2 (List.ofFn (fun i : Fin 4 => (i : ℚ))) 3 (fun j => (j : ℚ)) =
      .ok (List.ofFn (fun i => List.ofFn (W i))) ∧ ∑ i, W i 1 = 1 := by
  obtain ⟨(W : Fin 2 → Fin 3 → ℚ), hbuilt, -, -, hsum⟩ := melFilterbank_partition (fun i : Fin 4 => (i : ℚ))
    (fun a b h => Nat.cast_lt.2 h) (fun j => (j : ℚ))
  exact ⟨W, hbuilt, hsum 1 (by norm_num) (by norm_num)⟩

end Ramps

end PyannoteCpp.MelFilterbank
