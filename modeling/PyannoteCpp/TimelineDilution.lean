import PyannoteCpp.TimelineAccumulation

set_option autoImplicit false

/-!
# Speech diluted by a second local speaker

When one chunk has two local speakers of one global speaker, the silent one
halves the mean of the speaking one.
-/
namespace PyannoteCpp.TimelineAccumulation
open RoundHalfAway ScatterAdd TimelineAssignment

variable {K : Type*} [Field K] [LinearOrder K] [IsStrictOrderedRing K] {n : ℕ}

theorem solo_self (s : Fin 3) (p : K) (low : 0 ≤ p) (high : p ≤ 1) :
    powersetToMultilabel (soloPosterior s p low high).prob s = p := by
  fin_cases s <;> simp [powersetToMultilabel, soloPosterior, high]

theorem solo_other {s u : Fin 3} (h : u ≠ s) (p : K) (low : 0 ≤ p) (high : p ≤ 1) :
    powersetToMultilabel (soloPosterior s p low high).prob u = 0 := by
  fin_cases s <;> fin_cases u <;> first | exact absurd rfl h | simp [powersetToMultilabel, soloPosterior]

def predict (windows : Fin n → ChunkWindow) (posteriors : Fin n → ℕ → Posterior K) (i : Fin n) :
    ChunkPrediction K :=
  { windows i with posterior := posteriors i }

def SpokenIn (assign : Key → Option ℕ) (p : ChunkPrediction K) (speaker g : ℕ) : Prop :=
  ∃ s, assign (p.chunkIdx, s) = some speaker ∧
    0.5 < p.multilabelProbs (g - p.startGridFrame) s

theorem surplus_alone {assign : Key → Option ℕ} {gridFrames : ℕ} {p : ChunkPrediction K}
    {speaker g : ℕ} (hc : p.Covers gridFrames g) (spoken : SpokenIn assign p speaker g)
    (alone : ∀ s u, assign (p.chunkIdx, s) = some speaker →
      assign (p.chunkIdx, u) = some speaker → s = u) :
    0 < surplus assign gridFrames p speaker g := by
  obtain ⟨s, hs, high⟩ := spoken
  rw [surplus, if_pos hc, Finset.sum_eq_single s]
  · rw [if_pos hs]
    linarith
  · intro u _ hu
    apply if_neg
    intro h
    exact hu (alone u s h hs)
  · intro h
    exact absurd (Finset.mem_univ s) h

section Solo

variable {assign : Key → Option ℕ} {gridFrames speaker g : ℕ} {p : ChunkPrediction K}
  {s : Fin 3} {x : K} (low : 0 ≤ x) (high : x ≤ 1)

theorem surplus_solo_le (half : 1 / 2 ≤ x)
    (solo : p.posterior (g - p.startGridFrame) = soloPosterior s x low high) :
    surplus assign gridFrames p speaker g ≤ x - 1 / 2 := by
  rw [surplus]
  split_ifs
  · calc _ ≤ ∑ u, if u = s then x - 1 / 2 else 0 := by
          apply Finset.sum_le_sum
          intro u _
          rw [ChunkPrediction.multilabelProbs, solo]
          by_cases hu : u = s
          · rw [hu, solo_self, if_pos rfl]
            split_ifs <;> linarith
          · rw [solo_other hu, if_neg hu]
            split_ifs <;> linarith
      _ = x - 1 / 2 := by simp
  · linarith

theorem surplus_solo_shared (half : 1 / 2 ≤ x)
    (solo : p.posterior (g - p.startGridFrame) = soloPosterior s x low high)
    (hc : p.Covers gridFrames g) {v : Fin 3} (hv : assign (p.chunkIdx, v) = some speaker)
    (hvs : v ≠ s) : surplus assign gridFrames p speaker g ≤ x - 1 := by
  rw [surplus, if_pos hc]
  calc _ ≤ ∑ u, ((if u = s then x - 1 / 2 else 0) + if u = v then - (1 / 2) else 0) := by
          apply Finset.sum_le_sum
          intro u _
          rw [ChunkPrediction.multilabelProbs, solo]
          by_cases hu : u = s
          · have hsv : ¬s = v := fun h => hvs h.symm
            rw [hu, solo_self, if_pos rfl, if_neg hsv]
            split_ifs <;> linarith
          · rw [solo_other hu, if_neg hu]
            by_cases huv : u = v
            · rw [huv, if_pos hv, if_pos rfl]
              linarith
            · rw [if_neg (c := u = v) huv]
              split_ifs <;> linarith
      _ = x - 1 := by
          rw [Finset.sum_add_distrib]
          simp only [Finset.sum_ite_eq', Finset.mem_univ, if_true]
          ring

end Solo

/-- The chosen local speakers are just above one half everywhere; the second one of
    chunk `j` outweighs all these margins together. -/
theorem diluted (assign : Key → Option ℕ) (gridFrames : ℕ) (windows : Fin n → ChunkWindow)
    (speaker g : ℕ) (choice : Fin n → Fin 3)
    (chosen : ∀ i, (windows i).Covers gridFrames g →
      assign ((windows i).chunkIdx, choice i) = some speaker)
    {j : Fin n} (hj : (windows j).Covers gridFrames g) {v : Fin 3}
    (hv : assign ((windows j).chunkIdx, v) = some speaker) (hvj : v ≠ choice j) :
    ∃ posteriors : Fin n → ℕ → Posterior K,
      (∀ i, (windows i).Covers gridFrames g →
        SpokenIn assign (predict windows posteriors i) speaker g) ∧
      ¬gridActive assign gridFrames (predict windows posteriors) (speaker, g) := by
  have count : (1 : K) ≤ n := by
    exact_mod_cast Nat.succ_le_of_lt (lt_of_le_of_lt (Nat.zero_le _) j.isLt)
  have margin : 0 < 1 / (2 * (n : K)) := by positivity
  have margin_le : 1 / (2 * (n : K)) ≤ 1 / 2 :=
    one_div_le_one_div_of_le (by norm_num) (by linarith)
  obtain ⟨x, hx⟩ : ∃ x : K, x = 1 / 2 + 1 / (2 * (n : K)) := ⟨_, rfl⟩
  have low : 0 ≤ x := by linarith
  have high : x ≤ 1 := by linarith
  have half : 1 / 2 ≤ x := by linarith
  refine ⟨fun i _ => soloPosterior (choice i) x low high, fun i hi => ?_, ?_⟩
  · refine ⟨choice i, chosen i hi, ?_⟩
    change 0.5 < powersetToMultilabel (soloPosterior (choice i) x low high).prob (choice i)
    rw [solo_self]
    linarith
  · rw [gridActive_iff, not_lt]
    have bound : ∀ i, surplus assign gridFrames
        (predict windows (fun i _ => soloPosterior (choice i) x low high) i) speaker g ≤
        1 / (2 * (n : K)) + if i = j then -(1 / 2) else 0 := by
      intro i
      by_cases hij : i = j
      · subst i
        have two := surplus_solo_shared (p := predict windows
          (fun i _ => soloPosterior (choice i) x low high) j) low high half rfl hj hv hvj
        rw [if_pos rfl]
        linarith
      · have one : surplus assign gridFrames
            (predict windows (fun i _ => soloPosterior (choice i) x low high) i) speaker g ≤
            x - 1 / 2 := surplus_solo_le low high half rfl
        rw [if_neg hij]
        linarith
    calc _ ≤ ∑ i : Fin n, (1 / (2 * (n : K)) + if i = j then -(1 / 2) else 0) :=
          Finset.sum_le_sum (fun i _ => bound i)
      _ = n * (1 / (2 * (n : K))) - 1 / 2 := by
          rw [Finset.sum_add_distrib, Finset.sum_const, Finset.card_univ, Fintype.card_fin,
            nsmul_eq_mul, Finset.sum_ite_eq', if_pos (Finset.mem_univ j)]
          ring
      _ = 0 := by
          field_simp
          ring

theorem active_of_alone {assign : Key → Option ℕ} {gridFrames : ℕ} {windows : Fin n → ChunkWindow}
    {speaker g : ℕ} (covered : ∃ i, (windows i).Covers gridFrames g)
    (alone : ∀ i, (windows i).Covers gridFrames g → ∀ s u,
      assign ((windows i).chunkIdx, s) = some speaker →
      assign ((windows i).chunkIdx, u) = some speaker → s = u)
    {posteriors : Fin n → ℕ → Posterior K}
    (spoken : ∀ i, (windows i).Covers gridFrames g →
      SpokenIn assign (predict windows posteriors i) speaker g) :
    gridActive assign gridFrames (predict windows posteriors) (speaker, g) := by
  obtain ⟨i, hi⟩ := covered
  rw [gridActive_iff]
  apply Finset.sum_pos'
  · intro j _
    by_cases hj : (windows j).Covers gridFrames g
    · exact (surplus_alone (p := predict windows posteriors j) hj (spoken j hj) (alone j hj)).le
    · have none : surplus assign gridFrames (predict windows posteriors j) speaker g = 0 :=
        if_neg hj
      exact none.ge
  · exact ⟨i, Finset.mem_univ i,
      surplus_alone (p := predict windows posteriors i) hi (spoken i hi) (alone i hi)⟩

variable (K) in
/-- No posteriors dilute a speaker spoken in every covering chunk exactly when
    one chunk covers the frame and either some covering chunk has no local
    speaker for it, so nothing is spoken, or none has two. -/
theorem speech_kept_iff (assign : Key → Option ℕ) (gridFrames : ℕ) (windows : Fin n → ChunkWindow)
    (speaker g : ℕ) :
    (∀ posteriors : Fin n → ℕ → Posterior K,
      (∀ i, (windows i).Covers gridFrames g →
        SpokenIn assign (predict windows posteriors i) speaker g) →
      gridActive assign gridFrames (predict windows posteriors) (speaker, g)) ↔
    (∃ i, (windows i).Covers gridFrames g) ∧
      ((∃ i, (windows i).Covers gridFrames g ∧
          ∀ s, assign ((windows i).chunkIdx, s) ≠ some speaker) ∨
        ∀ i, (windows i).Covers gridFrames g → ∀ s u,
          assign ((windows i).chunkIdx, s) = some speaker →
          assign ((windows i).chunkIdx, u) = some speaker → s = u) := by
  constructor
  · intro kept
    constructor
    · by_contra uncovered
      have quiet := kept (fun _ _ => soloPosterior 0 0 le_rfl zero_le_one)
        (fun i hi => absurd ⟨i, hi⟩ uncovered)
      rw [gridActive_iff, Finset.sum_eq_zero] at quiet
      · exact lt_irrefl _ quiet
      · exact fun i _ => if_neg (fun hi => uncovered ⟨i, hi⟩)
    · by_contra shared
      rw [not_or] at shared
      push Not at shared
      obtain ⟨some_speaker, j, hj, s, u, hs, hu, hsu⟩ := shared
      choose! choice chosen using some_speaker
      obtain ⟨v, hv, hvj⟩ : ∃ v, assign ((windows j).chunkIdx, v) = some speaker ∧
          v ≠ choice j := by
        by_cases h : s = choice j
        · exact ⟨u, hu, fun hu' => hsu (h.trans hu'.symm)⟩
        · exact ⟨s, hs, h⟩
      obtain ⟨posteriors, spoken, lost⟩ :=
        diluted (K := K) assign gridFrames windows speaker g choice chosen hj hv hvj
      exact lost (kept posteriors spoken)
  · rintro ⟨covered, silent | alone⟩ posteriors spoken
    · obtain ⟨j, hj, none⟩ := silent
      obtain ⟨s, hs, _⟩ := spoken j hj
      exact absurd hs (none s)
    · exact active_of_alone covered alone spoken

def overlapWindow : Fin 1 → ChunkWindow := fun _ => ⟨0, 0, 1, le_rfl⟩

def overlapAssign : Key → Option ℕ := fun k => if k.2.val = 0 then none else some 0

theorem overlap_covers (i : Fin 1) : (overlapWindow i).Covers 1 0 := by
  have start : (overlapWindow i).startGridFrame = 0 := by
    simp [ChunkWindow.startGridFrame, overlapWindow, roundAway]
  rw [ChunkWindow.Covers, start]
  exact ⟨Nat.zero_lt_one, le_rfl, Nat.zero_lt_one⟩

theorem overlap_not_kept : ¬∀ posteriors : Fin 1 → ℕ → Posterior ℚ,
    (∀ i, (overlapWindow i).Covers 1 0 →
      SpokenIn overlapAssign (predict overlapWindow posteriors i) 0 0) →
    gridActive overlapAssign 1 (predict overlapWindow posteriors) (0, 0) := by
  rw [speech_kept_iff ℚ overlapAssign 1 overlapWindow 0 0]
  rintro ⟨_, ⟨i, _, none⟩ | alone⟩
  · exact none 1 rfl
  · exact absurd (alone 0 (overlap_covers 0) 1 2 rfl rfl) (by decide)

/-- The last local speaker at 3/4 and the second one silent average 3/8. -/
def overlapPosteriors : Fin 1 → ℕ → Posterior ℚ :=
  fun _ _ => soloPosterior (Fin.last 2) (3 / 4) (by norm_num) (by norm_num)

theorem overlap_diluted :
    (∀ i, (overlapWindow i).Covers 1 0 ∧
      SpokenIn overlapAssign (predict overlapWindow overlapPosteriors i) 0 0) ∧
    ¬gridActive overlapAssign 1 (predict overlapWindow overlapPosteriors) (0, 0) := by
  constructor
  · intro i
    refine ⟨overlap_covers i, Fin.last 2, rfl, ?_⟩
    have high : powersetToMultilabel (overlapPosteriors i 0).prob (Fin.last 2) = 3 / 4 :=
      solo_self (Fin.last 2) _ _ _
    change 0.5 < powersetToMultilabel (overlapPosteriors i 0).prob (Fin.last 2)
    rw [high]
    norm_num
  · have shared : surplus overlapAssign 1 (predict overlapWindow overlapPosteriors 0) 0 0 ≤
        3 / 4 - 1 :=
      surplus_solo_shared (s := Fin.last 2) (v := 1) (by norm_num) (by norm_num) (by norm_num) rfl
        (overlap_covers 0) rfl (by decide)
    rw [gridActive_iff, Fin.sum_univ_one, not_lt]
    exact shared.trans (by norm_num)

end PyannoteCpp.TimelineAccumulation
