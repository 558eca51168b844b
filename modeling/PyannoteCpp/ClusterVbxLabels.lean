import PyannoteCpp.ClusterVbx

set_option autoImplicit false

/-!
# The labels that the clustering returns

A row of responsibilities is free of NaN or made of them, because one NaN
reaches the sum that every entry of its row is divided by. The speaker chosen
for a row is then the first one of the kept whose responsibility no other
exceeds. The chosen speakers are numbered as they are met.
-/
namespace PyannoteCpp.ClusterVbx
open ExactFloat SimpleAhc

variable {N D K dim : ℕ}

section Numbering

/-- After the positions `seen`: what the map holds and what stands in the labels. -/
structure Renumbered (orig : Fin N → ℤ) (B : Remap N) (seen : List (Fin N)) : Prop where
  rest : ∀ j, j ∉ seen → B.labels j = orig j
  known : ∀ j ∈ seen, B.remap (orig j) = some (B.labels j)
  range : ∀ v u, B.remap v = some u → 0 ≤ u ∧ u < B.nextId
  inj : ∀ v w u, B.remap v = some u → B.remap w = some u → v = w
  used : ∀ u, 0 ≤ u → u < B.nextId → ∃ j ∈ seen, B.labels j = u
  first : ∀ i ∈ seen, ∀ u, 0 ≤ u → u < B.labels i → ∃ j ∈ seen, j < i ∧ B.labels j = u

variable {orig : Fin N → ℤ} {B : Remap N} {seen : List (Fin N)} {i : Fin N}

theorem Renumbered.label (h : Renumbered orig B seen) (later : ∀ j ∈ seen, j < i) {B' : Remap N} {v : ℤ}
    (labels : B'.labels = Function.update B.labels i v) (remap : B'.remap (orig i) = some v)
    (kept : ∀ w u, B.remap w = some u → B'.remap w = some u)
    (range : ∀ w u, B'.remap w = some u → 0 ≤ u ∧ u < B'.nextId)
    (inj : ∀ w w' u, B'.remap w = some u → B'.remap w' = some u → w = w')
    (next : B'.nextId = B.nextId ∧ v < B.nextId ∨ B'.nextId = B.nextId + 1 ∧ v = B.nextId) :
    Renumbered orig B' (seen ++ [i]) := by
  have here : B'.labels i = v := by rw [labels, Function.update_self]
  have old : ∀ j, j ≠ i → B'.labels j = B.labels j := fun j hj => by rw [labels, Function.update_of_ne hj]
  have before : ∀ u, 0 ≤ u → u < B.nextId → ∃ j ∈ seen, B'.labels j = u := by
    intro u hu hlt
    obtain ⟨j, hj, hl⟩ := h.used u hu hlt
    exact ⟨j, hj, (old j (later j hj).ne).trans hl⟩
  refine ⟨fun j hj => ?_, fun j hj => ?_, range, inj, fun u hu hlt => ?_, fun k hk u hu hlt => ?_⟩
  · rw [List.mem_append, List.mem_singleton, not_or] at hj
    rw [old j hj.2]
    exact h.rest j hj.1
  · rcases List.mem_append.1 hj with hj | hj
    · rw [old j (later j hj).ne]
      exact kept _ _ (h.known j hj)
    · rw [List.mem_singleton.1 hj, here]
      exact remap
  · by_cases below : u < B.nextId
    · obtain ⟨j, hj, hl⟩ := before u hu below
      exact ⟨j, List.mem_append_left _ hj, hl⟩
    · exact ⟨i, by simp, by omega⟩
  · rcases List.mem_append.1 hk with hk | hk
    · rw [old k (later k hk).ne] at hlt
      obtain ⟨j, hj, hjk, hl⟩ := h.first k hk u hu hlt
      exact ⟨j, List.mem_append_left _ hj, hjk, (old j (later j hj).ne).trans hl⟩
    · rw [List.mem_singleton.1 hk, here] at hlt
      obtain ⟨j, hj, hl⟩ := before u hu (by omega)
      exact ⟨j, List.mem_append_left _ hj, (later j hj).trans_eq (List.mem_singleton.1 hk).symm, hl⟩

theorem Renumbered.step (h : Renumbered orig B seen) (hnext : 0 ≤ B.nextId) (later : ∀ j ∈ seen, j < i) :
    Renumbered orig (B.step i) (seen ++ [i]) := by
  have hlbl : B.labels i = orig i := h.rest i (fun hmem => (later i hmem).false)
  unfold Remap.step
  dsimp only
  rw [hlbl]
  split
  · next hnone =>
      refine h.label later rfl (Function.update_self ..) (fun w u hw => ?_) (fun w u hw => ?_)
        (fun w w' u hw hw' => ?_) (.inr ⟨rfl, rfl⟩)
      · have hne : w ≠ orig i := by
          rintro rfl
          rw [hnone] at hw
          cases hw
        exact (Function.update_of_ne hne ..).trans hw
      · dsimp only at hw ⊢
        rw [Function.update_apply] at hw
        split at hw
        · cases hw
          omega
        · have := h.range w u hw
          omega
      · dsimp only at hw hw'
        rw [Function.update_apply] at hw hw'
        split at hw <;> split at hw'
        · next hv hv' => rw [hv, hv']
        · cases hw
          exact absurd (h.range _ _ hw').2 (lt_irrefl _)
        · cases hw'
          exact absurd (h.range _ _ hw).2 (lt_irrefl _)
        · exact h.inj _ _ _ hw hw'
  · next v hv => exact h.label later rfl hv (fun _ _ hw => hw) h.range h.inj (.inl ⟨rfl, (h.range _ _ hv).2⟩)

theorem step_nextId (B : Remap N) (i : Fin N) : B.nextId ≤ (B.step i).nextId := by
  unfold Remap.step
  dsimp only
  split
  · exact (lt_add_one _).le
  · exact le_rfl

theorem renumbered_foldl (l : List (Fin N)) (h : Renumbered orig B seen) (hnext : 0 ≤ B.nextId)
    (sorted : (seen ++ l).Pairwise (· < ·)) :
    Renumbered orig (l.foldl Remap.step B) (seen ++ l) := by
  induction l generalizing B seen with
  | nil => rwa [List.append_nil]
  | cons i l ih =>
    have later : ∀ j ∈ seen, j < i := fun j hj => (List.pairwise_append.1 sorted).2.2 j hj i List.mem_cons_self
    have tail := ih (h.step hnext later) (hnext.trans (step_nextId B i))
      (by rwa [List.append_assoc, List.singleton_append])
    rwa [List.append_assoc, List.singleton_append] at tail

theorem consecutive_renumbered (orig : Fin N → ℤ) :
    Renumbered orig ((List.finRange N).foldl Remap.step ⟨fun _ => none, 0, orig⟩) (List.finRange N) := by
  have start : Renumbered orig ⟨fun _ => none, 0, orig⟩ [] := by
    refine ⟨fun _ _ => rfl, by simp, by simp, by simp, fun u hu hlt => ?_, by simp⟩
    change u < 0 at hlt
    omega
  exact renumbered_foldl (List.finRange N) start le_rfl (List.pairwise_lt_finRange N)

theorem consecutive_eq_iff (orig : Fin N → ℤ) (i j : Fin N) :
    consecutive orig i = consecutive orig j ↔ orig i = orig j := by
  have h := consecutive_renumbered orig
  have hi := h.known i (List.mem_finRange i)
  have hj := h.known j (List.mem_finRange j)
  constructor
  · intro heq
    exact h.inj _ _ _ hi (hj.trans (congrArg some heq).symm)
  · intro heq
    rw [heq] at hi
    exact Option.some.inj (hi.symm.trans hj)

/-- The labels are consecutive from zero in the order in which they are met. -/
theorem consecutive_wellNumbered (orig : Fin N → ℤ) : ∃ count : ℕ, WellNumbered (consecutive orig) count ∧
    count ≤ (Finset.univ.image orig).card := by
  have h := consecutive_renumbered orig
  set B := (List.finRange N).foldl Remap.step ⟨fun _ => none, 0, orig⟩
  have hrange : ∀ v, (∃ i, consecutive orig i = v) ↔ 0 ≤ v ∧ v < B.nextId := by
    intro v
    constructor
    · rintro ⟨i, rfl⟩
      exact h.range _ _ (h.known i (List.mem_finRange i))
    · rintro ⟨hv, hlt⟩
      obtain ⟨j, -, hl⟩ := h.used v hv hlt
      exact ⟨j, hl⟩
  have himage : Finset.univ.image (consecutive orig) = Finset.Ico 0 B.nextId := by
    ext v
    simp only [Finset.mem_image, Finset.mem_univ, true_and, Finset.mem_Ico]
    exact hrange v
  have hlookup : consecutive orig = (fun v => (B.remap v).getD 0) ∘ orig := by
    funext i
    rw [Function.comp_apply, h.known i (List.mem_finRange i)]
    rfl
  have hcard : (Finset.univ.image (consecutive orig)).card ≤ (Finset.univ.image orig).card := by
    rw [hlookup, ← Finset.image_image]
    exact Finset.card_image_le
  refine ⟨B.nextId.toNat, ⟨fun v => ?_, fun i v hv hlt => ?_⟩, ?_⟩
  · rw [hrange]
    omega
  · obtain ⟨j, -, hj, hl⟩ := h.first i (List.mem_finRange i) v hv hlt
    exact ⟨j, hj, hl⟩
  · rwa [himage, Int.card_Ico, sub_zero] at hcard

end Numbering

section Choice

/-- The first of the kept speakers whose responsibility no other kept one exceeds. -/
def FirstLargest (gamma : Fin K → Value) (kept : List (Fin K)) (k : Fin K) : Prop :=
  ∃ before after, kept = before ++ k :: after ∧ (∀ l ∈ kept, (gamma k).lt (gamma l) = false) ∧
    ∀ l ∈ before, (gamma l).lt (gamma k) = true

theorem FirstLargest.unique {gamma : Fin K → Value} {kept : List (Fin K)} {k l : Fin K}
    (hk : FirstLargest gamma kept k) (hl : FirstLargest gamma kept l) : k = l := by
  obtain ⟨before, after, hkept, hall, hbefore⟩ := hk
  obtain ⟨before', after', hkept', hall', hbefore'⟩ := hl
  -- one of the two stands before the other one, or they stand at one place
  have hsplit := hkept.symm.trans hkept'
  rcases List.append_eq_append_iff.1 hsplit with ⟨as, rfl, hcons⟩ | ⟨bs, rfl, hcons⟩
  · cases as with
    | nil => exact (List.cons.inj hcons).1
    | cons a as =>
      obtain ⟨rfl, -⟩ := List.cons.inj hcons
      have hlt := hbefore' k (by simp)
      rw [hall l (by rw [hkept']; simp)] at hlt
      cases hlt
  · cases bs with
    | nil => exact (List.cons.inj hcons).1.symm
    | cons b bs =>
      obtain ⟨rfl, -⟩ := List.cons.inj hcons
      have hlt := hbefore l (by simp)
      rw [hall' k (by rw [hkept]; simp)] at hlt
      cases hlt

/-- All numbers, or none. -/
def Uniform (gamma : Fin K → Value) : Prop :=
  (∀ k, gamma k = .nan) ∨ ∀ k, (gamma k).isnan = false

theorem value_lt_trans {a b c : Value} (hab : a.lt b = true) (hbc : b.lt c = true) : a.lt c = true := by
  cases a <;> cases b <;> cases c <;> simp_all [ExactFloat.lt]
  exact hab.trans hbc

theorem value_lt_of_not_lt {a b c : Value} (ha : a.isnan = false) (hba : b.lt a = false) (hbc : b.lt c = true) :
    a.lt c = true := by
  cases a <;> cases b <;> cases c <;> simp_all [ExactFloat.lt, isnan]
  exact lt_of_le_of_lt hba hbc

theorem value_lt_irrefl (a : Value) : a.lt a = false := by
  cases a <;> simp [ExactFloat.lt]

theorem value_lt_asymm {a b : Value} (h : a.lt b = true) : b.lt a = false := by
  by_contra hba
  rw [Bool.not_eq_false] at hba
  have hloop := value_lt_trans h hba
  rw [value_lt_irrefl] at hloop
  cases hloop

theorem foldl_better {gamma : Fin K → Value} (hnum : ∀ k, (gamma k).isnan = false) (l : List (Fin K)) (b : Fin K) :
    ∃ before after, b :: l = before ++ l.foldl (better gamma) b :: after ∧
      (∀ k ∈ before, (gamma k).lt (gamma (l.foldl (better gamma) b)) = true) ∧
      ∀ k ∈ after, (gamma (l.foldl (better gamma) b)).lt (gamma k) = false := by
  induction l generalizing b with
  | nil => exact ⟨[], [], rfl, by simp, by simp⟩
  | cons a l ih =>
    rw [List.foldl_cons]
    by_cases hab : (gamma b).lt (gamma a) = true
    · rw [better, if_pos hab]
      obtain ⟨before, after, hl, hbefore, hafter⟩ := ih a
      refine ⟨b :: before, after, by rw [hl, List.cons_append], fun k hk => ?_, hafter⟩
      rcases List.mem_cons.1 hk with rfl | hk
      · cases before with
        | nil =>
          rw [← (List.cons.inj hl).1]
          exact hab
        | cons c before =>
          have hc := hbefore c List.mem_cons_self
          rw [← (List.cons.inj hl).1] at hc
          exact value_lt_trans hab hc
      · exact hbefore k hk
    · rw [better, if_neg hab]
      obtain ⟨before, after, hl, hbefore, hafter⟩ := ih b
      cases before with
      | nil =>
        obtain ⟨hb, rfl⟩ := List.cons.inj hl
        rw [← hb] at hafter ⊢
        refine ⟨[], a :: l, rfl, by simp, fun k hk => ?_⟩
        rcases List.mem_cons.1 hk with rfl | hk
        · simpa using hab
        · exact hafter k hk
      | cons c before =>
        obtain ⟨rfl, hrest⟩ := List.cons.inj hl
        refine ⟨b :: a :: before, after, congrArg (fun l => b :: a :: l) hrest, fun k hk => ?_, hafter⟩
        rcases List.mem_cons.1 hk with rfl | hk
        · exact hbefore k List.mem_cons_self
        · rcases List.mem_cons.1 hk with rfl | hk
          · exact value_lt_of_not_lt (hnum k) (by simpa using hab) (hbefore b List.mem_cons_self)
          · exact hbefore k (List.mem_cons_of_mem _ hk)

theorem Keep.best_firstLargest (kept : Keep K) {gamma : Fin K → Value} (h : Uniform gamma) :
    FirstLargest gamma kept.speakers (kept.best gamma) := by
  obtain ⟨speakers, nonempty⟩ := kept
  cases speakers with
  | nil => exact absurd rfl nonempty
  | cons b l =>
    change FirstLargest gamma (b :: l) (l.foldl (better gamma) b)
    rcases h with hnan | hnum
    · have hfirst : l.foldl (better gamma) b = b := by
        refine List.foldl_fixed' (fun k => ?_) l
        rw [better, hnan b]
        rfl
      rw [hfirst]
      refine ⟨[], l, rfl, fun k _ => ?_, by simp⟩
      rw [hnan b]
      rfl
    · obtain ⟨before, after, hl, hbefore, hafter⟩ := foldl_better hnum l b
      refine ⟨before, after, hl, fun k hk => ?_, hbefore⟩
      rw [hl] at hk
      rcases List.mem_append.1 hk with hk | hk
      · exact value_lt_asymm (hbefore k hk)
      · rcases List.mem_cons.1 hk with rfl | hk
        · exact value_lt_irrefl _
        · exact hafter k hk

end Choice

section Rows

theorem foldl_raise (f : Fin K → Value) (l : List (Fin K)) {m : Value} (hm : m.isnan = false) :
    (l.foldl (raise f) m = m ∨ ∃ k ∈ l, l.foldl (raise f) m = f k ∧ m.lt (f k) = true) ∧
      ∀ k ∈ l, (l.foldl (raise f) m).lt (f k) = false := by
  induction l generalizing m with
  | nil => exact ⟨.inl rfl, by simp⟩
  | cons a l ih =>
    rw [List.foldl_cons]
    by_cases hlt : m.lt (f a) = true
    · have hnum : (f a).isnan = false := by
        cases hfa : f a <;> rw [hfa] at hlt <;> cases m <;> first | rfl | cases hlt
      rw [raise, if_pos hlt]
      obtain ⟨hwhere, hall⟩ := ih hnum
      refine ⟨.inr ?_, fun k hk => ?_⟩
      · rcases hwhere with hfix | ⟨k, hk, heq, hup⟩
        · exact ⟨a, List.mem_cons_self, hfix, hlt⟩
        · exact ⟨k, List.mem_cons_of_mem _ hk, heq, value_lt_trans hlt hup⟩
      · rcases List.mem_cons.1 hk with rfl | hk
        · rcases hwhere with hfix | ⟨j, -, heq, hup⟩
          · rw [hfix]
            exact value_lt_irrefl _
          · rw [heq]
            exact value_lt_asymm hup
        · exact hall k hk
    · rw [raise, if_neg hlt]
      rw [Bool.not_eq_true] at hlt
      obtain ⟨hwhere, hall⟩ := ih hm
      refine ⟨hwhere.imp_right (fun ⟨k, hk, h⟩ => ⟨k, List.mem_cons_of_mem _ hk, h⟩), fun k hk => ?_⟩
      rcases List.mem_cons.1 hk with rfl | hk
      · rcases hwhere with hfix | ⟨j, -, heq, hup⟩
        · rw [hfix]
          exact hlt
        · by_contra hover
          rw [Bool.not_eq_false, heq] at hover
          rw [value_lt_trans hup hover] at hlt
          cases hlt
      · exact hall k hk

/-- A number that is `-1e20` at least, and that no value of the row exceeds. -/
theorem maxLoop_spec (f : Fin K → Value) :
    (maxLoop f = finite (-1e20) ∨ ∃ k, maxLoop f = f k ∧ (finite (-1e20)).lt (f k) = true) ∧
      ∀ k, (maxLoop f).lt (f k) = false := by
  obtain ⟨hwhere, hall⟩ := foldl_raise f (List.finRange K) (m := finite (-1e20)) rfl
  exact ⟨hwhere.imp_right (fun ⟨k, _, h⟩ => ⟨k, h⟩), fun k => hall k (List.mem_finRange k)⟩

/-- NaN, or a number that is not negative. -/
def Weightlike (a : Value) : Prop := a = .nan ∨ ∃ x : ℝ, 0 ≤ x ∧ a = finite x

theorem exp_sub_max (f : Fin K → Value) (k : Fin K) : Weightlike (f k - maxLoop f).exp := by
  obtain ⟨hwhere, hall⟩ := maxLoop_spec f
  have hmax : maxLoop f = .inf false ∨ ∃ x, maxLoop f = finite x := by
    rcases hwhere with h | ⟨j, h, hup⟩
    · exact .inr ⟨_, h⟩
    · rw [h]
      cases hj : f j with
      | nan =>
        rw [hj] at hup
        cases hup
      | inf negative =>
        rw [hj] at hup
        cases negative with
        | false => exact .inl rfl
        | true => cases hup
      | finite x => exact .inr ⟨x, rfl⟩
  have hover := hall k
  rcases hmax with h | ⟨x, h⟩ <;> rw [h] at hover ⊢
  · cases f k with
    | nan => exact .inl rfl
    | inf negative =>
      cases negative with
      | true => exact .inr ⟨0, le_rfl, rfl⟩
      | false => exact .inl rfl
    | finite y => exact .inr ⟨0, le_rfl, rfl⟩
  · cases hk : f k with
    | nan => exact .inl rfl
    | inf negative =>
      cases negative with
      | true => exact .inr ⟨0, le_rfl, rfl⟩
      | false =>
        rw [hk] at hover
        cases hover
    | finite y => exact .inr ⟨Real.exp (y - x), (Real.exp_pos _).le, by rw [finite_sub, finite_exp]⟩

theorem sumLoop_weightlike {f : Fin K → Value} (h : ∀ k, Weightlike (f k)) :
    sumLoop f = .nan ∨ ∃ g : Fin K → ℝ, (∀ k, 0 ≤ g k) ∧ (∀ k, f k = finite (g k)) ∧ sumLoop f = finite (∑ k, g k) := by
  by_cases hnan : ∃ k, f k = .nan
  · obtain ⟨k, hk⟩ := hnan
    left
    obtain ⟨l, r, hlr⟩ := List.append_of_mem (List.mem_finRange k)
    unfold sumLoop
    rw [hlr, List.foldl_append, List.foldl_cons, hk]
    have hstick : ∀ a : Value, a + .nan = .nan := fun a => by cases a <;> rfl
    rw [hstick]
    exact List.foldl_fixed' (fun _ => rfl) r
  · right
    have hnum : ∀ k, ∃ x : ℝ, 0 ≤ x ∧ f k = finite x := fun k => (h k).resolve_left (fun hk => hnan ⟨k, hk⟩)
    choose g hg using hnum
    exact ⟨g, fun k => (hg k).1, fun k => (hg k).2, sumLoop_finite (fun k => (hg k).2)⟩

theorem nextGamma_uniform (P : Problem N D) (params : VbxParams) (s : VbState N K) (i : Fin N) :
    Uniform (nextGamma P params s i) := by
  rcases sumLoop_weightlike (fun k => exp_sub_max (logProbs P params s i) k) with hnan | ⟨g, hg, hf, hsum⟩
  · left
    intro k
    have hdiv : ∀ a : Value, a / (.nan + eps) = .nan := fun a => by cases a <;> rfl
    change _ / (sumProb P params s i + eps) = _
    rw [show sumProb P params s i = .nan from hnan, hdiv]
  · right
    intro k
    have hpos : (∑ k, g k + 1e-8 : ℝ) ≠ 0 := by
      have := Finset.sum_nonneg (fun k (_ : k ∈ Finset.univ) => hg k)
      positivity
    change (weight P params s i k / (sumProb P params s i + eps)).isnan = false
    rw [show weight P params s i k = finite (g k) from hf k,
      show sumProb P params s i = finite (∑ k, g k) from hsum, eps, finite_add, finite_div _ hpos]
    rfl

theorem startGamma_uniform (params : VbxParams) (labels : Fin N → ℤ) (i : Fin N) :
    Uniform (startGamma (K := K) params labels i) := by
  unfold startGamma
  split
  · change Uniform (smoothRow params.initSmoothing (initGamma labels i))
    rcases sumLoop_weightlike (fun k => exp_sub_max (fun k : Fin K => initGamma labels i k * params.initSmoothing) k)
      with hnan | ⟨g, hg, hf, hsum⟩
    · left
      intro k
      have hmul : ∀ a : Value, a * (finite 1 / (.nan + finite 1e-8)) = .nan := fun a => by cases a <;> rfl
      unfold smoothRow
      dsimp only
      rw [hnan, hmul]
    · right
      intro k
      have hpos : (∑ k, g k + 1e-8 : ℝ) ≠ 0 := by
        have := Finset.sum_nonneg (fun k (_ : k ∈ Finset.univ) => hg k)
        positivity
      unfold smoothRow
      dsimp only
      rw [hsum, hf k, finite_add, finite_div _ hpos, finite_mul]
      rfl
  · right
    intro k
    unfold initGamma
    split <;> rfl

variable (P : Problem N D) (params : VbxParams)

theorem mem_iterations {left iter : ℕ} {s u : VbState N K} {prevElbo : Value}
    (h : u ∈ iterations P params left iter s prevElbo) : ∃ t, u = next P params t := by
  induction left generalizing iter s prevElbo with
  | zero => cases h
  | succ left ih =>
    rw [iterations] at h
    split at h
    · exact ⟨s, List.mem_singleton.1 h⟩
    · rcases List.mem_cons.1 h with rfl | h
      · exact ⟨s, rfl⟩
      · exact ih h

theorem vbFinal_cases (start : VbState N K) :
    vbFinal P params start = start ∨ vbFinal P params start ∈ vbStates P params start := by
  unfold vbFinal
  cases hstates : vbStates P params start with
  | nil => exact .inl rfl
  | cons u rest =>
    right
    rw [List.getLastD_cons]
    exact List.getLastD_mem_cons

theorem vbFinal_uniform (labels : Fin N → ℤ) (i : Fin N) :
    Uniform ((vbFinal P params (startState (K := K) params labels)).gamma i) := by
  rcases vbFinal_cases P params (startState (K := K) params labels) with hstart | hmem
  · rw [hstart]
    exact startGamma_uniform params labels i
  · obtain ⟨t, ht⟩ := mem_iterations P params hmem
    rw [ht]
    exact nextGamma_uniform P params t i

end Rows

section Labels

/-- For any arrays: consecutive labels, not more than speakers, that tell apart what the loop chooses. -/
theorem finalLabels_wellNumbered (s : VbState N K) (h : 0 < K) :
    ∃ count ≤ K, WellNumbered (finalLabels s h) count := by
  obtain ⟨count, hnumbered, hcount⟩ := consecutive_wellNumbered
    (fun i => (((keep s.pi h).best (s.gamma i) : ℕ) : ℤ))
  refine ⟨count, hcount.trans ?_, hnumbered⟩
  have hsub : Finset.univ.image (fun i => (((keep s.pi h).best (s.gamma i) : ℕ) : ℤ)) ⊆ Finset.Ico 0 (K : ℤ) := by
    intro v hv
    obtain ⟨i, -, rfl⟩ := Finset.mem_image.1 hv
    have := ((keep s.pi h).best (s.gamma i)).isLt
    rw [Finset.mem_Ico]
    omega
  have hle := Finset.card_le_card hsub
  rw [Int.card_Ico] at hle
  omega

theorem finalLabels_eq_iff {s : VbState N K} (h : 0 < K) (huniform : ∀ i, Uniform (s.gamma i)) (i j : Fin N) :
    finalLabels s h i = finalLabels s h j ↔
      ∃ k, FirstLargest (s.gamma i) (keepList s.pi) k ∧ FirstLargest (s.gamma j) (keepList s.pi) k := by
  have hi := (keep s.pi h).best_firstLargest (huniform i)
  have hj := (keep s.pi h).best_firstLargest (huniform j)
  unfold finalLabels
  rw [consecutive_eq_iff]
  constructor
  · intro heq
    have hbest : (keep s.pi h).best (s.gamma i) = (keep s.pi h).best (s.gamma j) := by
      apply Fin.ext
      exact_mod_cast heq
    rw [← hbest] at hj
    exact ⟨_, hi, hj⟩
  · rintro ⟨k, hki, hkj⟩
    rw [hi.unique hki, hj.unique hkj]

theorem foldl_coverLabel (labels : Fin N → ℤ) (l : List (Fin N)) (K : ℤ) :
    K ≤ l.foldl (coverLabel labels) K ∧ (∀ i ∈ l, labels i + 1 ≤ l.foldl (coverLabel labels) K) ∧
      (l.foldl (coverLabel labels) K = K ∨ ∃ i ∈ l, l.foldl (coverLabel labels) K = labels i + 1) := by
  induction l generalizing K with
  | nil => exact ⟨le_rfl, by simp, .inl rfl⟩
  | cons a l ih =>
    obtain ⟨hle, hall, hwhere⟩ := ih (coverLabel labels K a)
    rw [List.foldl_cons]
    refine ⟨(le_max_left _ _).trans hle, fun i hi => ?_, ?_⟩
    · rcases List.mem_cons.1 hi with rfl | hi
      · exact (le_max_right _ _).trans hle
      · exact hall i hi
    · rcases hwhere with h | ⟨i, hi, h⟩
      · rcases (max_choice K (labels a + 1) : coverLabel labels K a = _ ∨ _) with hmax | hmax
        · exact .inl (h.trans hmax)
        · exact .inr ⟨a, List.mem_cons_self, h.trans hmax⟩
      · exact .inr ⟨i, List.mem_cons_of_mem _ hi, h⟩

theorem kInit_eq {labels : Fin N → ℤ} {count : ℕ} (h : WellNumbered labels count) : kInit labels = count := by
  obtain ⟨hzero, hall, hwhere⟩ := foldl_coverLabel labels (List.finRange N) 0
  apply le_antisymm
  · rcases hwhere with hnone | ⟨i, -, hi⟩
    · exact hnone.le.trans (Int.natCast_nonneg count)
    · have := (h.range (labels i)).1 ⟨i, rfl⟩
      exact hi.trans_le (by omega)
  · rcases Nat.eq_zero_or_pos count with rfl | hpos
    · exact hzero
    · obtain ⟨i, hi⟩ := (h.range (count - 1)).2 (by omega)
      have := hall i (List.mem_finRange i)
      unfold kInit
      omega

/-- The labels are consecutive in the order in which they are met, there are no more of them than initial
    clusters, and two embeddings share one if one speaker is the first to attain the largest of the kept
    responsibilities of both. -/
theorem clusterVbx_labels (rawEmbeddings : Fin N → Fin dim → Value) (P : Problem N D) (params : VbxParams) :
    ∃ initCount count : ℕ, WellNumbered (simpleAhcFloat rawEmbeddings params.threshold) initCount ∧
      WellNumbered (clusterVbx P rawEmbeddings params) count ∧ count ≤ initCount ∧
      (initCount ≤ 1 → ∀ i j, clusterVbx P rawEmbeddings params i = clusterVbx P rawEmbeddings params j) ∧
      (1 < initCount →
        let final := vbFinal P params (clusterStart params (simpleAhcFloat rawEmbeddings params.threshold))
        (∀ i, ∃ k, FirstLargest (final.gamma i) (keepList final.pi) k) ∧
        ∀ i j, clusterVbx P rawEmbeddings params i = clusterVbx P rawEmbeddings params j ↔
          ∃ k, FirstLargest (final.gamma i) (keepList final.pi) k ∧
            FirstLargest (final.gamma j) (keepList final.pi) k) := by
  obtain ⟨initCount, hinit⟩ : ∃ count, WellNumbered (simpleAhcFloat rawEmbeddings params.threshold) count :=
    ⟨_, simpleAhcFloat_wellNumbered rawEmbeddings params.threshold⟩
  have hk := kInit_eq hinit
  rcases Nat.eq_zero_or_pos N with rfl | hN
  · have hzero : initCount = 0 := by
      by_contra hne
      obtain ⟨i, -⟩ := (hinit.range 0).2 (by omega)
      exact i.elim0
    exact ⟨initCount, initCount, hinit, ⟨fun v => ⟨fun ⟨i, _⟩ => i.elim0, fun h => by omega⟩, fun i => i.elim0⟩,
      le_rfl, fun _ i => i.elim0, fun h => by omega⟩
  · by_cases hone : kInit (simpleAhcFloat rawEmbeddings params.threshold) ≤ 1
    · have heq : clusterVbx P rawEmbeddings params = simpleAhcFloat rawEmbeddings params.threshold := by
        unfold clusterVbx
        rw [if_neg hN.ne']
        exact dif_pos hone
      rw [heq]
      refine ⟨initCount, initCount, hinit, hinit, le_rfl, fun _ i j => ?_, fun h => by omega⟩
      have hi := (hinit.range _).1 ⟨i, rfl⟩
      have hj := (hinit.range _).1 ⟨j, rfl⟩
      omega
    · have hpos : 0 < (kInit (simpleAhcFloat rawEmbeddings params.threshold)).toNat := by omega
      have heq : clusterVbx P rawEmbeddings params =
          finalLabels (vbFinal P params (clusterStart params (simpleAhcFloat rawEmbeddings params.threshold))) hpos := by
        unfold clusterVbx
        rw [if_neg hN.ne']
        exact dif_neg hone
      rw [heq]
      obtain ⟨count, hle, hnumbered⟩ := finalLabels_wellNumbered
        (vbFinal P params (clusterStart params (simpleAhcFloat rawEmbeddings params.threshold))) hpos
      have huniform := vbFinal_uniform (K := (kInit (simpleAhcFloat rawEmbeddings params.threshold)).toNat) P params
        (simpleAhcFloat rawEmbeddings params.threshold)
      refine ⟨initCount, count, hinit, hnumbered, by omega, fun h => by omega, fun _ => ⟨fun i => ?_, fun i j => ?_⟩⟩
      · exact ⟨_, (keep _ hpos).best_firstLargest (huniform i)⟩
      · exact finalLabels_eq_iff hpos huniform i j

end Labels

end PyannoteCpp.ClusterVbx
