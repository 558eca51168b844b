import PyannoteCpp.ContextAllocRanges

set_option autoImplicit false

/-!
# Where the tensors of a context are placed

The sizes that a call asks for add up to what it hands out. A tensor larger than
the largest buffer closes its range at once, and the tensors after it are left
alone when none of them needs bytes.
-/
namespace PyannoteCpp.ContextAlloc
open CheckedLoops

def exactPad (x n : ℕ) : ℕ := (x + n - 1) / n * n

def needed (buft : BufferType) (i : ℕ) (t : CtxTensor) : ℕ :=
  if t.data = 0 ∧ t.viewSrc = none then exactPad (ggmlBackendBuftGetAllocSize buft i t) buft.alignment else 0

def neededAt (buft : BufferType) (tensors : List CtxTensor) (j : ℕ) : ℕ := tensors[j]?.elim 0 (needed buft j)

def neededRange (buft : BufferType) (tensors : List CtxTensor) (lo hi : ℕ) : ℕ :=
  ∑ j ∈ Finset.Ico lo hi, neededAt buft tensors j

variable {backend : Backend} {buft : BufferType} {orig tensors : List CtxTensor} {i j lo hi x n m : ℕ} {t : CtxTensor}

section Padding

theorem exactPad_le (hn : 0 < n) (h : n ∣ m) (hx : x ≤ m) : exactPad x n ≤ m := by
  obtain ⟨q, rfl⟩ := h
  have hlt : (x + n - 1) / n < q + 1 := by
    rw [Nat.div_lt_iff_lt_mul hn, Nat.add_mul, Nat.one_mul, Nat.mul_comm q]
    omega
  rw [exactPad, Nat.mul_comm n q]
  exact Nat.mul_le_mul_right n (by omega)

theorem le_exactPad (hn : 0 < n) (x : ℕ) : x ≤ exactPad x n := by
  have h := lt_pad_add hn x
  unfold exactPad
  omega

end Padding

section Exact

theorem neededRange_succ (h : lo ≤ hi) :
    neededRange buft tensors lo (hi + 1) = neededRange buft tensors lo hi + neededAt buft tensors hi :=
  Finset.sum_Ico_succ_top h _

theorem rangeSize_mono {lo' hi' : ℕ} (hlo : lo' ≤ lo) (hhi : hi ≤ hi') :
    rangeSize buft tensors lo hi ≤ rangeSize buft tensors lo' hi' :=
  Finset.sum_le_sum_of_subset (Finset.Ico_subset_Ico hlo hhi)

theorem sizeAt_le_rangeSize (hlo : lo ≤ j) (hhi : j < hi) : sizeAt buft tensors j ≤ rangeSize buft tensors lo hi :=
  Finset.single_le_sum (f := sizeAt buft tensors) (fun _ _ => Nat.zero_le _) (Finset.mem_Ico.2 ⟨hlo, hhi⟩)

theorem sizeAt_eq_zero (h : tensors.length ≤ j) : sizeAt buft tensors j = 0 := by
  rw [sizeAt, List.getElem?_eq_none h, Option.elim_none]

theorem sizeAt_dvd : buft.alignment ∣ sizeAt buft tensors j := by
  unfold sizeAt thisSize ggmlPad
  cases tensors[j]? with
  | none => exact dvd_zero _
  | some t =>
    rw [Option.elim_some]
    split_ifs
    · exact Dvd.intro_left _ rfl
    · exact dvd_zero _

theorem wrap64_rangeSize_dvd (hdvd : buft.alignment ∣ 2 ^ 64) : buft.alignment ∣ wrap64 (rangeSize buft tensors lo hi) :=
  (Nat.dvd_mod_iff hdvd).2 (Finset.dvd_sum (fun _ _ => sizeAt_dvd))

variable (hal : 0 < buft.alignment) (hdvd : buft.alignment ∣ 2 ^ 64)
include hal hdvd

theorem sizeAt_eq_neededAt (h : neededAt buft tensors j < 2 ^ 64) : sizeAt buft tensors j = neededAt buft tensors j := by
  unfold sizeAt neededAt at *
  cases ht : tensors[j]? with
  | none => rfl
  | some t =>
    rw [ht, Option.elim_some, needed] at h
    rw [Option.elim_some, Option.elim_some, thisSize, needed]
    split_ifs at h ⊢
    · exact ggmlPad_eq hal hdvd h
    · rfl

theorem rangeSize_exact (hT : neededRange buft tensors 0 tensors.length < 2 ^ 64) (hhi : hi ≤ tensors.length) :
    rangeSize buft tensors lo hi = neededRange buft tensors lo hi ∧ rangeSize buft tensors lo hi < 2 ^ 64 := by
  have hall : ∀ j ∈ Finset.Ico lo hi, sizeAt buft tensors j = neededAt buft tensors j := fun j hj => by
    have hle : neededAt buft tensors j ≤ neededRange buft tensors 0 tensors.length :=
      Finset.single_le_sum (f := neededAt buft tensors) (fun _ _ => Nat.zero_le _)
        (Finset.mem_Ico.2 ⟨Nat.zero_le _, (Finset.mem_Ico.1 hj).2.trans_le hhi⟩)
    exact sizeAt_eq_neededAt hal hdvd (hle.trans_lt hT)
  have heq : rangeSize buft tensors lo hi = neededRange buft tensors lo hi := Finset.sum_congr rfl hall
  have hsub : neededRange buft tensors lo hi ≤ neededRange buft tensors 0 tensors.length :=
    Finset.sum_le_sum_of_subset (Finset.Ico_subset_Ico (Nat.zero_le _) hhi)
  exact ⟨heq, heq.trans_lt (hsub.trans_lt hT)⟩

end Exact

section Splits

theorem cut_succ_cases (buft : BufferType) (tensors : List CtxTensor) (n : ℕ) :
    (0 < (cut buft tensors n).cur ∧
        ggmlBackendBuftGetMaxSize buft < wrap64 ((cut buft tensors n).cur + sizeAt buft tensors n) ∧
        (cut buft tensors (n + 1)).first = n ∧ (cut buft tensors (n + 1)).cur = sizeAt buft tensors n) ∨
      (((cut buft tensors n).cur = 0 ∨
          wrap64 ((cut buft tensors n).cur + sizeAt buft tensors n) ≤ ggmlBackendBuftGetMaxSize buft) ∧
        (cut buft tensors (n + 1)).first = (cut buft tensors n).first ∧
        (cut buft tensors (n + 1)).cur = wrap64 ((cut buft tensors n).cur + sizeAt buft tensors n)) := by
  by_cases hsplit : 0 < (cut buft tensors n).cur ∧
    ggmlBackendBuftGetMaxSize buft < wrap64 ((cut buft tensors n).cur + sizeAt buft tensors n)
  · refine .inl ⟨hsplit.1, hsplit.2, ?_, ?_⟩
    all_goals rw [cut, if_pos hsplit]
  · refine .inr ⟨by omega, ?_, ?_⟩
    all_goals rw [cut, if_neg hsplit]

theorem cut_first_eq_zero : (cut buft tensors n).first = 0 ↔ ∀ i < n, wrap64 (rangeSize buft tensors 0 i) = 0 ∨
    wrap64 (rangeSize buft tensors 0 (i + 1)) ≤ ggmlBackendBuftGetMaxSize buft := by
  induction n with
  | zero => exact iff_of_true rfl (fun i hi => absurd hi (Nat.not_lt_zero i))
  | succ n ih =>
    have hstep : (cut buft tensors (n + 1)).first = 0 ↔ (cut buft tensors n).first = 0 ∧
        (wrap64 (rangeSize buft tensors 0 n) = 0 ∨
          wrap64 (rangeSize buft tensors 0 (n + 1)) ≤ ggmlBackendBuftGetMaxSize buft) := by
      have hcur := (@cut_cur buft tensors n).2
      have hopen (h : (cut buft tensors n).first = 0) : wrap64 ((cut buft tensors n).cur + sizeAt buft tensors n) =
          wrap64 (rangeSize buft tensors 0 (n + 1)) := by
        rw [hcur, h, wrap64_add, rangeSize_succ (Nat.zero_le n)]
      rcases cut_succ_cases buft tensors n with ⟨hpos, hmax, hfirst, -⟩ | ⟨hkept, hfirst, -⟩
      · have hn : n ≠ 0 := fun hzero => by
          subst hzero
          exact absurd hpos (lt_irrefl 0)
        refine iff_of_false (fun h => hn (hfirst.symm.trans h)) (fun h => ?_)
        rw [hopen h.1] at hmax
        rw [h.1] at hcur
        omega
      · rw [hfirst]
        refine ⟨fun h => ⟨h, ?_⟩, And.left⟩
        rw [hopen h] at hkept
        rw [h] at hcur
        omega
    rw [hstep, ih]
    constructor
    · rintro ⟨hold, hnew⟩ i hi
      rcases Nat.lt_succ_iff_lt_or_eq.1 hi with hlt | rfl
      · exact hold i hlt
      · exact hnew
    · exact fun h => ⟨fun i hi => h i (by omega), h n (Nat.lt_succ_self n)⟩

variable (hal : 0 < buft.alignment) (hdvd : buft.alignment ∣ 2 ^ 64)
  (hT : neededRange buft tensors 0 tensors.length < 2 ^ 64)
include hal hdvd hT

theorem cut_exact (hn : n ≤ tensors.length) :
    (cut buft tensors n).cur = rangeSize buft tensors (cut buft tensors n).first n := by
  rw [(cut_cur n).2, wrap64_of_lt (rangeSize_exact hal hdvd hT hn).2]

theorem cut_succ_exact (hn : n < tensors.length) :
    wrap64 ((cut buft tensors n).cur + sizeAt buft tensors n) = (cut buft tensors n).cur + sizeAt buft tensors n := by
  have hsum := @rangeSize_succ buft tensors (cut buft tensors n).first n (cut_cur n).1
  rw [cut_exact hal hdvd hT hn.le, ← hsum, wrap64_of_lt (rangeSize_exact hal hdvd hT hn).2]

/-- A range that does not fit in the largest buffer holds one tensor with bytes. -/
theorem cut_fits (hn : n ≤ tensors.length) : (cut buft tensors n).cur ≤ ggmlBackendBuftGetMaxSize buft ∨
    ∀ j k, (cut buft tensors n).first ≤ j → j < n → (cut buft tensors n).first ≤ k → k < n →
      0 < sizeAt buft tensors j → 0 < sizeAt buft tensors k → j = k := by
  cases n with
  | zero => exact .inr (fun j k _ hj => absurd hj (Nat.not_lt_zero j))
  | succ n =>
    have hexact := cut_exact hal hdvd hT (Nat.le_of_succ_le hn)
    have hwrap := cut_succ_exact hal hdvd hT hn
    rcases cut_succ_cases buft tensors n with ⟨-, -, hfirst, -⟩ | ⟨hkept, hfirst, hcur⟩
    · exact .inr (fun j k hj hj' hk hk' _ _ => by omega)
    · by_cases hnone : (cut buft tensors n).cur = 0
      · -- the tensors before the last one have no bytes
        have hlast : ∀ j, (cut buft tensors n).first ≤ j → j < n + 1 → 0 < sizeAt buft tensors j → j = n :=
          fun j hj hj' hpos => by
            by_contra hne
            have hle : sizeAt buft tensors j ≤ rangeSize buft tensors (cut buft tensors n).first n :=
              sizeAt_le_rangeSize hj (by omega)
            omega
        refine .inr (fun j k hj hj' hk hk' hjpos hkpos => ?_)
        rw [hfirst] at hj hk
        exact (hlast j hj hj' hjpos).trans (hlast k hk hk' hkpos).symm
      · exact .inl (by omega)

/-- An open range without bytes comes after a tensor that is larger than the largest buffer. -/
theorem cut_tail (hn : n ≤ tensors.length) (hfirst : 0 < (cut buft tensors n).first) (hcur : (cut buft tensors n).cur = 0) :
    ∃ i < (cut buft tensors n).first, ggmlBackendBuftGetMaxSize buft < sizeAt buft tensors i ∧
      ∀ j, i < j → j < n → sizeAt buft tensors j = 0 := by
  induction n with
  | zero => exact absurd hfirst (lt_irrefl 0)
  | succ n ih =>
    have hle := Nat.le_of_succ_le hn
    have hexact := cut_exact hal hdvd hT hle
    have hwrap := cut_succ_exact hal hdvd hT hn
    rcases cut_succ_cases buft tensors n with ⟨hpos, hmax, hfirst', hcur'⟩ | ⟨-, hfirst', hcur'⟩
    · have hsingle := (cut_fits hal hdvd hT hle).resolve_left (by omega)
      have hsum : ∑ j ∈ Finset.Ico (cut buft tensors n).first n, sizeAt buft tensors j ≠ 0 := by
        change rangeSize buft tensors _ _ ≠ 0
        omega
      obtain ⟨i, hi, hpos'⟩ := Finset.exists_ne_zero_of_sum_ne_zero hsum
      obtain ⟨hlo, hhi⟩ := Finset.mem_Ico.1 hi
      have hothers : ∀ j, (cut buft tensors n).first ≤ j → j < n → j ≠ i → sizeAt buft tensors j = 0 := fun j hj hj' hne => by
        by_contra hjpos
        exact hne (hsingle j i hj hj' hlo hhi (Nat.pos_of_ne_zero hjpos) (Nat.pos_of_ne_zero hpos'))
      have hall : rangeSize buft tensors (cut buft tensors n).first n = sizeAt buft tensors i :=
        Finset.sum_eq_single i (fun j hj hne => hothers j (Finset.mem_Ico.1 hj).1 (Finset.mem_Ico.1 hj).2 hne)
          (fun hnot => absurd hi hnot)
      refine ⟨i, by omega, by omega, fun j hij hj => ?_⟩
      by_cases hjn : j = n
      · rw [hjn, ← hcur', hcur]
      · exact hothers j (by omega) (by omega) (by omega)
    · obtain ⟨i, hi, hmax, hzero⟩ := ih hle (by omega) (by omega)
      refine ⟨i, by omega, hmax, fun j hij hj => ?_⟩
      by_cases hjn : j = n
      · rw [hjn]
        omega
      · exact hzero j hij (by omega)

theorem cut_after (hmax : ggmlBackendBuftGetMaxSize buft < sizeAt buft tensors i)
    (hzero : ∀ j, i < j → sizeAt buft tensors j = 0) (hn : i + 2 + n ≤ tensors.length) :
    (cut buft tensors (i + 2 + n)).first = i + 1 ∧ (cut buft tensors (i + 2 + n)).cur = 0 := by
  induction n with
  | zero =>
    have hwrap := cut_succ_exact hal hdvd hT (show i < tensors.length by omega)
    have hwrap' := cut_succ_exact hal hdvd hT (show i + 1 < tensors.length by omega)
    have hnext := hzero (i + 1) (Nat.lt_succ_self i)
    have hone : (cut buft tensors (i + 1)).cur = sizeAt buft tensors i := by
      rcases cut_succ_cases buft tensors i with ⟨-, -, -, hcur⟩ | ⟨hkept, -, hcur⟩
      · exact hcur
      · omega
    rcases cut_succ_cases buft tensors (i + 1) with ⟨-, -, hfirst, hcur⟩ | ⟨hkept, -, hcur⟩
    · exact ⟨hfirst, hcur.trans hnext⟩
    · omega
  | succ n ih =>
    obtain ⟨hfirst, hcur⟩ := ih (by omega)
    have hnext := hzero (i + 2 + n) (by omega)
    rcases cut_succ_cases buft tensors (i + 2 + n) with ⟨hpos, -, -, -⟩ | ⟨-, hfirst', hcur'⟩
    · omega
    · rw [hcur, hnext] at hcur'
      exact ⟨hfirst'.trans hfirst, hcur'⟩

end Splits

end PyannoteCpp.ContextAlloc
