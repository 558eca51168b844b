import Mathlib.Algebra.Order.Floor.Semifield
import PyannoteCpp.BinaryRounding

set_option autoImplicit false

/-!
# Binary formats

A format has its nonnegative numbers in the order of their codes. They lie in
binades: the first two runs of `2 ^ bits` codes have the least step, and with
every further run the step doubles. Where the codes end, infinity stands for all
that is farther.
-/
namespace PyannoteCpp.BinaryFormat
open BinaryRounding

structure Format where
  bits : ℕ
  /-- The exponent of the least step. -/
  least : ℤ
  infinity : ℕ
  bits_pos : 0 < bits

namespace Format

variable (f : Format)

def step (s : ℕ) : ℚ := 2 ^ (f.least + s)

def binade (k : ℕ) : ℕ := k / 2 ^ f.bits - 1

def significand (k : ℕ) : ℕ := k - f.binade k * 2 ^ f.bits

def value (k : ℕ) : ℚ := f.significand k * f.step (f.binade k)

def binadeOf (x : ℚ) : ℕ := (Int.log 2 x - f.bits - f.least).toNat

/-- The code of the nearest number, of two as near the even one. -/
def nearest (x : ℚ) : ℕ :=
  if x = 0 then 0 else f.binadeOf x * 2 ^ f.bits + (roundEven (x / f.step (f.binadeOf x))).toNat

def round (x : ℚ) : ℕ := min (f.nearest x) f.infinity

/-- No code is nearer, and an odd one has no equal. -/
structure IsNearestEven (x : ℚ) (k : ℕ) : Prop where
  nearest : ∀ j, |x - f.value k| ≤ |x - f.value j|
  even : ∀ j ≠ k, |x - f.value j| = |x - f.value k| → k % 2 = 0

/-- Numbers with a short enough significand at the least step or above. -/
def Exact (x : ℚ) : Prop := ∃ n s : ℕ, n ≤ 2 ^ (f.bits + 1) ∧ x = n * f.step s

variable {f}

theorem step_pos (s : ℕ) : 0 < f.step s := zpow_pos (by norm_num) _

theorem step_add (s t : ℕ) : f.step (s + t) = 2 ^ t * f.step s := by
  unfold step
  rw [← zpow_natCast, ← zpow_add₀ (by norm_num)]
  congr 1
  push_cast
  ring

/-- A significand that belongs to the binade. -/
def Belongs (f : Format) (s n : ℕ) : Prop := n < 2 ^ (f.bits + 1) ∧ (s = 0 ∨ 2 ^ f.bits ≤ n)

theorem binade_of_belongs {s n : ℕ} (h : f.Belongs s n) :
    f.binade (s * 2 ^ f.bits + n) = s ∧ f.significand (s * 2 ^ f.bits + n) = n := by
  have hpos : 0 < 2 ^ f.bits := Nat.two_pow_pos _
  obtain ⟨hlt, hlow⟩ := h
  rw [Nat.pow_succ] at hlt
  have hdiv : (s * 2 ^ f.bits + n) / 2 ^ f.bits = s + n / 2 ^ f.bits := by
    rw [Nat.add_comm, Nat.add_mul_div_right _ _ hpos, Nat.add_comm]
  have hrun : n / 2 ^ f.bits < 2 := Nat.div_lt_of_lt_mul (by omega)
  have hbinade : f.binade (s * 2 ^ f.bits + n) = s := by
    unfold binade
    rw [hdiv]
    rcases hlow with rfl | hlow
    · omega
    · have hone : 1 ≤ n / 2 ^ f.bits := (Nat.one_le_div_iff hpos).mpr hlow
      omega
  refine ⟨hbinade, ?_⟩
  unfold significand
  rw [hbinade]
  omega

theorem belongs_binade (f : Format) (k : ℕ) :
    k = f.binade k * 2 ^ f.bits + f.significand k ∧ f.Belongs (f.binade k) (f.significand k) := by
  have hpos : 0 < 2 ^ f.bits := Nat.two_pow_pos _
  have hmod := Nat.mod_lt k hpos
  have hsplit := Nat.div_add_mod k (2 ^ f.bits)
  unfold Belongs significand binade
  rw [Nat.pow_succ]
  cases hrun : k / 2 ^ f.bits with
  | zero =>
    rw [hrun] at hsplit
    simp only [Nat.zero_sub, Nat.zero_mul, Nat.sub_zero, Nat.zero_add, true_and, true_or, and_true]
    omega
  | succ q =>
    rw [hrun, Nat.mul_comm, Nat.succ_mul] at hsplit
    simp only [Nat.succ_sub_one]
    omega

theorem value_code {s n : ℕ} (hle : n ≤ 2 ^ (f.bits + 1)) (hlow : s = 0 ∨ 2 ^ f.bits ≤ n) :
    f.value (s * 2 ^ f.bits + n) = n * f.step s := by
  unfold value
  rcases hle.lt_or_eq with hlt | rfl
  · rw [(binade_of_belongs ⟨hlt, hlow⟩).1, (binade_of_belongs ⟨hlt, hlow⟩).2]
  · have hbelongs : f.Belongs (s + 1) (2 ^ f.bits) := ⟨Nat.pow_lt_pow_right (by norm_num) (Nat.lt_succ_self _), .inr le_rfl⟩
    have hcode : s * 2 ^ f.bits + 2 ^ (f.bits + 1) = (s + 1) * 2 ^ f.bits + 2 ^ f.bits := by
      rw [Nat.pow_succ, Nat.succ_mul]
      omega
    rw [hcode, (binade_of_belongs hbelongs).1, (binade_of_belongs hbelongs).2, step_add]
    push_cast
    ring

theorem value_run (f : Format) (t : ℕ) : f.value ((t + 1) * 2 ^ f.bits) = 2 ^ f.bits * f.step t := by
  have hcode : (t + 1) * 2 ^ f.bits = t * 2 ^ f.bits + 2 ^ f.bits := Nat.succ_mul _ _
  rw [hcode, value_code (Nat.pow_le_pow_right (by norm_num) (Nat.le_succ _)) (.inr le_rfl)]
  push_cast
  rfl

theorem value_succ (k : ℕ) : f.value (k + 1) = f.value k + f.step (f.binade k) := by
  obtain ⟨hk, hlt, hlow⟩ := belongs_binade f k
  have hnext : k + 1 = f.binade k * 2 ^ f.bits + (f.significand k + 1) := by omega
  rw [hnext, value_code hlt (hlow.imp id Nat.le_succ_of_le), value]
  push_cast
  ring

theorem value_strictMono : StrictMono f.value :=
  strictMono_nat_of_lt_succ (fun k => by
    rw [value_succ]
    exact lt_add_of_pos_right _ (step_pos _))

@[simp] theorem value_zero : f.value 0 = 0 := by
  simp [value, significand]

theorem value_nonneg (k : ℕ) : 0 ≤ f.value k := by
  rw [← f.value_zero]
  exact value_strictMono.monotone (Nat.zero_le k)

section Nearest

variable {x : ℚ}

theorem binadeOf_spec (hx : 0 < x) :
    x < 2 ^ (f.bits + 1) * f.step (f.binadeOf x) ∧ (f.binadeOf x = 0 ∨ 2 ^ f.bits * f.step (f.binadeOf x) ≤ x) := by
  have hlow := Int.zpow_log_le_self (b := 2) (by norm_num) hx
  have hhigh := Int.lt_zpow_succ_log_self (b := 2) (by norm_num) x
  have hjoin : ∀ a b : ℕ, (2 : ℚ) ^ a * f.step b = 2 ^ (a + (f.least + b)) := fun a b => by
    unfold step
    rw [← zpow_natCast, ← zpow_add₀ (by norm_num)]
  have hpast : Int.log 2 x - f.bits - f.least ≤ f.binadeOf x := Int.self_le_toNat _
  push_cast at hlow hhigh
  rw [hjoin, hjoin]
  constructor
  · refine hhigh.trans_le (zpow_le_zpow_right₀ (by norm_num) ?_)
    push_cast
    omega
  · rcases Nat.eq_zero_or_pos (f.binadeOf x) with hzero | hpos
    · exact .inl hzero
    · have hexact : (f.binadeOf x : ℤ) = Int.log 2 x - f.bits - f.least := Int.toNat_of_nonneg (by unfold binadeOf at hpos; omega)
      refine .inr (le_trans (zpow_le_zpow_right₀ (by norm_num) ?_) hlow)
      omega

/-- The code of the last number that is not above. -/
def below (f : Format) (x : ℚ) : ℕ := f.binadeOf x * 2 ^ f.bits + ⌊x / f.step (f.binadeOf x)⌋₊

theorem floor_belongs (hx : 0 < x) : f.Belongs (f.binadeOf x) ⌊x / f.step (f.binadeOf x)⌋₊ := by
  have hstep := step_pos (f := f) (f.binadeOf x)
  obtain ⟨hhigh, hlow⟩ := binadeOf_spec (f := f) hx
  refine ⟨?_, hlow.imp id (fun hlow => Nat.le_floor ?_)⟩
  · rw [Nat.floor_lt (div_nonneg hx.le hstep.le), div_lt_iff₀ hstep]
    exact_mod_cast hhigh
  · rw [le_div_iff₀ hstep]
    exact_mod_cast hlow

theorem value_below (hx : 0 < x) :
    f.value (f.below x) = ⌊x / f.step (f.binadeOf x)⌋₊ * f.step (f.binadeOf x) ∧
      f.value (f.below x + 1) = (⌊x / f.step (f.binadeOf x)⌋₊ + 1) * f.step (f.binadeOf x) := by
  obtain ⟨hlt, hlow⟩ := floor_belongs (f := f) hx
  refine ⟨value_code hlt.le hlow, ?_⟩
  unfold below
  rw [Nat.add_assoc, value_code hlt (hlow.imp id Nat.le_succ_of_le)]
  push_cast
  rfl

theorem le_below_iff (hx : 0 < x) {k : ℕ} : k ≤ f.below x ↔ f.value k ≤ x := by
  have hstep := step_pos (f := f) (f.binadeOf x)
  obtain ⟨hbelow, hnext⟩ := value_below (f := f) hx
  have hfloor := Nat.floor_le (div_nonneg hx.le hstep.le)
  have hceil := Nat.lt_floor_add_one (x / f.step (f.binadeOf x))
  rw [le_div_iff₀ hstep, ← hbelow] at hfloor
  rw [div_lt_iff₀ hstep, ← hnext] at hceil
  constructor
  · intro hk
    exact (value_strictMono.monotone hk).trans hfloor
  · intro hk
    exact Nat.lt_succ_iff.mp (value_strictMono.lt_iff_lt.mp (hk.trans_lt hceil))

theorem roundEven_toNat {q : ℚ} (hq : 0 ≤ q) :
    ((roundEven q).toNat = ⌊q⌋₊ ∧ q - ⌊q⌋₊ ≤ 1 / 2 ∧ (q - ⌊q⌋₊ = 1 / 2 → ⌊q⌋₊ % 2 = 0)) ∨
      ((roundEven q).toNat = ⌊q⌋₊ + 1 ∧ 1 / 2 ≤ q - ⌊q⌋₊ ∧ (q - ⌊q⌋₊ = 1 / 2 → (⌊q⌋₊ + 1) % 2 = 0)) := by
  have hfloor : ⌊q⌋ = (⌊q⌋₊ : ℤ) := (Int.natCast_floor_eq_floor hq).symm
  unfold roundEven
  rw [hfloor]
  push_cast
  split_ifs with hlow hhigh heven
  · exact .inl ⟨Int.toNat_natCast _, hlow.le, fun h => absurd h hlow.ne⟩
  · exact .inr ⟨by omega, hhigh.le, fun h => absurd h.symm hhigh.ne⟩
  · exact .inl ⟨Int.toNat_natCast _, not_lt.mp hhigh, fun _ => by omega⟩
  · exact .inr ⟨by omega, not_lt.mp hlow, fun _ => by omega⟩

theorem roundEven_div (n : ℕ) {c : ℕ} (hc : 0 < c) :
    (roundEven ((n : ℚ) / (2 * c : ℕ))).toNat = (n + (c - 1 + n / (2 * c) % 2)) / (2 * c) := by
  have hpos : (0 : ℚ) < (2 * c : ℕ) := by exact_mod_cast Nat.mul_pos Nat.two_pos hc
  have hfloor : ⌊(n : ℚ) / (2 * c : ℕ)⌋₊ = n / (2 * c) := Nat.floor_div_eq_div n (2 * c)
  have hsplit := Nat.div_add_mod n (2 * c)
  have hrest := Nat.mod_lt n (Nat.mul_pos Nat.two_pos hc)
  have hfract : (n : ℚ) / (2 * c : ℕ) - (n / (2 * c) : ℕ) = ((n % (2 * c) : ℕ) : ℚ) / (2 * c : ℕ) := by
    rw [eq_div_iff hpos.ne', sub_mul, div_mul_cancel₀ _ hpos.ne', sub_eq_iff_eq_add]
    exact_mod_cast (by rw [Nat.mul_comm (n / (2 * c)), Nat.add_comm]; exact hsplit.symm)
  generalize n / (2 * c) = q at hfloor hsplit hfract ⊢
  generalize n % (2 * c) = r at hsplit hrest hfract
  have hhalf : (r : ℚ) / (2 * c : ℕ) ≤ 1 / 2 ↔ r ≤ c := by
    rw [div_le_iff₀ hpos]
    push_cast
    rw [one_div, inv_mul_cancel_left₀ two_ne_zero, Nat.cast_le]
  have htie : (r : ℚ) / (2 * c : ℕ) = 1 / 2 ↔ r = c := by
    rw [div_eq_iff hpos.ne']
    push_cast
    rw [one_div, inv_mul_cancel_left₀ two_ne_zero, Nat.cast_inj]
  have hdiv : ∀ m k, n + (c - 1 + q % 2) = 2 * c * k + m → m < 2 * c → (n + (c - 1 + q % 2)) / (2 * c) = k := fun m k hm hlt => by
    rw [hm, Nat.mul_add_div (by omega), Nat.div_eq_of_lt hlt, Nat.add_zero]
  rcases roundEven_toNat (div_nonneg (Nat.cast_nonneg n) hpos.le) with ⟨hround, hle, heven⟩ | ⟨hround, hge, heven⟩
  · rw [hfloor, hfract] at hle heven
    rw [hfloor] at hround
    rw [htie] at heven
    rw [hhalf] at hle
    rw [hround]
    exact (hdiv (r + (c - 1 + q % 2)) q (by omega) (by omega)).symm
  · rw [hfloor, hfract] at hge heven
    rw [hfloor] at hround
    rw [htie] at heven
    have hle : c ≤ r := by
      by_contra hlt
      have hbelow := (hhalf.mpr (not_le.mp hlt).le).antisymm hge
      rw [htie] at hbelow
      omega
    rw [hround]
    exact (hdiv (r + (c - 1 + q % 2) - 2 * c) (q + 1) (by rw [Nat.mul_succ]; omega) (by omega)).symm

theorem isNearestEven_lower {k : ℕ} (hlow : f.value k ≤ x) (hhalf : x - f.value k ≤ f.value (k + 1) - x)
    (heven : x - f.value k = f.value (k + 1) - x → k % 2 = 0) : f.IsNearestEven x k := by
  have habs : |x - f.value k| = x - f.value k := abs_of_nonneg (sub_nonneg.mpr hlow)
  have habove : ∀ j, k < j → f.value (k + 1) - x ≤ |x - f.value j| := fun j hj => by
    rw [abs_sub_comm]
    exact (sub_le_sub_right (value_strictMono.monotone (Nat.succ_le_of_lt hj)) x).trans (le_abs_self _)
  have hbelow : ∀ j, x - f.value j ≤ |x - f.value j| := fun j => le_abs_self _
  constructor
  · intro j
    rw [habs]
    rcases Nat.lt_or_ge k j with hj | hj
    · exact hhalf.trans (habove j hj)
    · have hvalue : f.value j ≤ f.value k := value_strictMono.monotone hj
      linarith [hbelow j]
  · intro j hne hsame
    rw [habs] at hsame
    rcases lt_or_gt_of_ne hne with hj | hj
    · have hvalue : f.value j < f.value k := value_strictMono hj
      linarith [hbelow j]
    · exact heven (le_antisymm hhalf (hsame ▸ habove j hj))

theorem isNearestEven_upper {k : ℕ} (hhigh : x ≤ f.value (k + 1)) (hhalf : f.value (k + 1) - x ≤ x - f.value k)
    (heven : x - f.value k = f.value (k + 1) - x → (k + 1) % 2 = 0) : f.IsNearestEven x (k + 1) := by
  have habs : |x - f.value (k + 1)| = f.value (k + 1) - x := by
    rw [abs_sub_comm]
    exact abs_of_nonneg (sub_nonneg.mpr hhigh)
  have hbelow : ∀ j, j ≤ k → x - f.value k ≤ |x - f.value j| := fun j hj =>
    (sub_le_sub_left (value_strictMono.monotone hj) x).trans (le_abs_self _)
  have habove : ∀ j, f.value j - x ≤ |x - f.value j| := fun j => by
    rw [abs_sub_comm]
    exact le_abs_self _
  constructor
  · intro j
    rw [habs]
    rcases Nat.lt_or_ge k j with hj | hj
    · have hvalue : f.value (k + 1) ≤ f.value j := value_strictMono.monotone (Nat.succ_le_of_lt hj)
      linarith [habove j]
    · exact hhalf.trans (hbelow j hj)
  · intro j hne hsame
    rw [habs] at hsame
    rcases lt_or_gt_of_ne hne with hj | hj
    · exact heven (le_antisymm (hsame ▸ hbelow j (Nat.lt_succ_iff.mp hj)) hhalf)
    · have hvalue : f.value (k + 1) < f.value j := value_strictMono hj
      linarith [habove j]

theorem parity (f : Format) (s n : ℕ) : (s * 2 ^ f.bits + n) % 2 = n % 2 := by
  obtain ⟨b, hb⟩ := Nat.exists_eq_succ_of_ne_zero f.bits_pos.ne'
  rw [hb, Nat.pow_succ, ← Nat.mul_assoc]
  omega

theorem nearest_isNearestEven (hx : 0 ≤ x) : f.IsNearestEven x (f.nearest x) := by
  rcases hx.eq_or_lt with rfl | hpos
  · rw [nearest, if_pos rfl]
    refine ⟨fun j => by simp, fun _ _ _ => rfl⟩
  · have hstep := step_pos (f := f) (f.binadeOf x)
    obtain ⟨hbelow, hnext⟩ := value_below (f := f) hpos
    have hlow : f.value (f.below x) ≤ x := (le_below_iff hpos).mp le_rfl
    have hhigh : x < f.value (f.below x + 1) := not_le.mp (fun h => Nat.not_succ_le_self _ ((le_below_iff hpos).mpr h))
    have hdown : x - f.value (f.below x) =
        (x / f.step (f.binadeOf x) - ⌊x / f.step (f.binadeOf x)⌋₊) * f.step (f.binadeOf x) := by
      rw [hbelow, sub_mul, div_mul_cancel₀ _ hstep.ne']
    have hgap : f.value (f.below x + 1) - f.value (f.below x) = f.step (f.binadeOf x) := by
      rw [hbelow, hnext]
      ring
    have hnearest : f.nearest x = f.binadeOf x * 2 ^ f.bits + (roundEven (x / f.step (f.binadeOf x))).toNat := if_neg hpos.ne'
    rcases roundEven_toNat (div_nonneg hpos.le hstep.le) with ⟨hround, hhalf, heven⟩ | ⟨hround, hhalf, heven⟩
    · have hcode : f.nearest x = f.below x := by rw [hnearest, hround, below]
      have hmul := mul_le_mul_of_nonneg_right hhalf hstep.le
      rw [← hdown] at hmul
      rw [hcode]
      refine isNearestEven_lower hlow (by linarith) (fun hsame => ?_)
      rw [below, parity]
      apply heven
      apply mul_right_cancel₀ hstep.ne'
      linarith
    · have hcode : f.nearest x = f.below x + 1 := by rw [hnearest, hround, below, Nat.add_assoc]
      have hmul := mul_le_mul_of_nonneg_right hhalf hstep.le
      rw [← hdown] at hmul
      rw [hcode]
      refine isNearestEven_upper hhigh.le (by linarith) (fun hsame => ?_)
      rw [below, Nat.add_assoc, parity]
      apply heven
      apply mul_right_cancel₀ hstep.ne'
      linarith

theorem le_nearest {k : ℕ} (h : f.value k ≤ x) : k ≤ f.nearest x := by
  have hnear := (nearest_isNearestEven (f := f) ((value_nonneg k).trans h)).nearest k
  by_contra hlt
  have hvalue : f.value (f.nearest x) < f.value k := value_strictMono (not_le.mp hlt)
  rw [abs_of_nonneg (sub_nonneg.mpr (hvalue.le.trans h)), abs_of_nonneg (sub_nonneg.mpr h)] at hnear
  linarith

theorem nearest_le {k : ℕ} (hx : 0 ≤ x) (h : x ≤ f.value k) : f.nearest x ≤ k := by
  have hnear := (nearest_isNearestEven (f := f) hx).nearest k
  by_contra hlt
  have hvalue : f.value k < f.value (f.nearest x) := value_strictMono (not_le.mp hlt)
  rw [abs_of_nonpos (sub_nonpos.mpr (h.trans hvalue.le)), abs_of_nonpos (sub_nonpos.mpr h)] at hnear
  linarith

theorem IsNearestEven.eq {k n : ℕ} (h : f.IsNearestEven (f.value k) n) : n = k := by
  have hzero := h.nearest k
  rw [sub_self, abs_zero, abs_nonpos_iff, sub_eq_zero] at hzero
  exact (value_strictMono.injective hzero).symm

@[simp] theorem nearest_value (k : ℕ) : f.nearest (f.value k) = k :=
  le_antisymm (nearest_le (value_nonneg k) le_rfl) (le_nearest le_rfl)

theorem round_value {k : ℕ} (hk : k ≤ f.infinity) : f.round (f.value k) = k := by
  rw [round, nearest_value, min_eq_left hk]

theorem exists_code (h : f.Exact x) : ∃ k, f.value k = x := by
  obtain ⟨n, s, hn, rfl⟩ := h
  induction s generalizing n with
  | zero => exact ⟨0 * 2 ^ f.bits + n, value_code hn (.inl rfl)⟩
  | succ s ih =>
    by_cases hlow : 2 ^ f.bits ≤ n
    · exact ⟨_, value_code hn (.inr hlow)⟩
    · have hdouble : 2 * n ≤ 2 ^ (f.bits + 1) := by
        rw [Nat.pow_succ]
        omega
      obtain ⟨k, hk⟩ := ih (2 * n) hdouble
      refine ⟨k, hk.trans ?_⟩
      rw [step_add]
      push_cast
      ring

theorem exact_scaled (k j : ℕ) : f.Exact (f.value k * 2 ^ j) := by
  obtain ⟨-, hlt, -⟩ := belongs_binade f k
  refine ⟨f.significand k, f.binade k + j, hlt.le, ?_⟩
  rw [step_add, value]
  ring

theorem value_round (h : f.Exact x) (hlt : x < f.value f.infinity) : f.round x < f.infinity ∧ f.value (f.round x) = x := by
  obtain ⟨k, rfl⟩ := exists_code h
  have hk : k < f.infinity := value_strictMono.lt_iff_lt.mp hlt
  rw [round_value hk.le]
  exact ⟨hk, rfl⟩

theorem round_infinity (h : f.value f.infinity ≤ x) : f.round x = f.infinity :=
  min_eq_right (le_nearest h)

theorem step_le {s t : ℕ} (h : s ≤ t) : f.step s ≤ f.step t :=
  zpow_le_zpow_right₀ (by norm_num) (by omega)

theorem binadeOf_eq {s : ℕ} (hx : 0 < x) (hhigh : x < 2 ^ (f.bits + 1) * f.step s) (hlow : s = 0 ∨ 2 ^ f.bits * f.step s ≤ x) :
    f.binadeOf x = s := by
  obtain ⟨hhigh', hlow'⟩ := binadeOf_spec (f := f) hx
  have hapart : ∀ a b : ℕ, a < b → (b = 0 ∨ 2 ^ f.bits * f.step b ≤ x) → ¬x < 2 ^ (f.bits + 1) * f.step a := by
    intro a b hab hb hxa
    have hstep : f.step (a + 1) ≤ f.step b := step_le hab
    have hdouble : (2 : ℚ) ^ (f.bits + 1) * f.step a = 2 ^ f.bits * f.step (a + 1) := by
      rw [step_add]
      ring
    rcases hb with rfl | hb
    · omega
    · have hmul := mul_le_mul_of_nonneg_left hstep (pow_nonneg (by norm_num : (0 : ℚ) ≤ 2) f.bits)
      linarith
  rcases lt_trichotomy (f.binadeOf x) s with hlt | heq | hgt
  · exact absurd hhigh' (hapart _ _ hlt hlow)
  · exact heq
  · exact absurd hhigh (hapart _ _ hgt hlow')

theorem nearest_eq {s : ℕ} (hx : 0 ≤ x) (hhigh : x < 2 ^ (f.bits + 1) * f.step s)
    (hlow : s = 0 ∨ 2 ^ f.bits * f.step s ≤ x) :
    f.nearest x = s * 2 ^ f.bits + (roundEven (x / f.step s)).toNat := by
  rcases hx.eq_or_lt with rfl | hpos
  · have hzero : s = 0 := hlow.resolve_right (not_le.mpr (mul_pos (pow_pos (by norm_num) _) (step_pos s)))
    have hround : roundEven ((0 : ℤ) : ℚ) = 0 := roundEven_intCast 0
    rw [Int.cast_zero] at hround
    rw [nearest, if_pos rfl, hzero, zero_div, hround]
    simp
  · rw [nearest, if_neg hpos.ne', binadeOf_eq hpos hhigh hlow]

end Nearest

end Format

end PyannoteCpp.BinaryFormat
