import Mathlib.Tactic

set_option autoImplicit false

/-!
# Tensor types, shapes and byte sizes

Sizes are numbers of type `size_t`, so products and sums are taken modulo
`2 ^ 64`. Dimensions are not negative. The removed types have no block size and
are not types here.
-/
namespace PyannoteCpp

inductive GgmlType where
  | f32 | f16 | q4_0 | q4_1 | q5_0 | q5_1 | q8_0 | q8_1 | q2_K | q3_K | q4_K | q5_K | q6_K | q8_K
  | iq2_xxs | iq2_xs | iq3_xxs | iq1_s | iq4_nl | iq3_s | iq2_s | iq4_xs
  | i8 | i16 | i32 | i64 | f64 | iq1_m | bf16 | tq1_0 | tq2_0 | mxfp4
  deriving DecidableEq

namespace GgmlType

def all : List GgmlType :=
  [f32, f16, q4_0, q4_1, q5_0, q5_1, q8_0, q8_1, q2_K, q3_K, q4_K, q5_K, q6_K, q8_K, iq2_xxs, iq2_xs, iq3_xxs,
    iq1_s, iq4_nl, iq3_s, iq2_s, iq4_xs, i8, i16, i32, i64, f64, iq1_m, bf16, tq1_0, tq2_0, mxfp4]

def code : GgmlType → ℕ
  | f32 => 0 | f16 => 1 | q4_0 => 2 | q4_1 => 3 | q5_0 => 6 | q5_1 => 7 | q8_0 => 8 | q8_1 => 9
  | q2_K => 10 | q3_K => 11 | q4_K => 12 | q5_K => 13 | q6_K => 14 | q8_K => 15
  | iq2_xxs => 16 | iq2_xs => 17 | iq3_xxs => 18 | iq1_s => 19 | iq4_nl => 20 | iq3_s => 21 | iq2_s => 22
  | iq4_xs => 23 | i8 => 24 | i16 => 25 | i32 => 26 | i64 => 27 | f64 => 28 | iq1_m => 29 | bf16 => 30
  | tq1_0 => 34 | tq2_0 => 35 | mxfp4 => 39

/-- No type for the codes 4, 5, 31 to 33 and 36 to 38, and none past the last one. -/
def ofCode? (n : ℕ) : Option GgmlType := all.find? (fun t => t.code = n)

def blckSize : GgmlType → ℕ
  | f32 | f16 | i8 | i16 | i32 | i64 | f64 | bf16 => 1
  | q4_0 | q4_1 | q5_0 | q5_1 | q8_0 | q8_1 | iq4_nl | mxfp4 => 32
  | _ => 256

def typeSize : GgmlType → ℕ
  | f32 => 4 | f16 => 2 | q4_0 => 18 | q4_1 => 20 | q5_0 => 22 | q5_1 => 24 | q8_0 => 34 | q8_1 => 36
  | q2_K => 84 | q3_K => 110 | q4_K => 144 | q5_K => 176 | q6_K => 210 | q8_K => 292
  | iq2_xxs => 66 | iq2_xs => 74 | iq3_xxs => 98 | iq1_s => 50 | iq4_nl => 18 | iq3_s => 110 | iq2_s => 82
  | iq4_xs => 136 | i8 => 1 | i16 => 2 | i32 => 4 | i64 => 8 | f64 => 8 | iq1_m => 56 | bf16 => 2
  | tq1_0 => 54 | tq2_0 => 66 | mxfp4 => 17

theorem code_lt (t : GgmlType) : t.code < 40 := by cases t <;> decide

theorem ofCode?_code (t : GgmlType) : ofCode? t.code = some t := by cases t <;> rfl

theorem code_of_ofCode? {n : ℕ} {t : GgmlType} (h : ofCode? n = some t) : t.code = n := by
  unfold ofCode? at h
  simpa using List.find?_some h

theorem blckSize_pos (t : GgmlType) : 0 < t.blckSize := by cases t <;> decide

theorem blckSize_le (t : GgmlType) : t.blckSize ≤ 256 := by cases t <;> decide

end GgmlType

structure Dims where
  n0 : ℕ
  n1 : ℕ
  n2 : ℕ
  n3 : ℕ
  deriving DecidableEq

structure Strides where
  b0 : ℕ
  b1 : ℕ
  b2 : ℕ
  b3 : ℕ
  deriving DecidableEq

/-- A value of type `size_t`. -/
def wrap64 (n : ℕ) : ℕ := n % 2 ^ 64

/-- `GGML_PAD`, for a power of two. -/
def ggmlPad (x n : ℕ) : ℕ := wrap64 (x + n - 1) / n * n

def ggmlNDims (ne : Dims) : ℕ :=
  if 1 < ne.n3 then 4 else if 1 < ne.n2 then 3 else if 1 < ne.n1 then 2 else 1

def rowStrides (type : GgmlType) (ne : Dims) : Strides :=
  let b1 := wrap64 (type.typeSize * (ne.n0 / type.blckSize))
  let b2 := wrap64 (b1 * ne.n1)
  ⟨type.typeSize, b1, b2, wrap64 (b2 * ne.n2)⟩

def ggmlNbytes (type : GgmlType) (ne : Dims) (nb : Strides) : ℕ :=
  if ne.n0 = 0 ∨ ne.n1 = 0 ∨ ne.n2 = 0 ∨ ne.n3 = 0 then 0
  else if type.blckSize = 1 then
    wrap64 (type.typeSize + (ne.n0 - 1) * nb.b0 + (ne.n1 - 1) * nb.b1 + (ne.n2 - 1) * nb.b2 + (ne.n3 - 1) * nb.b3)
  else
    wrap64 (wrap64 (ne.n0 * nb.b0) / type.blckSize + (ne.n1 - 1) * nb.b1 + (ne.n2 - 1) * nb.b2 + (ne.n3 - 1) * nb.b3)

/-- What a loop step of `ggml_is_contiguous_n` does in a dimension of `n` elements: the check and the next stride. -/
def contiguousDim (n b next : ℕ) : Bool × ℕ := if n = 1 then (true, next) else (b = next, wrap64 (next * n))

def ggmlIsContiguous (type : GgmlType) (ne : Dims) (nb : Strides) : Bool :=
  let d1 := contiguousDim ne.n1 nb.b1 (wrap64 (type.typeSize * (ne.n0 / type.blckSize)))
  let d2 := contiguousDim ne.n2 nb.b2 d1.2
  let d3 := contiguousDim ne.n3 nb.b3 d2.2
  (ne.n0 = type.blckSize ∨ nb.b0 = type.typeSize) && d1.1 && d2.1 && d3.1

def exactBytes (type : GgmlType) (ne : Dims) : ℕ := ne.n0 * ne.n1 * ne.n2 * ne.n3 * type.typeSize / type.blckSize

theorem wrap64_lt (n : ℕ) : wrap64 n < 2 ^ 64 := Nat.mod_lt _ (by positivity)

theorem wrap64_of_lt {n : ℕ} (h : n < 2 ^ 64) : wrap64 n = n := Nat.mod_eq_of_lt h

theorem wrap64_modEq (n : ℕ) : wrap64 n ≡ n [MOD 2 ^ 64] := Nat.mod_modEq _ _

theorem lt_pad_add {n : ℕ} (hn : 0 < n) (x : ℕ) : x + n - 1 < (x + n - 1) / n * n + n := by
  have hdiv := Nat.div_add_mod (x + n - 1) n
  have hmod := Nat.mod_lt (x + n - 1) hn
  rw [Nat.mul_comm] at hdiv
  omega

theorem ggmlPad_eq {x n : ℕ} (hn : 0 < n) (hdvd : n ∣ 2 ^ 64) (h : (x + n - 1) / n * n < 2 ^ 64) :
    ggmlPad x n = (x + n - 1) / n * n := by
  have hnext : (x + n - 1) / n * n + n ≤ 2 ^ 64 := by
    obtain ⟨q, hq⟩ := hdvd
    rw [hq, Nat.mul_comm n] at h ⊢
    have hle := Nat.mul_le_mul_right n (Nat.lt_of_mul_lt_mul_right h)
    rwa [Nat.succ_mul] at hle
  have hlt := lt_pad_add hn x
  rw [ggmlPad, wrap64_of_lt (by omega)]

theorem rowStrides_modEq (type : GgmlType) (ne : Dims) :
    (rowStrides type ne).b1 ≡ type.typeSize * (ne.n0 / type.blckSize) [MOD 2 ^ 64] ∧
      (rowStrides type ne).b2 ≡ type.typeSize * (ne.n0 / type.blckSize) * ne.n1 [MOD 2 ^ 64] ∧
      (rowStrides type ne).b3 ≡ type.typeSize * (ne.n0 / type.blckSize) * ne.n1 * ne.n2 [MOD 2 ^ 64] := by
  have h₁ := wrap64_modEq (type.typeSize * (ne.n0 / type.blckSize))
  have h₂ := (wrap64_modEq ((rowStrides type ne).b1 * ne.n1)).trans (h₁.mul_right ne.n1)
  exact ⟨h₁, h₂, (wrap64_modEq ((rowStrides type ne).b2 * ne.n2)).trans (h₂.mul_right ne.n2)⟩

theorem exactBytes_eq {type : GgmlType} {ne : Dims} (whole : type.blckSize ∣ ne.n0) :
    exactBytes type ne = type.typeSize * (ne.n0 / type.blckSize) * ne.n1 * ne.n2 * ne.n3 := by
  obtain ⟨q, hq⟩ := whole
  have hpos := type.blckSize_pos
  have hblocks : ne.n0 / type.blckSize = q := by rw [hq, Nat.mul_div_cancel_left _ hpos]
  have hmul : ne.n0 * ne.n1 * ne.n2 * ne.n3 * type.typeSize =
      type.blckSize * (type.typeSize * q * ne.n1 * ne.n2 * ne.n3) := by rw [hq]; ring
  rw [exactBytes, hblocks, hmul, Nat.mul_div_cancel_left _ hpos]

theorem strides_telescope {row n1 n2 n3 : ℕ} (h1 : 0 < n1) (h2 : 0 < n2) (h3 : 0 < n3) :
    row + (n1 - 1) * row + (n2 - 1) * (row * n1) + (n3 - 1) * (row * n1 * n2) = row * n1 * n2 * n3 := by
  obtain ⟨a, rfl⟩ := Nat.exists_eq_add_of_le' h1
  obtain ⟨b, rfl⟩ := Nat.exists_eq_add_of_le' h2
  obtain ⟨c, rfl⟩ := Nat.exists_eq_add_of_le' h3
  simp only [Nat.add_sub_cancel]
  ring

def firstRow (type : GgmlType) (n0 : ℕ) : ℕ :=
  if type.blckSize = 1 then type.typeSize * n0 else wrap64 (n0 * type.typeSize) / type.blckSize

theorem firstRow_le {type : GgmlType} {n0 : ℕ} (whole : type.blckSize ∣ n0) :
    firstRow type n0 ≤ type.typeSize * (n0 / type.blckSize) ∧
      (firstRow type n0 < type.typeSize * (n0 / type.blckSize) ↔
        ¬(type.blckSize = 1 ∨ n0 * type.typeSize < 2 ^ 64)) := by
  have hpos := type.blckSize_pos
  have hsmall := type.blckSize_le
  obtain ⟨q, rfl⟩ := whole
  rw [Nat.mul_div_cancel_left _ hpos]
  unfold firstRow
  split_ifs with hone
  · simp [hone]
  set row := type.typeSize * q with hrow
  have hbytes : type.blckSize * q * type.typeSize = type.blckSize * row := by rw [hrow]; ring
  rw [hbytes]
  by_cases hfits : type.blckSize * row < 2 ^ 64
  · rw [wrap64_of_lt hfits, Nat.mul_div_cancel_left _ hpos]
    exact ⟨le_rfl, iff_of_false (lt_irrefl _) (fun hwrapped => hwrapped (.inr hfits))⟩
  · have hmod : wrap64 (type.blckSize * row) ≤ type.blckSize * row - 2 ^ 64 := by
      unfold wrap64
      omega
    have hdiv : wrap64 (type.blckSize * row) / type.blckSize < row := by
      rw [Nat.div_lt_iff_lt_mul hpos, Nat.mul_comm row]
      omega
    exact ⟨hdiv.le, iff_of_true hdiv (not_or.mpr ⟨hone, hfits⟩)⟩

theorem ggmlNbytes_rowStrides {type : GgmlType} {ne : Dims} (h0 : 0 < ne.n0) (h1 : 0 < ne.n1)
    (h2 : 0 < ne.n2) (h3 : 0 < ne.n3) :
    ggmlNbytes type ne (rowStrides type ne) = wrap64 (firstRow type ne.n0 + (ne.n1 - 1) * (rowStrides type ne).b1 +
      (ne.n2 - 1) * (rowStrides type ne).b2 + (ne.n3 - 1) * (rowStrides type ne).b3) := by
  have hb0 : (rowStrides type ne).b0 = type.typeSize := rfl
  unfold ggmlNbytes firstRow
  rw [if_neg (by omega), hb0]
  split
  · have hrow : type.typeSize + (ne.n0 - 1) * type.typeSize = type.typeSize * ne.n0 := by
      obtain ⟨a, ha⟩ := Nat.exists_eq_add_of_le' h0
      rw [ha, Nat.add_sub_cancel]
      ring
    rw [hrow]
  · rfl

/-- The counted size is the exact one when neither it nor the bytes of the first row, before they are
divided by the block size, reach `2 ^ 64`. -/
theorem ggmlNbytes_exact_iff {type : GgmlType} {ne : Dims} (whole : type.blckSize ∣ ne.n0) (h1 : 0 < ne.n1)
    (h2 : 0 < ne.n2) (h3 : 0 < ne.n3) :
    ggmlNbytes type ne (rowStrides type ne) = exactBytes type ne ↔
      (type.blckSize = 1 ∨ ne.n0 * type.typeSize < 2 ^ 64) ∧ exactBytes type ne < 2 ^ 64 := by
  rcases Nat.eq_zero_or_pos ne.n0 with h0 | h0
  · have hzero : exactBytes type ne = 0 := by simp [exactBytes, h0]
    simp [ggmlNbytes, hzero, h0]
  obtain ⟨r₁, r₂, r₃⟩ := rowStrides_modEq type ne
  rw [ggmlNbytes_rowStrides h0 h1 h2 h3, exactBytes_eq whole]
  set row := type.typeSize * (ne.n0 / type.blckSize) with hrow
  have hmod : firstRow type ne.n0 + (ne.n1 - 1) * (rowStrides type ne).b1 + (ne.n2 - 1) * (rowStrides type ne).b2 +
      (ne.n3 - 1) * (rowStrides type ne).b3 ≡
      firstRow type ne.n0 + (ne.n1 - 1) * row + (ne.n2 - 1) * (row * ne.n1) + (ne.n3 - 1) * (row * ne.n1 * ne.n2)
        [MOD 2 ^ 64] :=
    (((Nat.ModEq.refl _).add (r₁.mul_left _)).add (r₂.mul_left _)).add (r₃.mul_left _)
  have htotal := @strides_telescope row _ _ _ h1 h2 h3
  have hle : row ≤ row * ne.n1 * ne.n2 * ne.n3 := by
    calc row ≤ row * ne.n1 := Nat.le_mul_of_pos_right _ h1
      _ ≤ row * ne.n1 * ne.n2 := Nat.le_mul_of_pos_right _ h2
      _ ≤ row * ne.n1 * ne.n2 * ne.n3 := Nat.le_mul_of_pos_right _ h3
  unfold wrap64
  rw [hmod]
  have hfirst := firstRow_le whole
  rw [← hrow] at hfirst
  set gaps := (ne.n1 - 1) * row + (ne.n2 - 1) * (row * ne.n1) + (ne.n3 - 1) * (row * ne.n1 * ne.n2) with hgaps
  have hsum : firstRow type ne.n0 + (ne.n1 - 1) * row + (ne.n2 - 1) * (row * ne.n1) +
      (ne.n3 - 1) * (row * ne.n1 * ne.n2) = firstRow type ne.n0 + gaps := by omega
  rw [hsum]
  constructor
  · intro h
    have hlt : row * ne.n1 * ne.n2 * ne.n3 < 2 ^ 64 := h ▸ Nat.mod_lt _ (by positivity)
    refine ⟨?_, hlt⟩
    by_contra hwrapped
    have hshort := hfirst.2.mpr hwrapped
    rw [Nat.mod_eq_of_lt (by omega)] at h
    omega
  · rintro ⟨hkept, hlt⟩
    have hequal : firstRow type ne.n0 = row := by
      have hnot := mt hfirst.2.mp (not_not.mpr hkept)
      omega
    rw [hequal, Nat.mod_eq_of_lt (by omega)]
    omega

theorem contiguousDim_spec {n b next : ℕ} (hnext : next < 2 ^ 64) (h : (contiguousDim n b next).1 = true) :
    (n - 1) * b = (n - 1) * next ∧ (contiguousDim n b next).2 = wrap64 (next * n) := by
  unfold contiguousDim at h ⊢
  split_ifs at h ⊢ with hone
  · rw [hone, Nat.mul_one, wrap64_of_lt hnext]
    simp
  · rw [decide_eq_true_eq] at h
    rw [h]
    simp

/-- A contiguous tensor has the size of one without gaps, when its blocks are as far apart as they are long. -/
theorem ggmlNbytes_of_contiguous {type : GgmlType} {ne : Dims} {nb : Strides}
    (h : ggmlIsContiguous type ne nb = true) (hblock : type.blckSize = 1 ∨ nb.b0 = type.typeSize) :
    ggmlNbytes type ne nb = ggmlNbytes type ne (rowStrides type ne) := by
  unfold ggmlIsContiguous at h
  simp only [Bool.and_eq_true, decide_eq_true_eq] at h
  obtain ⟨⟨⟨hrow, hd1⟩, hd2⟩, hd3⟩ := h
  obtain ⟨e₁, s₁⟩ := contiguousDim_spec (wrap64_lt _) hd1
  rw [s₁] at hd2 hd3
  obtain ⟨e₂, s₂⟩ := contiguousDim_spec (wrap64_lt _) hd2
  rw [s₂] at hd3
  obtain ⟨e₃, -⟩ := contiguousDim_spec (wrap64_lt _) hd3
  have hb0 : (rowStrides type ne).b0 = type.typeSize := rfl
  unfold ggmlNbytes
  rw [e₁, e₂, e₃, hb0]
  split_ifs with hempty hone
  · rfl
  · -- one element in a row leaves the first stride open
    have e₀ : (ne.n0 - 1) * nb.b0 = (ne.n0 - 1) * type.typeSize := by
      rcases hrow with hn | hb
      · rw [hn, hone]
        simp
      · rw [hb]
    rw [e₀]
    rfl
  · rw [hblock.resolve_left hone]
    rfl

end PyannoteCpp
