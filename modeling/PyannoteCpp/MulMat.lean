import PyannoteCpp.MachineInt
import PyannoteCpp.SharedStores

set_option autoImplicit false

/-!
# The chunks of a matrix product

`ggml_compute_forward_mul_mat` without llamafile. Offsets count bytes. A block
is what the vector product reads at once; `dot` is the product of a row of the
first operand, by its offset, and the blocks of a column, where so many rows and
columns are multiplied at once.
-/
namespace PyannoteCpp.MulMat
open SharedStores

variable {W V : Type*}

/-- The locals of the kernel. The assertions make `ne0` and `ne1` to `ne3` those of the operands and `nb0` the size of a
float; only floats are converted. -/
structure Product (W V : Type*) where
  ne01 : ℕ
  ne02 : ℕ
  ne03 : ℕ
  ne10 : ℕ
  ne11 : ℕ
  ne12 : ℕ
  ne13 : ℕ
  nb01 : ℕ
  nb02 : ℕ
  nb03 : ℕ
  nb10 : ℕ
  nb11 : ℕ
  nb12 : ℕ
  nb13 : ℕ
  nb1 : ℕ
  nb2 : ℕ
  nb3 : ℕ
  /-- The second operand is converted to the type of the vector product. -/
  converted : Bool
  blckSize : ℕ
  typeSize : ℕ
  vecDotNumRows : ℕ
  isNuma : Bool
  /-- The block that is converted from the floats at an offset of the second operand. -/
  fromFloat : ℕ → W
  /-- The block at an offset of the second operand. -/
  src1 : ℕ → W
  dot : ℕ → ℕ → List W → V
  blckSize_pos : 0 < blckSize
  typeSize_pos : 0 < typeSize
  blocks : blckSize ∣ ne10
  nb10_eq : nb10 = if converted then 4 else typeSize
  broadcast2 : 0 < ne02 ∧ ne02 ∣ ne12
  broadcast3 : 0 < ne03 ∧ ne03 ∣ ne13

/-- One element of the result: where it is stored, its row and its column, and how many of these are multiplied at once. -/
structure Store where
  address : ℕ
  row : ℕ
  column : ℕ
  atOnce : ℕ

namespace Product

variable (g : Product W V)

def rowSize : ℕ := g.typeSize * g.ne10 / g.blckSize

/-- `ggml_is_contiguous` of the second operand, whose blocks are floats when it is converted. -/
def src1Cont : Bool :=
  let next := g.nb10 * (g.ne10 / if g.converted then 1 else g.blckSize)
  (g.ne11 = 1 ∨ g.nb11 = next) ∧ (g.ne12 = 1 ∨ g.nb12 = next * g.ne11) ∧ (g.ne13 = 1 ∨ g.nb13 = next * g.ne11 * g.ne12)

section Coordinates

variable (ir1 : ℕ)

def i13 : ℕ := ir1 / (g.ne12 * g.ne11)

def i12 : ℕ := (ir1 - g.i13 ir1 * g.ne12 * g.ne11) / g.ne11

def i11 : ℕ := ir1 - g.i13 ir1 * g.ne12 * g.ne11 - g.i12 ir1 * g.ne11

/-- The first operand is broadcast into the second. -/
def src0Row : ℕ := g.i12 ir1 / (g.ne12 / g.ne02) * g.nb02 + g.i13 ir1 / (g.ne13 / g.ne03) * g.nb03

def src1Col : ℕ :=
  if g.src1Cont ∨ g.converted then (g.i11 ir1 + g.i12 ir1 * g.ne11 + g.i13 ir1 * g.ne12 * g.ne11) * g.rowSize
  else g.i11 ir1 * g.nb11 + g.i12 ir1 * g.nb12 + g.i13 ir1 * g.nb13

def dstCol : ℕ := g.i11 ir1 * g.nb1 + g.i12 ir1 * g.nb2 + g.i13 ir1 * g.nb3

end Coordinates

def src1ColStride : ℕ := if g.src1Cont ∨ g.converted then g.rowSize else g.nb11

/-- The blocks of a column; converted ones are in `wdata`. -/
def columnBlocks (wdata : ℕ → W) (base : ℕ) : List W :=
  (List.range (g.ne10 / g.blckSize)).map (fun k => (if g.converted then wdata else g.src1) (base + k * g.typeSize))

def value (wdata : ℕ → W) (s : Store) : V := g.dot s.atOnce s.row (g.columnBlocks wdata s.column)

/-- `ggml_compute_forward_mul_mat_one_chunk`: tiles of 16 by 16, and in each of them column by column. A vector
product of `n` rows and columns at once leaves the products with its column `cn` from `tmp[16 * cn]` on. -/
def oneChunk (n ir0Start ir0End ir1Start ir1End : ℕ) : List Store :=
  if ir0Start ≥ ir0End ∨ ir1Start ≥ ir1End then []
  else
    (turns ir1Start 16 ir1End).flatMap (fun iir1 => (turns ir0Start 16 ir0End).flatMap (fun iir0 =>
      (turns iir1 n (min (iir1 + 16) ir1End)).flatMap (fun ir1 => (List.range n).flatMap (fun cn =>
        (List.range (min (iir0 + 16) ir0End - iir0)).map (fun j =>
          ⟨g.dstCol ir1 + 4 * (iir0 + cn * g.nb1 / 4 + j), g.src0Row ir1 + (iir0 + j) * g.nb01,
            g.src1Col ir1 + cn * g.src1ColStride, n⟩)))))

section Chunks

variable (nth : ℕ)

def nr0 : ℕ := g.ne01

def nr1 : ℕ := g.ne11 * g.ne12 * g.ne13

def chunkSize : ℕ := if g.nr0 = 1 ∨ g.nr1 = 1 then 64 else 16

/-- The numbers of chunks in both directions; a poor chunking is given up for one by threads. -/
def nchunks : ℕ × ℕ :=
  let nchunk0 := (g.nr0 + g.chunkSize - 1) / g.chunkSize
  let nchunk1 := (g.nr1 + g.chunkSize - 1) / g.chunkSize
  if nchunk0 * nchunk1 < nth * 4 ∨ g.isNuma then
    if g.nr0 > g.nr1 then (nth, 1) else (1, nth)
  else (nchunk0, nchunk1)

def total : ℕ := (g.nchunks nth).1 * (g.nchunks nth).2

def dr0 : ℕ := (g.nr0 + (g.nchunks nth).1 - 1) / (g.nchunks nth).1

def dr1 : ℕ := (g.nr1 + (g.nchunks nth).2 - 1) / (g.nchunks nth).2

section Range

variable (currentChunk : ℕ)

def ir0Start : ℕ := g.dr0 nth * (currentChunk % (g.nchunks nth).1)

def ir0End : ℕ := min (g.ir0Start nth currentChunk + g.dr0 nth) g.nr0

def ir1Start : ℕ := g.dr1 nth * (currentChunk / (g.nchunks nth).1)

def ir1End : ℕ := min (g.ir1Start nth currentChunk + g.dr1 nth) g.nr1

/-- Several at once only where no boundary is crossed. -/
def numRowsPerVecDot : ℕ :=
  if g.nr0 % 2 ≠ 0 ∨ g.ne11 % 2 ≠ 0 ∨ (g.ir0End nth currentChunk - g.ir0Start nth currentChunk) % 2 ≠ 0 ∨
      (g.ir1End nth currentChunk - g.ir1Start nth currentChunk) % 2 ≠ 0 then 1
  else g.vecDotNumRows

def chunk : List Store :=
  g.oneChunk (g.numRowsPerVecDot nth currentChunk) (g.ir0Start nth currentChunk) (g.ir0End nth currentChunk)
    (g.ir1Start nth currentChunk) (g.ir1End nth currentChunk)

end Range

/-- The chunk of an element, and how many rows and columns are multiplied at once there. -/
def chunkOf (ir0 ir1 : ℕ) : ℕ := ir1 / g.dr1 nth * (g.nchunks nth).1 + ir0 / g.dr0 nth

def atOnce (ir0 ir1 : ℕ) : ℕ := g.numRowsPerVecDot nth (g.chunkOf nth ir0 ir1)

end Chunks

def cell (n ir0 ir1 : ℕ) : Store := ⟨g.dstCol ir1 + 4 * ir0, g.src0Row ir1 + ir0 * g.nb01, g.src1Col ir1, n⟩

section Tiles

variable {g}

theorem turns_fill {n start bound x : ℕ} (hn : 0 < n) (hdvd : n ∣ bound - start) :
    (∃ i ∈ turns start n bound, ∃ c < n, x = i + c) ↔ start ≤ x ∧ x < bound := by
  obtain ⟨q, hq⟩ := hdvd
  constructor
  · rintro ⟨i, hi, c, hc, rfl⟩
    obtain ⟨hlt, t, rfl⟩ := (mem_turns hn).mp hi
    refine ⟨by omega, ?_⟩
    have htq : t < q := by
      by_contra hle
      have hmul := Nat.mul_le_mul_left n (Nat.le_of_not_lt hle)
      rw [Nat.mul_comm n t] at hmul
      omega
    have hmul := Nat.mul_le_mul_left n (Nat.succ_le_of_lt htq)
    rw [Nat.mul_succ, Nat.mul_comm n t] at hmul
    omega
  · rintro ⟨hle, hlt⟩
    have hsplit := Nat.mod_add_div (x - start) n
    have hmod := Nat.mod_lt (x - start) hn
    refine ⟨start + (x - start) / n * n, (mem_turns hn).mpr ⟨?_, _, rfl⟩, (x - start) % n, hmod, ?_⟩
    · rw [Nat.mul_comm ((x - start) / n)]
      omega
    · rw [Nat.mul_comm ((x - start) / n)]
      omega

theorem turns_tile {start bound x : ℕ} (n : ℕ) (hn : 0 < n) (hdvd : n ∣ 16) (hbound : n ∣ bound - start) :
    (∃ i ∈ turns start 16 bound, ∃ k ∈ turns i n (min (i + 16) bound), ∃ c < n, x = k + c) ↔ start ≤ x ∧ x < bound := by
  have hinner : ∀ i ∈ turns start 16 bound, n ∣ min (i + 16) bound - i := fun i hi => by
    obtain ⟨hlt, t, rfl⟩ := (mem_turns (by decide)).mp hi
    have hmul : n ∣ t * 16 := hdvd.mul_left t
    rcases Nat.le_total (start + t * 16 + 16) bound with hle | hle
    · rw [Nat.min_eq_left hle, Nat.add_sub_cancel_left]
      exact hdvd
    · rw [Nat.min_eq_right hle, Nat.sub_add_eq]
      exact Nat.dvd_sub hbound hmul
  constructor
  · rintro ⟨i, hi, hx⟩
    obtain ⟨hle, hlt⟩ := (turns_fill hn (hinner i hi)).mp hx
    obtain ⟨-, t, rfl⟩ := (mem_turns (by decide)).mp hi
    omega
  · rintro ⟨hle, hlt⟩
    have hi : start + (x - start) / 16 * 16 ∈ turns start 16 bound := (mem_turns (by decide)).mpr ⟨by omega, _, rfl⟩
    exact ⟨_, hi, (turns_fill hn (hinner _ hi)).mpr (by omega)⟩

theorem cell_next {n ir0 ir1 : ℕ} (hcolumn : 2 ∣ ir1) (heven : 2 ∣ g.ne11) (hstride : 4 ∣ g.nb1) :
    g.cell n ir0 (ir1 + 1) = ⟨g.dstCol ir1 + 4 * (ir0 + g.nb1 / 4), g.src0Row ir1 + ir0 * g.nb01,
      g.src1Col ir1 + g.src1ColStride, n⟩ := by
  obtain ⟨a, rfl⟩ := hcolumn
  obtain ⟨b, hb⟩ := heven
  obtain ⟨c, hc⟩ := hstride
  have hplane : ∀ p q : ℕ, (2 * p + 1) / (2 * q) = 2 * p / (2 * q) := fun p q => by
    rw [Nat.mul_div_mul_left p q (by decide), ← Nat.div_div_eq_div_mul]
    congr 1
    omega
  have h13 : g.i13 (2 * a + 1) = g.i13 (2 * a) := by
    unfold i13
    rw [hb, show g.ne12 * (2 * b) = 2 * (g.ne12 * b) by ring]
    exact hplane a _
  have hrows : g.i13 (2 * a) * g.ne12 * g.ne11 = 2 * (g.i13 (2 * a) * g.ne12 * b) := by
    rw [hb]
    ring
  have hle : g.i13 (2 * a) * g.ne12 * g.ne11 ≤ 2 * a := by
    unfold i13
    rw [Nat.mul_assoc]
    exact Nat.div_mul_le_self _ _
  have h12 : g.i12 (2 * a + 1) = g.i12 (2 * a) := by
    unfold i12
    rw [h13, hrows, show 2 * a + 1 - 2 * (g.i13 (2 * a) * g.ne12 * b) = 2 * (a - g.i13 (2 * a) * g.ne12 * b) + 1 by omega,
      show 2 * a - 2 * (g.i13 (2 * a) * g.ne12 * b) = 2 * (a - g.i13 (2 * a) * g.ne12 * b) by omega, hb]
    exact hplane _ b
  have hle12 : g.i12 (2 * a) * g.ne11 ≤ 2 * a - g.i13 (2 * a) * g.ne12 * g.ne11 := by
    unfold i12
    exact Nat.div_mul_le_self _ _
  have h11 : g.i11 (2 * a + 1) = g.i11 (2 * a) + 1 := by
    unfold i11
    rw [h13, h12]
    omega
  unfold cell
  congr 1
  · unfold dstCol
    rw [h11, h12, h13, hc, Nat.mul_div_cancel_left c (by decide)]
    ring
  · unfold src0Row
    rw [h12, h13]
  · unfold src1Col src1ColStride
    rw [h11, h12, h13]
    split_ifs <;> ring

/-- What the vector product can do at once: one row and column, or two of each where columns are whole numbers of
floats apart. -/
def Kernel (g : Product W V) : Prop := g.vecDotNumRows = 1 ∨ g.vecDotNumRows = 2 ∧ 4 ∣ g.nb1

/-- Several rows and columns at once do not cross the end of a plane. -/
structure Whole (g : Product W V) (n ir0Start ir0End ir1Start ir1End : ℕ) : Prop where
  rows : 2 ∣ ir0End - ir0Start
  columns : 2 ∣ ir1End - ir1Start
  first : 2 ∣ ir1Start
  plane : 2 ∣ g.ne11
  stride : 4 ∣ g.nb1
  pair : n = 2

theorem cell_column {n ir0Start ir0End ir1Start ir1End ir1 cn ir0 : ℕ}
    (hn : n = 1 ∨ Whole g n ir0Start ir0End ir1Start ir1End) (hir1 : n ∣ ir1 - ir1Start) (hle : ir1Start ≤ ir1) (hcn : cn < n) :
    g.cell n ir0 (ir1 + cn) = ⟨g.dstCol ir1 + 4 * (ir0 + cn * g.nb1 / 4), g.src0Row ir1 + ir0 * g.nb01,
      g.src1Col ir1 + cn * g.src1ColStride, n⟩ := by
  obtain rfl | rfl : cn = 0 ∨ cn = 1 := by
    rcases hn with rfl | hwhole
    · omega
    · have hpair := hwhole.pair
      omega
  · simp only [cell, Nat.add_zero, Nat.zero_mul, Nat.zero_div]
  · rcases hn with rfl | hwhole
    · omega
    · have hfirst := hwhole.first
      rw [hwhole.pair] at hir1
      rw [cell_next (by omega) hwhole.plane hwhole.stride, Nat.one_mul, Nat.one_mul]

theorem turns_dvd {n start bound bound' i k : ℕ} (hn : 0 < n) (hdvd : n ∣ 16) (hi : i ∈ turns start 16 bound)
    (hk : k ∈ turns i n bound') : n ∣ k - start ∧ start ≤ k := by
  obtain ⟨-, t, rfl⟩ := (mem_turns (by decide)).mp hi
  obtain ⟨-, t', rfl⟩ := (mem_turns hn).mp hk
  refine ⟨?_, by omega⟩
  rw [show start + t * 16 + t' * n - start = t * 16 + t' * n by omega]
  exact (hdvd.mul_left t).add (Dvd.intro_left t' rfl)

theorem mem_oneChunk {n ir0Start ir0End ir1Start ir1End : ℕ} (hn : n = 1 ∨ Whole g n ir0Start ir0End ir1Start ir1End)
    {s : Store} : s ∈ g.oneChunk n ir0Start ir0End ir1Start ir1End ↔
      ∃ ir0 ir1, (ir0Start ≤ ir0 ∧ ir0 < ir0End) ∧ (ir1Start ≤ ir1 ∧ ir1 < ir1End) ∧ s = g.cell n ir0 ir1 := by
  have hpos : 0 < n := by
    rcases hn with rfl | hwhole
    · exact Nat.one_pos
    · rw [hwhole.pair]
      decide
  have hdvd : n ∣ 16 ∧ n ∣ ir1End - ir1Start := by
    rcases hn with rfl | hwhole
    · exact ⟨one_dvd _, one_dvd _⟩
    · rw [hwhole.pair]
      exact ⟨by decide, hwhole.columns⟩
  unfold oneChunk
  split_ifs with hempty
  · constructor
    · exact fun h => nomatch h
    · rintro ⟨ir0, ir1, hir0, hir1, -⟩
      omega
  · simp only [List.mem_flatMap, List.mem_map, List.mem_range]
    constructor
    · rintro ⟨iir1, hiir1, iir0, hiir0, ir1, hir1, cn, hcn, j, hj, rfl⟩
      have hcolumn := (turns_tile n hpos hdvd.1 hdvd.2).mp ⟨iir1, hiir1, ir1, hir1, cn, hcn, rfl⟩
      obtain ⟨hfull, hle⟩ := turns_dvd hpos hdvd.1 hiir1 hir1
      obtain ⟨-, t, rfl⟩ := (mem_turns (by decide)).mp hiir0
      refine ⟨ir0Start + t * 16 + j, ir1 + cn, by omega, hcolumn, ?_⟩
      rw [cell_column hn hfull hle hcn]
      congr 3
      omega
    · rintro ⟨ir0, ir1, ⟨hle, hlt⟩, hir1, rfl⟩
      obtain ⟨iir1, hiir1, k, hk, cn, hcn, rfl⟩ := (turns_tile n hpos hdvd.1 hdvd.2).mpr hir1
      have hiir0 : ir0Start + (ir0 - ir0Start) / 16 * 16 ∈ turns ir0Start 16 ir0End :=
        (mem_turns (by decide)).mpr ⟨by omega, _, rfl⟩
      refine ⟨iir1, hiir1, _, hiir0, k, hk, cn, hcn, (ir0 - ir0Start) % 16, by omega, ?_⟩
      obtain ⟨hfull, hfirst⟩ := turns_dvd hpos hdvd.1 hiir1 hk
      have hrow : ir0Start + (ir0 - ir0Start) / 16 * 16 + (ir0 - ir0Start) % 16 = ir0 := by omega
      rw [cell_column hn hfull hfirst hcn, hrow]
      congr 2
      omega

theorem nchunks_pos {nth : ℕ} (hnth : 0 < nth) : 0 < (g.nchunks nth).1 ∧ 0 < (g.nchunks nth).2 := by
  simp only [nchunks]
  split_ifs with hpoor hrows
  · exact ⟨hnth, Nat.one_pos⟩
  · exact ⟨Nat.one_pos, hnth⟩
  · have hprod : 0 < (g.nr0 + g.chunkSize - 1) / g.chunkSize * ((g.nr1 + g.chunkSize - 1) / g.chunkSize) := by
      have hmany := not_lt.mp (not_or.mp hpoor).1
      omega
    exact ⟨Nat.pos_of_mul_pos_right hprod, Nat.pos_of_mul_pos_left hprod⟩

theorem le_parts {size parts : ℕ} (hparts : 0 < parts) : size ≤ (size + parts - 1) / parts * parts := by
  have hsplit := Nat.mod_add_div (size + parts - 1) parts
  have hmod := Nat.mod_lt (size + parts - 1) hparts
  rw [Nat.mul_comm] at hsplit
  omega

theorem chunk_whole {nth q : ℕ} (hkernel : Kernel g) (hlt : g.ir1Start nth q < g.ir1End nth q) :
    g.numRowsPerVecDot nth q = 1 ∨
      Whole g (g.numRowsPerVecDot nth q) (g.ir0Start nth q) (g.ir0End nth q) (g.ir1Start nth q) (g.ir1End nth q) := by
  unfold numRowsPerVecDot
  split_ifs with hodd
  · exact .inl rfl
  rcases hkernel with hone | ⟨htwo, hstride⟩
  · exact .inl hone
  · push Not at hodd
    obtain ⟨-, hplane, hrows, hcolumns⟩ := hodd
    refine .inr ⟨Nat.dvd_of_mod_eq_zero hrows, Nat.dvd_of_mod_eq_zero hcolumns, ?_, Nat.dvd_of_mod_eq_zero hplane, hstride,
      htwo⟩
    have hall : 2 ∣ g.nr1 := by
      unfold nr1
      rw [Nat.mul_assoc]
      exact (Nat.dvd_of_mod_eq_zero hplane).mul_right _
    rcases Nat.le_total (g.ir1Start nth q + g.dr1 nth) g.nr1 with hle | hle
    -- A chunk in the middle is as long as the ones before it.
    · have hend : g.ir1End nth q = g.ir1Start nth q + g.dr1 nth := Nat.min_eq_left hle
      have hlength : 2 ∣ g.dr1 nth := by omega
      exact hlength.mul_right _
    · have hend : g.ir1End nth q = g.nr1 := Nat.min_eq_right hle
      omega

theorem mem_chunk {nth q : ℕ} (hkernel : Kernel g) {s : Store} : s ∈ g.chunk nth q ↔
    ∃ ir0 ir1, (g.ir0Start nth q ≤ ir0 ∧ ir0 < g.ir0End nth q) ∧ (g.ir1Start nth q ≤ ir1 ∧ ir1 < g.ir1End nth q) ∧
      s = g.cell (g.numRowsPerVecDot nth q) ir0 ir1 := by
  unfold chunk
  by_cases hlt : g.ir1Start nth q < g.ir1End nth q
  · exact mem_oneChunk (chunk_whole hkernel hlt)
  · rw [oneChunk, if_pos (.inr (not_lt.mp hlt))]
    constructor
    · exact fun h => nomatch h
    · rintro ⟨ir0, ir1, -, hir1, -⟩
      exact absurd (hir1.1.trans_lt hir1.2) hlt

theorem chunkOf_eq {nth q ir0 ir1 : ℕ} (hir0 : g.ir0Start nth q ≤ ir0 ∧ ir0 < g.ir0End nth q)
    (hir1 : g.ir1Start nth q ≤ ir1 ∧ ir1 < g.ir1End nth q) : g.chunkOf nth ir0 ir1 = q := by
  have hpart : ∀ {d c x : ℕ}, d * c ≤ x → x < d * c + d → x / d = c := fun {d c x} hle hlt => by
    have hd : 0 < d := by omega
    refine Nat.div_eq_of_lt_le (by rw [Nat.mul_comm]; exact hle) ?_
    rw [Nat.add_mul, Nat.one_mul, Nat.mul_comm c d]
    exact hlt
  unfold chunkOf
  rw [hpart hir1.1 (hir1.2.trans_le (min_le_left _ _)), hpart hir0.1 (hir0.2.trans_le (min_le_left _ _)), Nat.add_comm,
    Nat.mul_comm]
  exact Nat.mod_add_div q _

theorem mem_chunkOf {nth ir0 ir1 : ℕ} (hkernel : Kernel g) (hnth : 0 < nth) (hir0 : ir0 < g.nr0) (hir1 : ir1 < g.nr1) :
    g.chunkOf nth ir0 ir1 < g.total nth ∧ g.cell (g.atOnce nth ir0 ir1) ir0 ir1 ∈ g.chunk nth (g.chunkOf nth ir0 ir1) := by
  obtain ⟨hpos0, hpos1⟩ := nchunks_pos (g := g) hnth
  have hcover0 : g.nr0 ≤ g.dr0 nth * (g.nchunks nth).1 := le_parts hpos0
  have hcover1 : g.nr1 ≤ g.dr1 nth * (g.nchunks nth).2 := le_parts hpos1
  have hdr0 : 0 < g.dr0 nth := Nat.pos_of_ne_zero (fun h => by rw [h, Nat.zero_mul] at hcover0; omega)
  have hdr1 : 0 < g.dr1 nth := Nat.pos_of_ne_zero (fun h => by rw [h, Nat.zero_mul] at hcover1; omega)
  have hith0 : ir0 / g.dr0 nth < (g.nchunks nth).1 := (Nat.div_lt_iff_lt_mul hdr0).mpr (by rw [Nat.mul_comm]; omega)
  have hith1 : ir1 / g.dr1 nth < (g.nchunks nth).2 := (Nat.div_lt_iff_lt_mul hdr1).mpr (by rw [Nat.mul_comm]; omega)
  refine ⟨?_, (mem_chunk hkernel).mpr ⟨ir0, ir1, ?_, ?_, rfl⟩⟩
  · unfold total chunkOf
    calc
      _ < ir1 / g.dr1 nth * (g.nchunks nth).1 + (g.nchunks nth).1 := Nat.add_lt_add_left hith0 _
      _ = (ir1 / g.dr1 nth + 1) * (g.nchunks nth).1 := (Nat.succ_mul _ _).symm
      _ ≤ (g.nchunks nth).2 * (g.nchunks nth).1 := Nat.mul_le_mul_right _ hith1
      _ = (g.nchunks nth).1 * (g.nchunks nth).2 := Nat.mul_comm _ _
  · unfold ir0End ir0Start chunkOf
    rw [Nat.mul_add_mod_self_right, Nat.mod_eq_of_lt hith0]
    have hsplit := Nat.mod_add_div ir0 (g.dr0 nth)
    have hmod := Nat.mod_lt ir0 hdr0
    omega
  · unfold ir1End ir1Start chunkOf
    rw [Nat.mul_comm (ir1 / _) _, Nat.mul_add_div hpos0, Nat.div_eq_of_lt hith0, Nat.add_zero]
    have hsplit := Nat.mod_add_div ir1 (g.dr1 nth)
    have hmod := Nat.mod_lt ir1 hdr1
    omega

end Tiles

end Product

end PyannoteCpp.MulMat
