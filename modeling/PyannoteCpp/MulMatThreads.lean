import PyannoteCpp.GraphComputeResult
import PyannoteCpp.MachineInt
import PyannoteCpp.MulMat
import PyannoteCpp.RowMajor

set_option autoImplicit false

/-!
# The threads of a matrix product

Up to the barrier in the kernel the threads convert the second operand, each of
them its blocks of every column, and the first one stores the number of the
first chunk that is not dealt out. Behind it each thread takes the chunk of its
own number and then the next ones off the shared counter.
-/
namespace PyannoteCpp.MulMat
open Crews SharedStores MachineInt

variable {n : ℕ} {W V : Type*}

/-- The converted operand, the result and `current_chunk` of the pool. -/
structure Mem (W V : Type*) where
  wdata : ℕ → W
  dst : ℕ → V
  currentChunk : ℤ

inductive Write (W : Type*) where
  | block (address : ℕ) (w : W)
  | counter (chunk : ℤ)

inductive Place where
  | storing (rest : List Store)
  | stopped

def Write.run (w : Write W) (m : Mem W V) : Mem W V :=
  match w with
  | .block address w => { m with wdata := Function.update m.wdata address w }
  | .counter chunk => { m with currentChunk := chunk }

namespace Product

variable (g : Product W V)

section Convert

def nbw2 : ℕ := g.rowSize * g.ne11

def nbw3 : ℕ := g.nbw2 * g.ne12

def wdataBlock (i11 i12 i13 k : ℕ) : ℕ := i13 * g.nbw3 + i12 * g.nbw2 + i11 * g.rowSize + k * g.typeSize

def src1Block (i11 i12 i13 k : ℕ) : ℕ := i13 * g.nb13 + i12 * g.nb12 + i11 * g.nb11 + k * g.blckSize * g.nb10

def blockRange (nth ith : ℕ) : ℕ × ℕ := (ith * g.ne10 / g.blckSize / nth, (ith + 1) * g.ne10 / g.blckSize / nth)

def convert (nth ith : ℕ) : List (Write W) :=
  (if g.converted then
    (List.range g.ne13).flatMap (fun i13 => (List.range g.ne12).flatMap (fun i12 => (List.range g.ne11).flatMap (fun i11 =>
      (turns (g.blockRange nth ith).1 1 (g.blockRange nth ith).2).map (fun k =>
        .block (g.wdataBlock i11 i12 i13 k) (g.fromFloat (g.src1Block i11 i12 i13 k))))))
  else []) ++ if ith = 0 then [.counter nth] else []

end Convert

/-- The number of a chunk, or none is left. -/
def take (nth : ℕ) (currentChunk : ℤ) : Place :=
  if currentChunk < g.total nth then .storing (g.chunk nth currentChunk.toNat) else .stopped

/-- Behind the barrier. The counter is an `int`, and its addition wraps. -/
def multiply (n : ℕ) : Crew n Place (Mem W V) where
  start i := g.take n i.val
  turn _ k :=
    match k with
    | .storing (s :: rest) => some (fun m =>
        (.storing rest, { m with dst := Function.update m.dst s.address (g.value m.wdata s) }))
    | .storing [] => some (fun m =>
        if n ≥ g.total n then (.stopped, m)
        else (g.take n m.currentChunk, { m with currentChunk := toInt (m.currentChunk + 1) }))
    | .stopped => none

def node (n : ℕ) : GraphCompute.Node n (List (Write W) ⊕ Place) (Mem W V) :=
  [(tasks (fun i : Fin n => g.convert n i.val) Write.run).within Sum.inl Sum.getLeft?,
    (g.multiply n).within Sum.inr Sum.getRight?]

section Converted

variable {g}

theorem rowSize_eq : g.rowSize = g.ne10 / g.blckSize * g.typeSize := by
  unfold rowSize
  rw [Nat.mul_div_assoc _ g.blocks, Nat.mul_comm]

theorem wdataBlock_eq (i11 i12 i13 k : ℕ) : g.wdataBlock i11 i12 i13 k =
    (((i13 * g.ne12 + i12) * g.ne11 + i11) * (g.ne10 / g.blckSize) + k) * g.typeSize := by
  unfold wdataBlock nbw3 nbw2
  rw [rowSize_eq]
  ring

theorem wdataBlock_inj {i11 i12 i13 k j11 j12 j13 l : ℕ} (h11 : i11 < g.ne11) (h12 : i12 < g.ne12)
    (hk : k < g.ne10 / g.blckSize) (h11' : j11 < g.ne11) (h12' : j12 < g.ne12) (hl : l < g.ne10 / g.blckSize)
    (h : g.wdataBlock i11 i12 i13 k = g.wdataBlock j11 j12 j13 l) : i11 = j11 ∧ i12 = j12 ∧ i13 = j13 ∧ k = l := by
  rw [wdataBlock_eq, wdataBlock_eq] at h
  obtain ⟨hcolumn, hkl⟩ := RowMajor.row_inj hk hl (Nat.eq_of_mul_eq_mul_right g.typeSize_pos h)
  obtain ⟨hplane, hi11⟩ := RowMajor.row_inj h11 h11' hcolumn
  obtain ⟨hi13, hi12⟩ := RowMajor.row_inj h12 h12' hplane
  exact ⟨hi11, hi12, hi13, hkl⟩

theorem exists_blockRange {k : ℕ} (hn : 0 < n) (hk : k < g.ne10 / g.blckSize) :
    ∃ i : Fin n, (g.blockRange n i.val).1 ≤ k ∧ k < (g.blockRange n i.val).2 := by
  have hlast : k < (n * g.ne10) / g.blckSize / n := by
    rw [Nat.div_div_eq_div_mul, Nat.mul_comm g.blckSize n, Nat.mul_div_mul_left _ _ hn]
    exact hk
  have hfirst : ∀ j ≤ n, k < (j * g.ne10) / g.blckSize / n → ∃ i < j, (g.blockRange n i).1 ≤ k ∧ k < (g.blockRange n i).2 := by
    intro j
    induction j with
    | zero =>
      intro _ h
      rw [Nat.zero_mul, Nat.zero_div, Nat.zero_div] at h
      exact absurd h (Nat.not_lt_zero k)
    | succ j ih =>
      intro hj h
      by_cases hle : (j * g.ne10) / g.blckSize / n ≤ k
      · exact ⟨j, Nat.lt_succ_self j, hle, h⟩
      · obtain ⟨i, hi, hrange⟩ := ih (Nat.le_of_succ_le hj) (not_le.mp hle)
        exact ⟨i, Nat.lt_succ_of_lt hi, hrange⟩
  obtain ⟨i, hi, hrange⟩ := hfirst n le_rfl hlast
  exact ⟨⟨i, hi⟩, hrange⟩

theorem blockRange_le {k ith : ℕ} (hith : ith < n) (hk : k < (g.blockRange n ith).2) : k < g.ne10 / g.blckSize := by
  have hn : 0 < n := Nat.zero_lt_of_lt hith
  calc
    k < (ith + 1) * g.ne10 / g.blckSize / n := hk
    _ ≤ n * g.ne10 / g.blckSize / n := Nat.div_le_div_right (Nat.div_le_div_right (Nat.mul_le_mul_right _ hith))
    _ = g.ne10 / g.blckSize := by
      rw [Nat.div_div_eq_div_mul, Nat.mul_comm g.blckSize n, Nat.mul_div_mul_left _ _ hn]

theorem mem_convert {ith a : ℕ} {w : W} : Write.block a w ∈ g.convert n ith ↔ g.converted = true ∧
    ∃ i13 < g.ne13, ∃ i12 < g.ne12, ∃ i11 < g.ne11, ∃ k, ((g.blockRange n ith).1 ≤ k ∧ k < (g.blockRange n ith).2) ∧
      g.wdataBlock i11 i12 i13 k = a ∧ g.fromFloat (g.src1Block i11 i12 i13 k) = w := by
  have hturns : ∀ k a b : ℕ, k ∈ turns a 1 b ↔ a ≤ k ∧ k < b := fun k a b => by
    rw [mem_turns Nat.one_pos]
    constructor
    · rintro ⟨hlt, t, rfl⟩
      exact ⟨by omega, hlt⟩
    · rintro ⟨hle, hlt⟩
      exact ⟨hlt, k - a, by omega⟩
  have hcounter : Write.block a w ∉ (if ith = 0 then [Write.counter (n : ℤ)] else []) := by
    split_ifs <;> simp
  unfold convert
  rw [List.mem_append, or_iff_left hcounter]
  split_ifs with hconverted
  · simp only [List.mem_flatMap, List.mem_map, List.mem_range, hturns, Write.block.injEq, hconverted, true_and]
  · simp [hconverted]

theorem counter_mem {ith : ℕ} {q : ℤ} : Write.counter q ∈ g.convert n ith ↔ ith = 0 ∧ q = n := by
  unfold convert
  rw [List.mem_append]
  constructor
  · rintro (h | h)
    · split_ifs at h
      · simp only [List.mem_flatMap, List.mem_map] at h
        obtain ⟨_, _, _, _, _, _, _, _, h⟩ := h
        exact nomatch h
      · exact nomatch h
    · split_ifs at h with hith
      · exact ⟨hith, Write.counter.inj (List.mem_singleton.mp h)⟩
      · exact nomatch h
  · rintro ⟨rfl, rfl⟩
    exact .inr (List.mem_singleton.mpr rfl)

structure Ready (g : Product W V) (n : ℕ) (mem mem' : Mem W V) : Prop where
  dst : mem'.dst = mem.dst
  counter : mem'.currentChunk = n
  wdata : g.converted = true → ∀ i13 < g.ne13, ∀ i12 < g.ne12, ∀ i11 < g.ne11, ∀ k < g.ne10 / g.blckSize,
    mem'.wdata (g.wdataBlock i11 i12 i13 k) = g.fromFloat (g.src1Block i11 i12 i13 k)

theorem convert_ready (hn : 0 < n) {mem mem' : Mem W V}
    (h : (tasks (fun i : Fin n => g.convert n i.val) Write.run).Leaves mem mem') : Ready g n mem mem' where
  dst := by
    have hdst : StoresTo Mem.dst (fun _ => none) (Write.run (W := W) (V := V)) := fun a m x => by cases a <;> rfl
    funext x
    rcases tasks_cell hdst h x with ⟨_, _, _, hnone⟩ | ⟨hsame, -⟩
    · exact nomatch hnone
    · exact hsame
  counter := by
    have hcounter : StoresTo (fun m (_ : Unit) => m.currentChunk)
        (fun w => match w with | .block _ _ => none | .counter q => some ((), q)) (Write.run (W := W) (V := V)) :=
      fun a m x => by
        cases a with
        | block => rfl
        | counter q => exact .inl ⟨rfl, rfl⟩
    rcases tasks_cell hcounter h () with ⟨i, w, hw, hstores⟩ | ⟨-, hnone⟩
    · cases w with
      | block => exact nomatch hstores
      | counter q =>
        have hvalue : q = mem'.currentChunk := (Prod.ext_iff.mp (Option.some.inj hstores)).2
        rw [← hvalue]
        exact (counter_mem.mp hw).2
    · exact absurd rfl (hnone ⟨0, hn⟩ (.counter n) (counter_mem.mpr ⟨rfl, rfl⟩) n)
  wdata := fun hconverted i13 h13 i12 h12 i11 h11 k hk => by
    have hwdata : StoresTo Mem.wdata (fun w => match w with | .block a w => some (a, w) | .counter _ => none)
        (Write.run (W := W) (V := V)) := fun a m x => by
      cases a with
      | block a w =>
        by_cases hx : x = a
        · exact .inl ⟨hx, by rw [hx]; exact Function.update_self _ _ _⟩
        · exact .inr ⟨hx, Function.update_of_ne hx _ _⟩
      | counter q => rfl
    rcases tasks_cell hwdata h (g.wdataBlock i11 i12 i13 k) with ⟨i, w, hw, hstores⟩ | ⟨-, hnone⟩
    · cases w with
      | counter => exact nomatch hstores
      | block a w =>
        obtain ⟨rfl, hvalue⟩ := Prod.ext_iff.mp (Option.some.inj hstores)
        obtain ⟨-, j13, h13', j12, h12', j11, h11', l, hl, hplace, hfloat⟩ := mem_convert.mp hw
        obtain ⟨rfl, rfl, rfl, rfl⟩ := wdataBlock_inj h11' h12' (blockRange_le i.isLt hl.2) h11 h12 hk hplace
        exact hvalue.symm.trans hfloat.symm
    · obtain ⟨i, hi⟩ := exists_blockRange hn hk
      exact absurd rfl (hnone i _ (mem_convert.mpr ⟨hconverted, i13, h13, i12, h12, i11, h11, k, hi, rfl, rfl⟩) _)

end Converted

section Column

def column (ir1 : ℕ) : List W :=
  (List.range (g.ne10 / g.blckSize)).map (fun k =>
    if g.converted then g.fromFloat (g.src1Block (g.i11 ir1) (g.i12 ir1) (g.i13 ir1) k)
    else g.src1 (g.i13 ir1 * g.nb13 + g.i12 ir1 * g.nb12 + g.i11 ir1 * g.nb11 + k * g.typeSize))

/-- The vector product of a row and a column, with as many others as its chunk allows. -/
def product (nth ir0 ir1 : ℕ) : V := g.dot (g.atOnce nth ir0 ir1) (g.src0Row ir1 + ir0 * g.nb01) (g.column ir1)

variable {g} {ir0 ir1 : ℕ}

theorem coordinates_lt (h : ir1 < g.nr1) : g.i11 ir1 < g.ne11 ∧ g.i12 ir1 < g.ne12 ∧ g.i13 ir1 < g.ne13 := by
  unfold nr1 at h
  have hpos : 0 < g.ne11 * g.ne12 := Nat.pos_of_lt_mul_right h
  have h11 : 0 < g.ne11 := Nat.pos_of_mul_pos_right hpos
  have hplane : ir1 - g.i13 ir1 * g.ne12 * g.ne11 = ir1 % (g.ne12 * g.ne11) := by
    unfold i13
    rw [Nat.mul_assoc, Nat.mod_eq_sub_div_mul]
  have hcolumn : g.i11 ir1 = (ir1 % (g.ne12 * g.ne11)) % g.ne11 := by
    unfold i11 i12
    rw [hplane, Nat.mod_eq_sub_div_mul (k := g.ne11)]
  refine ⟨?_, ?_, ?_⟩
  · rw [hcolumn]
    exact Nat.mod_lt _ h11
  · unfold i12
    rw [hplane]
    exact Nat.div_lt_of_lt_mul (by rw [Nat.mul_comm g.ne11]; exact Nat.mod_lt _ (by rw [Nat.mul_comm]; exact hpos))
  · exact Nat.div_lt_of_lt_mul (by rw [Nat.mul_comm g.ne12]; exact h)

theorem src1Col_contiguous (h : ir1 < g.nr1) (hcont : g.src1Cont = true) (hconverted : g.converted = false) :
    (g.i11 ir1 + g.i12 ir1 * g.ne11 + g.i13 ir1 * g.ne12 * g.ne11) * g.rowSize =
      g.i11 ir1 * g.nb11 + g.i12 ir1 * g.nb12 + g.i13 ir1 * g.nb13 := by
  obtain ⟨h11, h12, h13⟩ := coordinates_lt h
  have hrow : g.nb10 * (g.ne10 / g.blckSize) = g.rowSize := by
    rw [rowSize_eq, g.nb10_eq, hconverted, Nat.mul_comm]
    rfl
  unfold src1Cont at hcont
  rw [hconverted] at hcont
  simp only [Bool.false_eq_true, if_false, hrow, decide_eq_true_eq] at hcont
  obtain ⟨c11, c12, c13⟩ := hcont
  have e11 : g.i11 ir1 * g.nb11 = g.i11 ir1 * g.rowSize := by
    rcases c11 with hone | hstride
    · rw [show g.i11 ir1 = 0 by omega, Nat.zero_mul, Nat.zero_mul]
    · rw [hstride]
  have e12 : g.i12 ir1 * g.nb12 = g.i12 ir1 * (g.rowSize * g.ne11) := by
    rcases c12 with hone | hstride
    · rw [show g.i12 ir1 = 0 by omega, Nat.zero_mul, Nat.zero_mul]
    · rw [hstride]
  have e13 : g.i13 ir1 * g.nb13 = g.i13 ir1 * (g.rowSize * g.ne11 * g.ne12) := by
    rcases c13 with hone | hstride
    · rw [show g.i13 ir1 = 0 by omega, Nat.zero_mul, Nat.zero_mul]
    · rw [hstride]
  rw [e11, e12, e13]
  ring

/-- Behind the barrier a cell of the loop has the product of its row and column. -/
theorem value_cell {mem mem' : Mem W V} (hready : Ready g n mem mem') (h : ir1 < g.nr1) :
    g.value mem'.wdata (g.cell (g.atOnce n ir0 ir1) ir0 ir1) = g.product n ir0 ir1 := by
  unfold value product columnBlocks column cell
  congr 1
  refine List.map_congr_left (fun k hk => ?_)
  rw [List.mem_range] at hk
  obtain ⟨h11, h12, h13⟩ := coordinates_lt h
  cases hconverted : g.converted with
  | true =>
    rw [if_pos rfl, if_pos rfl, ← hready.wdata hconverted _ h13 _ h12 _ h11 k hk]
    congr 1
    unfold src1Col wdataBlock nbw3 nbw2
    rw [if_pos (.inr hconverted)]
    ring
  | false =>
    rw [if_neg Bool.false_ne_true, if_neg Bool.false_ne_true]
    congr 1
    unfold src1Col
    split_ifs with hcont
    · rcases hcont with hcont | htrue
      · rw [src1Col_contiguous h hcont hconverted]
        ring
      · exact nomatch hconverted.symm.trans htrue
    · ring

end Column

end Product

end PyannoteCpp.MulMat
