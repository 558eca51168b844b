import PyannoteCpp.BitReversal
import PyannoteCpp.CheckedVector

set_option autoImplicit false

/-!
# The transform in place

`fft` on a vector of any numbers, with the length as a number of type `int` and
every access checked. On a vector whose length is a power of two that fits, no
access leaves the vector, and what the loops do is said without it.
-/
namespace PyannoteCpp.Fft
open MachineInt CheckedVector CheckedLoops BitReversal

variable {Z : Type} [One Z] [Add Z] [Sub Z] [Mul Z]

/-- `while ((1 << log2n) < n) log2n++`. A shift by 31 does not fit, so the turns are enough. -/
def findLog2 (n : ℤ) : ℕ → ℕ → Except Fault ℕ
  | 0, _ => .error .overflow
  | turns + 1, log2n => do
    let power ← checked (fit (2 ^ log2n))
    if power < n then findLog2 n turns (log2n + 1) else pure log2n

/-- The index with the bits of `i` in the opposite order. -/
def reversedIndex (log2n i : ℕ) : ℕ :=
  (List.range log2n).foldl (fun j k => j ||| (((i >>> k) &&& 1) <<< (log2n - 1 - k))) 0

def swapAt (x : List Z) (i j : ℕ) : Except Fault (List Z) := do
  let a ← readAt x i
  let b ← readAt x j
  let x ← writeAt x i b
  writeAt x j a

def reverseTurn (log2n : ℕ) (x : List Z) (i : ℕ) : Except Fault (List Z) :=
  let j := reversedIndex log2n i
  if j > i then swapAt x i j else pure x

/-- One turn of the innermost loop on the vector and `w`. -/
def butterfly (wm : Z) (half k : ℕ) (s : List Z × Z) (j : ℕ) : Except Fault (List Z × Z) := do
  let upper ← readAt s.1 (k + j + half : ℕ)
  let t := s.2 * upper
  let u ← readAt s.1 (k + j : ℕ)
  let x ← writeAt s.1 (k + j : ℕ) (u + t)
  let x ← writeAt x (k + j + half : ℕ) (u - t)
  pure (x, s.2 * wm)

def block (wm : Z) (m : ℕ) (x : List Z) (k : ℕ) : Except Fault (List Z) := do
  let s ← (List.range (m / 2)).foldlM (butterfly wm (m / 2) k) (x, 1)
  pure s.1

def strided (n m : ℕ) : List ℕ := (List.range ((n + m - 1) / m)).map (fun c => c * m)

def stageLoop (wm : ℕ → Z) (n : ℕ) (x : List Z) (s : ℕ) : Except Fault (List Z) :=
  let m := 1 <<< s
  (strided n m).foldlM (block (wm m) m) x

/-- `wm m` is the root a stage with blocks of `m` cells takes. -/
def fft (wm : ℕ → Z) (x : List Z) : Except Fault (List Z) :=
  let n := toInt x.length
  if n ≤ 1 then pure x
  else do
    let log2n ← findLog2 n 32 0
    let x ← (List.range n.toNat).foldlM (reverseTurn log2n) x
    ((List.range log2n).map (fun s => s + 1)).foldlM (stageLoop wm n.toNat) x

theorem reversedIndex_eq (log2n i : ℕ) : reversedIndex log2n i = reversed log2n i := by
  unfold reversedIndex
  rw [foldl_bits, Nat.zero_or]

theorem findLog2_two_pow {K : ℕ} (hK : K ≤ 30) {turns l : ℕ} (hl : l ≤ K) (hturns : K < l + turns) :
    findLog2 (2 ^ K) turns l = .ok K := by
  induction turns generalizing l with
  | zero => omega
  | succ turns ih =>
    have hfit : InRange (2 ^ l) := by
      have hsmall : (2 : ℤ) ^ l ≤ 2 ^ 30 := pow_le_pow_right₀ (by norm_num) (by omega)
      have hpos : (0 : ℤ) < 2 ^ l := by positivity
      unfold InRange
      omega
    unfold findLog2
    rw [checked_fit hfit, ok_bind]
    rcases Nat.lt_or_eq_of_le hl with hlt | rfl
    · rw [if_pos (pow_lt_pow_right₀ (by norm_num) hlt)]
      exact ih (by omega) (by omega)
    · rw [if_neg (lt_irrefl _)]
      rfl

section Values

def butterflyTurn (wm : Z) (half k : ℕ) (s : (ℕ → Z) × Z) (j : ℕ) : (ℕ → Z) × Z :=
  let t := s.2 * s.1 (k + j + half)
  let u := s.1 (k + j)
  (Function.update (Function.update s.1 (k + j) (u + t)) (k + j + half) (u - t), s.2 * wm)

def blockTurn (wm : Z) (m : ℕ) (f : ℕ → Z) (k : ℕ) : ℕ → Z :=
  ((List.range (m / 2)).foldl (butterflyTurn wm (m / 2) k) (f, 1)).1

def stageTurn (wm : ℕ → Z) (n : ℕ) (f : ℕ → Z) (s : ℕ) : ℕ → Z :=
  (strided n (1 <<< s)).foldl (blockTurn (wm (1 <<< s)) (1 <<< s)) f

def transformed (wm : ℕ → Z) (K : ℕ) (f : ℕ → Z) : ℕ → Z :=
  ((List.range K).map (fun s => s + 1)).foldl (stageTurn wm (2 ^ K))
    ((List.range (2 ^ K)).foldl (swapTurn (reversed K)) f)

variable {n : ℕ}

omit [One Z] [Add Z] [Sub Z] [Mul Z] in
theorem reverseTurn_cells (K : ℕ) (f : ℕ → Z) {i : ℕ} (hi : i < 2 ^ K) :
    reverseTurn K (cells (2 ^ K) f) i = .ok (cells (2 ^ K) (swapTurn (reversed K) f i)) := by
  have himage := reversed_lt K i
  unfold reverseTurn swapTurn
  rw [reversedIndex_eq]
  change (if reversed K i > i then _ else _) = _
  split_ifs with h
  · unfold swapAt
    rw [readAt_cells f hi, ok_bind, readAt_cells f himage, ok_bind, writeAt_cells _ hi, ok_bind,
      writeAt_cells _ himage]
  · rfl

omit [One Z] [Add Z] [Sub Z] [Mul Z] in
theorem reverse_cells (K : ℕ) (f : ℕ → Z) : (List.range (2 ^ K)).foldlM (reverseTurn K) (cells (2 ^ K) f) =
    .ok (cells (2 ^ K) ((List.range (2 ^ K)).foldl (swapTurn (reversed K)) f)) :=
  foldlM_simulates (cells (2 ^ K)) _ (fun f _ hi => reverseTurn_cells K f (List.mem_range.1 hi)) f

omit [One Z] in
theorem butterfly_cells (wm : Z) {half k j : ℕ} (h : k + j + half < n) (s : (ℕ → Z) × Z) :
    butterfly wm half k (cells n s.1, s.2) j =
      .ok (cells n (butterflyTurn wm half k s j).1, (butterflyTurn wm half k s j).2) := by
  have hlower : k + j < n := by omega
  unfold butterfly
  rw [readAt_cells s.1 h, ok_bind, readAt_cells s.1 hlower, ok_bind, writeAt_cells s.1 hlower, ok_bind,
    writeAt_cells _ h]
  rfl

theorem block_cells (wm : Z) {m k : ℕ} (h : k + m ≤ n) (f : ℕ → Z) :
    block wm m (cells n f) k = .ok (cells n (blockTurn wm m f k)) := by
  have hrun : (List.range (m / 2)).foldlM (butterfly wm (m / 2) k) (cells n f, 1) =
      .ok (cells n (blockTurn wm m f k), ((List.range (m / 2)).foldl (butterflyTurn wm (m / 2) k) (f, 1)).2) := by
    refine foldlM_simulates (fun s : (ℕ → Z) × Z => (cells n s.1, s.2)) _ (fun s j hj => ?_) (f, 1)
    have hj := List.mem_range.1 hj
    exact butterfly_cells wm (by omega) s
  unfold block
  rw [hrun]
  rfl

theorem strided_two_pow (s w : ℕ) : strided (2 ^ (s + w)) (1 <<< s) = (List.range (2 ^ w)).map (fun c => c * 2 ^ s) := by
  have hpos : 0 < 2 ^ s := Nat.two_pow_pos s
  have hcount : (2 ^ (s + w) + 2 ^ s - 1) / 2 ^ s = 2 ^ w := by
    rw [pow_add, Nat.add_sub_assoc hpos, Nat.mul_add_div hpos, Nat.div_eq_of_lt (by omega), Nat.add_zero]
  unfold strided
  rw [Nat.one_shiftLeft, hcount]

theorem stageLoop_cells (wm : ℕ → Z) {K s : ℕ} (hs : s ≤ K) (f : ℕ → Z) :
    stageLoop wm (2 ^ K) (cells (2 ^ K) f) s = .ok (cells (2 ^ K) (stageTurn wm (2 ^ K) f s)) := by
  obtain ⟨w, rfl⟩ := Nat.exists_eq_add_of_le hs
  refine foldlM_simulates (cells (2 ^ (s + w))) _ (fun f k hk => ?_) f
  rw [strided_two_pow] at hk
  obtain ⟨c, hc, rfl⟩ := List.mem_map.1 hk
  have hlast := Nat.mul_le_mul_right (2 ^ s) (show c + 1 ≤ 2 ^ w from List.mem_range.1 hc)
  refine block_cells _ ?_ f
  rw [Nat.one_shiftLeft, pow_add]
  linarith

/-- On a vector of a power of two no access leaves the vector. -/
theorem fft_cells (wm : ℕ → Z) {K : ℕ} (hpos : 0 < K) (hK : K ≤ 30) (f : ℕ → Z) :
    fft wm (cells (2 ^ K) f) = .ok (cells (2 ^ K) (transformed wm K f)) := by
  have hsmall : (2 : ℤ) ^ K ≤ 2 ^ 30 := pow_le_pow_right₀ (by norm_num) hK
  have hlarge : (2 : ℤ) ^ 1 ≤ 2 ^ K := pow_le_pow_right₀ (by norm_num) hpos
  have hcast : ((2 ^ K : ℕ) : ℤ) = 2 ^ K := by push_cast; rfl
  have hn : toInt ((cells (2 ^ K) f).length : ℤ) = 2 ^ K := by
    rw [length_cells, hcast]
    exact toInt_of_inRange (by unfold InRange; omega)
  have hnat : ((2 : ℤ) ^ K).toNat = 2 ^ K := by
    rw [← hcast, Int.toNat_natCast]
  unfold fft
  rw [hn, if_neg (by omega), findLog2_two_pow hK (Nat.zero_le K) (by omega), ok_bind, hnat, reverse_cells, ok_bind]
  refine foldlM_simulates (cells (2 ^ K)) _ (fun f s hs => ?_) _
  obtain ⟨r, hr, rfl⟩ := List.mem_map.1 hs
  exact stageLoop_cells wm (List.mem_range.1 hr) f

end Values

theorem fft_unchanged (wm : ℕ → Z) {x : List Z} (h : toInt x.length ≤ 1) : fft wm x = .ok x := by
  unfold fft
  rw [if_pos h]
  rfl

theorem fft_returns (wm : ℕ → Z) {K : ℕ} (hK : K ≤ 30) {x : List Z} (hx : x.length = 2 ^ K) :
    Returns (fft wm x) (fun y => y.length = 2 ^ K) := by
  rcases Nat.eq_zero_or_pos K with rfl | hpos
  · have hone : toInt (x.length : ℤ) = 1 := by
      rw [hx]
      exact toInt_of_inRange (by unfold InRange; norm_num)
    rw [fft_unchanged wm hone.le]
    exact returns_ok hx
  · rw [eq_cells x 1, hx, fft_cells wm hpos hK]
    exact returns_ok (length_cells _ _)

end PyannoteCpp.Fft
