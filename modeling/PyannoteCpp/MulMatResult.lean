import PyannoteCpp.MulMatThreads

set_option autoImplicit false

/-!
# What a matrix product leaves

The counter deals out each chunk once, to whichever thread comes next. A store of a
chunk that is dealt out is done or is still before the thread that has it; a
thread stops when all chunks are dealt out.
-/
namespace PyannoteCpp.MulMat
open Crews GraphCompute MachineInt ReachableStates

variable {n : ℕ} {W V : Type*}

namespace Product

variable (g : Product W V) (n : ℕ)

/-- A store of some row and column, as the chunks of `n` threads make it. -/
def IsCell (s : Store) : Prop := ∃ ir0 < g.nr0, ∃ ir1 < g.nr1, s = g.cell (g.atOnce n ir0 ir1) ir0 ir1

def Apart : Prop := ∀ s t, g.IsCell n s → g.IsCell n t → s.address = t.address → s = t

/-- The strides of a new tensor of floats, which the result of `ggml_mul_mat` is. -/
structure NewResult : Prop where
  nb1 : g.nb1 = 4 * g.ne01
  nb2 : g.nb2 = g.nb1 * g.ne11
  nb3 : g.nb3 = g.nb2 * g.ne12

variable {g n}

theorem NewResult.dstCol (h : g.NewResult) (ir1 : ℕ) : g.dstCol ir1 = 4 * (ir1 * g.ne01) := by
  have hplane : g.i13 ir1 * g.ne12 * g.ne11 ≤ ir1 := by
    unfold i13
    rw [Nat.mul_assoc]
    exact Nat.div_mul_le_self _ _
  have hrow : g.i12 ir1 * g.ne11 ≤ ir1 - g.i13 ir1 * g.ne12 * g.ne11 := Nat.div_mul_le_self _ _
  have hsum : g.i13 ir1 * g.ne12 * g.ne11 + g.i12 ir1 * g.ne11 + g.i11 ir1 = ir1 := by
    unfold i11
    omega
  calc
    g.dstCol ir1 = 4 * ((g.i13 ir1 * g.ne12 * g.ne11 + g.i12 ir1 * g.ne11 + g.i11 ir1) * g.ne01) := by
      unfold Product.dstCol
      rw [h.nb3, h.nb2, h.nb1]
      ring
    _ = _ := by rw [hsum]

theorem NewResult.apart (h : g.NewResult) : g.Apart n := by
  rintro s t ⟨ir0, hir0, ir1, -, rfl⟩ ⟨jr0, hjr0, jr1, -, rfl⟩ haddress
  have hoffset : ir1 * g.ne01 + ir0 = jr1 * g.ne01 + jr0 := by
    change g.dstCol ir1 + 4 * ir0 = g.dstCol jr1 + 4 * jr0 at haddress
    rw [h.dstCol, h.dstCol] at haddress
    omega
  obtain ⟨rfl, rfl⟩ := RowMajor.row_inj hir0 hjr0 hoffset
  rfl

theorem NewResult.kernel (h : g.NewResult) (hrows : g.vecDotNumRows = 1 ∨ g.vecDotNumRows = 2) : Kernel g :=
  hrows.imp_right fun htwo => ⟨htwo, h.nb1 ▸ Nat.dvd_mul_right 4 _⟩

end Product

/-- A thread that may take another chunk counts one. -/
def Place.load (p : Place) : ℕ :=
  match p with
  | .storing _ => 1
  | .stopped => 0

theorem load_storing (rest : List Store) : (Place.storing rest).load = 1 := rfl

theorem load_stopped : Place.stopped.load = 0 := rfl

section Dealt

variable {g : Product W V} {mem m : Mem W V} {places : Fin n → Place} {i : Fin n}

def Stored (g : Product W V) (mem m : Mem W V) (s : Store) : Prop := m.dst s.address = g.value mem.wdata s

def Held (places : Fin n → Place) (s : Store) : Prop := ∃ i rest, places i = .storing rest ∧ s ∈ rest

/-- The chunks below `q` are dealt out. -/
structure DealtTo (g : Product W V) (mem : Mem W V) (places : Fin n → Place) (m : Mem W V) (q : ℕ) : Prop where
  counter : m.currentChunk = q
  first : n ≤ q
  room : n < g.total n → q + ∑ i, (places i).load ≤ g.total n + n
  done : ∀ c < q, c < g.total n → ∀ s ∈ g.chunk n c, Stored g mem m s ∨ Held places s
  stopped : ∀ i, places i = .stopped → g.total n ≤ q

structure Dealt (g : Product W V) (mem : Mem W V) (places : Fin n → Place) (m : Mem W V) : Prop where
  wdata : m.wdata = mem.wdata
  cells : ∀ s, Held places s → g.IsCell n s
  frame : ∀ a, (∀ s, g.IsCell n s → s.address ≠ a) → m.dst a = mem.dst a
  dealt : ∃ q, DealtTo g mem places m q

theorem isCell_of_chunk (hkernel : Product.Kernel g) {q : ℕ} {s : Store} (h : s ∈ g.chunk n q) : g.IsCell n s := by
  obtain ⟨ir0, ir1, hir0, hir1, rfl⟩ := (Product.mem_chunk hkernel).mp h
  refine ⟨ir0, hir0.2.trans_le (min_le_right _ _), ir1, hir1.2.trans_le (min_le_right _ _), ?_⟩
  rw [Product.atOnce, Product.chunkOf_eq hir0 hir1]

theorem load_le (places : Fin n → Place) : ∑ i, (places i).load ≤ n := by
  calc
    ∑ i, (places i).load ≤ ∑ _i : Fin n, 1 := Finset.sum_le_sum (fun i _ => by cases places i <;> simp [Place.load])
    _ = n := by simp

theorem load_update (places : Fin n → Place) (i : Fin n) (p : Place) :
    ∑ j, (Function.update places i p j).load + (places i).load = ∑ j, (places j).load + p.load := by
  rw [← Finset.add_sum_erase Finset.univ (fun j => (Function.update places i p j).load) (Finset.mem_univ i),
    ← Finset.add_sum_erase Finset.univ (fun j => (places j).load) (Finset.mem_univ i)]
  have hothers : ∑ j ∈ Finset.univ.erase i, (Function.update places i p j).load = ∑ j ∈ Finset.univ.erase i, (places j).load :=
    Finset.sum_congr rfl (fun j hj => by rw [Function.update_of_ne (Finset.ne_of_mem_erase hj)])
  rw [hothers, Function.update_self]
  omega

theorem take_cases (q : ℕ) : (q < g.total n ∧ g.take n q = .storing (g.chunk n q)) ∨ (g.total n ≤ q ∧ g.take n q = .stopped) := by
  unfold Product.take
  rcases Nat.lt_or_ge q (g.total n) with hlt | hle
  · exact .inl ⟨hlt, by rw [if_pos (by exact_mod_cast hlt), Int.toNat_natCast]⟩
  · exact .inr ⟨hle, by rw [if_neg (by exact_mod_cast Nat.not_lt.mpr hle)]⟩

theorem held_update_ne {p : Place} {s : Store} (h : Held places s) (hi : ∀ rest, places i = .storing rest → s ∉ rest) :
    Held (Function.update places i p) s := by
  obtain ⟨j, rest, hj, hs⟩ := h
  have hne : j ≠ i := fun hji => hi rest (hji ▸ hj) hs
  exact ⟨j, rest, by rw [Function.update_of_ne hne]; exact hj, hs⟩

theorem held_of_update {p : Place} {s : Store} (h : Held (Function.update places i p) s) :
    Held places s ∨ ∃ rest, p = .storing rest ∧ s ∈ rest := by
  obtain ⟨j, rest, hj, hs⟩ := h
  by_cases hji : j = i
  · subst hji
    rw [Function.update_self] at hj
    exact .inr ⟨rest, hj, hs⟩
  · rw [Function.update_of_ne hji] at hj
    exact .inl ⟨j, rest, hj, hs⟩

theorem started_dealt (hkernel : Product.Kernel g) (hcounter : mem.currentChunk = n) :
    Dealt g mem (fun i : Fin n => g.take n i.val) mem where
  wdata := rfl
  cells := fun s ⟨i, rest, hi, hs⟩ => by
    rcases take_cases (g := g) (n := n) i.val with ⟨-, htake⟩ | ⟨-, htake⟩
    · obtain rfl := Place.storing.inj (htake.symm.trans hi)
      exact isCell_of_chunk hkernel hs
    · exact nomatch htake.symm.trans hi
  frame := fun _ _ => rfl
  dealt := by
    refine ⟨n, hcounter, le_rfl, fun hlt => ?_, fun c hc hlt s hs => .inr ?_, fun i hi => ?_⟩
    · have hload := load_le (fun i : Fin n => g.take n i.val)
      omega
    · refine ⟨⟨c, hc⟩, g.chunk n c, ?_, hs⟩
      rcases take_cases (g := g) (n := n) c with ⟨-, htake⟩ | ⟨hle, -⟩
      · exact htake
      · omega
    · rcases take_cases (g := g) (n := n) i.val with ⟨-, htake⟩ | ⟨hle, -⟩
      · exact nomatch hi.symm.trans htake
      · have hlt := i.isLt
        omega

theorem Dealt.store (hapart : g.Apart n) (hkernel : Product.Kernel g) (h : Dealt g mem places m) {s : Store}
    {rest : List Store} (hi : places i = .storing (s :: rest)) :
    Dealt g mem (Function.update places i (.storing rest))
      { m with dst := Function.update m.dst s.address (g.value m.wdata s) } := by
  have hs : g.IsCell n s := h.cells s ⟨i, _, hi, List.mem_cons_self⟩
  have hstored : ∀ t, g.IsCell n t → Stored g mem m t ∨ t = s →
      Stored g mem { m with dst := Function.update m.dst s.address (g.value m.wdata s) } t := fun t ht hst => by
    unfold Stored
    by_cases haddress : t.address = s.address
    · rw [hapart t s ht hs haddress, ← h.wdata]
      exact Function.update_self _ _ _
    · rcases hst with hst | rfl
      · exact (Function.update_of_ne haddress _ _).trans hst
      · exact absurd rfl haddress
  refine ⟨h.wdata, fun t ht => ?_, fun a ha => ?_, ?_⟩
  · rcases held_of_update ht with ht | ⟨rest', hrest, ht⟩
    · exact h.cells t ht
    · obtain rfl := Place.storing.inj hrest
      exact h.cells t ⟨i, _, hi, List.mem_cons_of_mem _ ht⟩
  · exact (Function.update_of_ne (ha s hs).symm _ _).trans (h.frame a ha)
  · obtain ⟨q, hq⟩ := h.dealt
    refine ⟨q, hq.counter, hq.first, fun hlt => ?_, fun c hc hlt t ht => ?_, fun j hj => ?_⟩
    · have hload := load_update places i (.storing rest)
      have hroom := hq.room hlt
      rw [hi, load_storing, load_storing] at hload
      omega
    · have hcell : g.IsCell n t := isCell_of_chunk hkernel ht
      rcases hq.done c hc hlt t ht with hst | ⟨j, rest', hj, hmem⟩
      · exact .inl (hstored t hcell (.inl hst))
      · by_cases hji : j = i
        · subst hji
          obtain rfl := Place.storing.inj (hj.symm.trans hi)
          rcases List.mem_cons.mp hmem with rfl | hmem
          · exact .inl (hstored t hcell (.inr rfl))
          · exact .inr ⟨j, rest, Function.update_self _ _ _, hmem⟩
        · exact .inr ⟨j, rest', by rw [Function.update_of_ne hji]; exact hj, hmem⟩
    · by_cases hji : j = i
      · subst hji
        rw [Function.update_self] at hj
        exact nomatch hj
      · rw [Function.update_of_ne hji] at hj
        exact hq.stopped j hj

theorem Dealt.take (hkernel : Product.Kernel g) (hfits : g.total n + n < 2 ^ 31) (h : Dealt g mem places m)
    (hi : places i = .storing []) (hmore : n < g.total n) :
    Dealt g mem (Function.update places i (g.take n m.currentChunk)) { m with currentChunk := toInt (m.currentChunk + 1) } := by
  obtain ⟨q, hq⟩ := h.dealt
  have hroom := hq.room hmore
  have hload := load_update places i (g.take n q)
  have hone : (places i).load = 1 := by rw [hi]; rfl
  have hnext : toInt (m.currentChunk + 1) = ((q + 1 : ℕ) : ℤ) := by
    rw [hq.counter]
    have hself : (places i).load ≤ ∑ j, (places j).load :=
      Finset.single_le_sum (f := fun j => (places j).load) (fun _ _ => Nat.zero_le _) (Finset.mem_univ i)
    rw [toInt_of_inRange (by unfold InRange; omega), Nat.cast_succ]
  have hempty : ∀ s rest, places i = .storing rest → s ∉ rest := fun s rest hrest => by
    rw [← Place.storing.inj (hi.symm.trans hrest)]
    exact List.not_mem_nil
  rw [hq.counter] at hnext ⊢
  rw [hnext]
  refine ⟨h.wdata, fun s hs => ?_, h.frame, q + 1, rfl, Nat.le_succ_of_le hq.first, fun _ => ?_, fun c hc hlt s hs => ?_,
    fun j hj => ?_⟩
  · rcases held_of_update hs with hs | ⟨rest, hrest, hs⟩
    · exact h.cells s hs
    · rcases take_cases (g := g) (n := n) q with ⟨-, htake⟩ | ⟨-, htake⟩
      · obtain rfl := Place.storing.inj (htake.symm.trans hrest)
        exact isCell_of_chunk hkernel hs
      · exact nomatch htake.symm.trans hrest
  · have hall := load_le (Function.update places i (g.take n q))
    rcases take_cases (g := g) (n := n) q with ⟨hlt, htake⟩ | ⟨-, htake⟩
    · omega
    · rw [htake, load_stopped] at hload
      rw [htake]
      omega
  · rcases Nat.lt_succ_iff_lt_or_eq.mp hc with hc | rfl
    · exact (hq.done c hc hlt s hs).imp id (fun hheld => held_update_ne hheld (hempty s))
    · rcases take_cases (g := g) (n := n) c with ⟨-, htake⟩ | ⟨hle, -⟩
      · exact .inr ⟨i, g.chunk n c, by rw [Function.update_self]; exact htake, hs⟩
      · omega
  · by_cases hji : j = i
    · subst hji
      rw [Function.update_self] at hj
      rcases take_cases (g := g) (n := n) q with ⟨-, htake⟩ | ⟨hle, -⟩
      · exact nomatch htake.symm.trans hj
      · omega
    · rw [Function.update_of_ne hji] at hj
      exact (hq.stopped j hj).trans (Nat.le_succ q)

/-- With a thread for each chunk, a thread stops behind its own. -/
theorem Dealt.stop (h : Dealt g mem places m) (hi : places i = .storing []) (hall : g.total n ≤ n) :
    Dealt g mem (Function.update places i .stopped) m := by
  refine ⟨h.wdata, fun s hs => ?_, h.frame, ?_⟩
  · rcases held_of_update hs with hs | ⟨rest, hrest, -⟩
    · exact h.cells s hs
    · exact nomatch hrest
  · obtain ⟨q, hq⟩ := h.dealt
    refine ⟨q, hq.counter, hq.first, fun hmore => absurd hmore (Nat.not_lt.mpr hall), fun c hc hlt s hs => ?_,
      fun _ _ => hall.trans hq.first⟩
    refine (hq.done c hc hlt s hs).imp id (fun hheld => held_update_ne hheld (fun rest hrest => ?_))
    rw [← Place.storing.inj (hi.symm.trans hrest)]
    exact List.not_mem_nil

theorem Dealt.turn (hapart : g.Apart n) (hkernel : Product.Kernel g) (hfits : g.total n + n < 2 ^ 31)
    (h : Dealt g mem places m) {run : Mem W V → Place × Mem W V} (hturn : (g.multiply n).turn i (places i) = some run) :
    Dealt g mem (Function.update places i (run m).1) (run m).2 := by
  cases hi : places i with
  | stopped =>
    rw [hi] at hturn
    exact nomatch hturn
  | storing rest =>
    rw [hi] at hturn
    cases rest with
    | cons s rest =>
      obtain rfl := Option.some.inj hturn
      exact h.store hapart hkernel hi
    | nil =>
      obtain rfl := Option.some.inj hturn
      dsimp only
      split_ifs with hall
      · exact h.stop hi hall
      · exact h.take hkernel hfits hi (Nat.not_le.mp hall)

/-- All elements are stored, and nothing else is. -/
theorem multiply_leaves (hn : 0 < n) (hapart : g.Apart n) (hkernel : Product.Kernel g) (hfits : g.total n + n < 2 ^ 31)
    (hcounter : mem.currentChunk = n) {mem' : Mem W V} (h : (g.multiply n).Leaves mem mem') :
    (∀ s, g.IsCell n s → mem'.dst s.address = g.value mem.wdata s) ∧
      ∀ a, (∀ s, g.IsCell n s → s.address ≠ a) → mem'.dst a = mem.dst a := by
  obtain ⟨places, hdealt, hnone⟩ := h.invariant (Dealt g mem) (started_dealt hkernel hcounter)
    (fun _ _ _ _ hdealt hturn => hdealt.turn hapart hkernel hfits hturn)
  have hstopped : ∀ i, places i = .stopped := fun i => by
    have hi := hnone i
    cases hplace : places i with
    | stopped => rfl
    | storing rest =>
      rw [hplace] at hi
      cases rest <;> exact nomatch hi
  obtain ⟨q, hq⟩ := hdealt.dealt
  refine ⟨?_, hdealt.frame⟩
  rintro s ⟨ir0, hir0, ir1, hir1, rfl⟩
  obtain ⟨hc, hmem⟩ := Product.mem_chunkOf hkernel hn hir0 hir1
  rcases hq.done _ (hc.trans_le (hq.stopped _ (hstopped ⟨0, hn⟩))) hc _ hmem with hstored | ⟨i, rest, hi, -⟩
  · exact hstored
  · exact nomatch (hstopped i).symm.trans hi

theorem node_leaves (hn : 0 < n) (hapart : g.Apart n) (hkernel : Product.Kernel g) (hfits : g.total n + n < 2 ^ 31)
    {mem' : Mem W V} (h : LeavesAll (g.node n) mem mem') :
    (∀ ir0 < g.nr0, ∀ ir1 < g.nr1, mem'.dst (g.dstCol ir1 + 4 * ir0) = g.product n ir0 ir1) ∧
      ∀ a, (∀ s, g.IsCell n s → s.address ≠ a) → mem'.dst a = mem.dst a := by
  obtain ⟨mem₁, hfirst, hmultiply⟩ := leavesAll_concat [_] h
  obtain ⟨mem₀, hnil, hconvert⟩ := leavesAll_concat [] hfirst
  obtain rfl := leavesAll_nil hnil
  have hready := Product.convert_ready hn (hconvert.of_within (fun _ => rfl))
  obtain ⟨hcells, hframe⟩ := multiply_leaves hn hapart hkernel hfits hready.counter (hmultiply.of_within (fun _ => rfl))
  refine ⟨fun ir0 hir0 ir1 hir1 => ?_, fun a ha => ?_⟩
  · exact (hcells _ ⟨ir0, hir0, ir1, hir1, rfl⟩).trans (Product.value_cell hready hir1)
  · rw [hframe a ha, hready.dst]

theorem executed_single (crews : Node n (List (Write W) ⊕ Place) (Mem W V)) (abortCallback : ℕ → Bool) :
    executed [crews] abortCallback = crews := by
  have hstop : 1 ≤ stop [crews] abortCallback := by
    rcases stop_cases [crews] abortCallback with ⟨node, hnode, -⟩ | ⟨hlength, -⟩
    · omega
    · exact hlength.ge
  unfold executed
  rw [List.take_of_length_le hstop, List.flatten_singleton]

/-- When the threads of the pool have left a graph of one product, each element of the result is the product of its row
and column, whatever the order of their turns; no other float is written. -/
theorem mul_mat_computes {abortCallback : ℕ → Bool} {s : GgmlBarrier.Pool n (Pc (List (Write W) ⊕ Place)) (Shared (Mem W V))}
    (hn : 0 < n) (hapart : g.Apart n) (hkernel : Product.Kernel g) (hfits : g.total n + n < 2 ^ 31)
    (h : Reachable (kickedOff mem) (GgmlBarrier.Step (graphComputeThread [g.node n] abortCallback)) s)
    (hdone : ∀ i, ∃ k, s.places i = .running (.done k)) :
    (∀ ir0 < g.nr0, ∀ ir1 < g.nr1, s.mem.mem.dst (g.dstCol ir1 + 4 * ir0) = g.product n ir0 ir1) ∧
      ∀ a, (∀ t, g.IsCell n t → t.address ≠ a) → s.mem.mem.dst a = mem.dst a := by
  obtain ⟨k, hk⟩ := hdone ⟨0, hn⟩
  have hfirst : (GgmlBarrier.view s).seats ⟨0, hn⟩ = .running (.done k) := by
    rw [GgmlBarrier.view_seat, hk]
    rfl
  obtain ⟨hleaves, -⟩ := first_leaves hn h hfirst
  rw [executed_single] at hleaves
  exact node_leaves hn hapart hkernel hfits hleaves

end Dealt

theorem one_block : 1 ∣ 1 := Nat.dvd_refl 1

theorem float_bytes : 4 = if true = true then 4 else 2 := rfl

theorem no_broadcast : 0 < 1 ∧ 1 ∣ 1 := ⟨Nat.one_pos, one_block⟩

def twoRows : Product ℕ ℕ where
  ne01 := 2
  ne02 := 1
  ne03 := 1
  ne10 := 1
  ne11 := 1
  ne12 := 1
  ne13 := 1
  nb01 := 4
  nb02 := 8
  nb03 := 8
  nb10 := 4
  nb11 := 4
  nb12 := 4
  nb13 := 4
  nb1 := 8
  nb2 := 8
  nb3 := 8
  converted := true
  blckSize := 1
  typeSize := 2
  vecDotNumRows := 1
  isNuma := false
  fromFloat a := a + 5
  src1 a := a
  dot _ row column := row + 1 + column.sum
  blckSize_pos := Nat.one_pos
  typeSize_pos := Nat.two_pos
  blocks := one_block
  nb10_eq := float_bytes
  broadcast2 := no_broadcast
  broadcast3 := no_broadcast

def twoRowsPool : GgmlBarrier.Pool 2 (Pc (List (Write ℕ) ⊕ Place)) (Shared (Mem ℕ ℕ)) :=
  ⟨0, 0, fun _ => .running (.head 0), prepared ⟨fun _ => 0, fun _ => 0, 0⟩⟩

def twoRowsSchedule : List (Fin 2) :=
  List.replicate 5 thread₀ ++ List.replicate 7 thread₁ ++ List.replicate 10 thread₀ ++ List.replicate 11 thread₁ ++ [thread₀]

theorem twoRows_new : twoRows.NewResult := ⟨rfl, rfl, rfl⟩

theorem mul_mat_computes_rows : ∃ m : Mem ℕ ℕ, m.dst 0 = twoRows.product 2 0 0 ∧ m.dst 4 = twoRows.product 2 1 0 ∧ m.dst 0 = 6 ∧
    m.dst 8 = 0 := by
  have hstart : kickedOff ⟨fun _ => 0, fun _ => 0, 0⟩ twoRowsPool := ⟨rfl, rfl, rfl⟩
  have hrun : ∃ s, twoRowsSchedule.foldlM (GgmlBarrier.step (graphComputeThread [twoRows.node 2] fun _ => false)) twoRowsPool =
      some s ∧ s.places 0 = .running (.done 1) ∧ s.places 1 = .running (.done 1) ∧ s.mem.mem.dst 0 = 6 :=
    ⟨_, rfl, rfl, rfl, rfl⟩
  obtain ⟨s, hs, hzero, hone, hvalue⟩ := hrun
  have hdone : ∀ i, ∃ k, s.places i = .running (.done k) := fun i => ⟨1, by fin_cases i <;> assumption⟩
  obtain ⟨hcells, hframe⟩ := mul_mat_computes (by decide) twoRows_new.apart (twoRows_new.kernel (.inl rfl)) (by decide)
    (Reachable.foldlM (fun _ _ _ => id) (.start hstart) hs) hdone
  refine ⟨s.mem.mem, hcells 0 (by decide) 0 (by decide), hcells 1 (by decide) 0 (by decide), hvalue, hframe 8 ?_⟩
  rintro t ⟨ir0, hir0, ir1, hir1, rfl⟩ haddress
  obtain rfl : ir1 = 0 := Nat.lt_one_iff.mp hir1
  have hrow : 0 + 4 * ir0 = 8 := haddress
  have hlt : ir0 < 2 := hir0
  omega

end PyannoteCpp.MulMat
