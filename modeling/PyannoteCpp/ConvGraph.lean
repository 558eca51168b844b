import PyannoteCpp.Im2col

set_option autoImplicit false

/-!
# Convolution as a product with patches

The patches are one matrix with a row for each window position, the kernels are
another with a row for each output channel. The entries of their product are
the convolution sums, whatever the values of the taps.
-/
namespace PyannoteCpp.ConvGraph
open TensorGraph Im2col Geometry RowMajor

variable {ι V : Type*}

section Graphs

variable [Zero V] [Add V] [Mul V]

def conv2dOf (a cols : Node ι V) : Option (Node ι V) := do
  let rows ← reshape cols ⟨cols.ne.ne0, cols.ne.ne3 * cols.ne.ne2 * cols.ne.ne1, 1, 1⟩
  let kernels ← reshape a ⟨a.ne.ne0 * a.ne.ne1 * a.ne.ne2, a.ne.ne3, 1, 1⟩
  let result ← mulMat rows kernels
  let result ← reshape result ⟨cols.ne.ne1, cols.ne.ne2, cols.ne.ne3, a.ne.ne3⟩
  some (cont (permute (fun s => ⟨s.ne0, s.ne1, s.ne3, s.ne2⟩) result))

def conv1dOf (a cols : Node ι V) : Option (Node ι V) := do
  let rows ← reshape cols ⟨cols.ne.ne0, cols.ne.ne2 * cols.ne.ne1, 1, 1⟩
  let kernels ← reshape a ⟨a.ne.ne0 * a.ne.ne1, a.ne.ne2, 1, 1⟩
  let result ← mulMat rows kernels
  reshape result ⟨cols.ne.ne1, a.ne.ne2, cols.ne.ne2, 1⟩

def matrix (length rows : ℕ) (data : ℕ → V) : Node ι V := constant ⟨length, rows, 1, 1⟩ data

theorem mulMat_empty (M OC : ℕ) (wdata kernel : ℕ → V) :
    mulMat (matrix 0 M wdata : Node ι V) (matrix 0 OC kernel) = none := if_neg (fun h => h.2.2.2 Nat.zero_lt_one)

end Graphs

theorem cont_entry (g : Node ι V) {buf : Buffer ι V} {i0 i1 i2 i3 : ℕ} (h0 : i0 < g.ne.ne0) (h1 : i1 < g.ne.ne1)
    (h2 : i2 < g.ne.ne2) (h3 : i3 < g.ne.ne3) : (cont g).entry buf i0 i1 i2 i3 = g.entry buf i0 i1 i2 i3 :=
  entry_ofEntries h0 h1 h2 h3

section Product

variable [NonUnitalNonAssocSemiring V]

theorem mulMat_matrix {K : ℕ} (hK : 0 < K) (M OC : ℕ) (wdata kernel : ℕ → V) :
    ∃ g : Node ι V, mulMat (matrix K M wdata) (matrix K OC kernel) = some g ∧ g.ne = ⟨M, OC, 1, 1⟩ ∧
      g.nb = g.ne.strides ∧ ∀ buf i oc, i < M → oc < OC →
        g.eval buf (oc * M + i) = ∑ l ∈ Finset.range K, wdata (i * K + l) * kernel (oc * K + l) := by
  refine ⟨_, if_pos ⟨rfl, Nat.mod_self 1, Nat.mod_self 1, Nat.not_lt.2 hK⟩, rfl, rfl, fun buf i oc hi hoc => ?_⟩
  let sum : Buffer ι V → ℕ → ℕ → ℕ → ℕ → V := fun buf i0 i1 i2 i3 => (List.range K).foldl (fun acc l => acc +
    (matrix K M wdata : Node ι V).entry buf l i0 (i2 / (1 / 1)) (i3 / (1 / 1)) *
      (matrix K OC kernel : Node ι V).entry buf l i1 i2 i3) 0
  have hentry : (ofEntries ⟨M, OC, 1, 1⟩ sum).entry buf i oc 0 0 = sum buf i oc 0 0 :=
    entry_ofEntries hi hoc Nat.zero_lt_one Nat.zero_lt_one
  have hplace : oc * M + i = i * 1 + oc * M + 0 * (M * OC) + 0 * (M * OC * 1) := by ring
  rw [hplace]
  refine hentry.trans ?_
  simp only [sum]
  rw [foldl_range_add, zero_add]
  refine Finset.sum_congr rfl (fun l _ => ?_)
  have hrow : l * 1 + i * K + 0 / (1 / 1) * (K * M) + 0 / (1 / 1) * (K * M * 1) = i * K + l := by
    rw [Nat.zero_div]
    ring
  have hkernel : l * 1 + oc * K + 0 * (K * OC) + 0 * (K * OC * 1) = oc * K + l := by ring
  change wdata (l * 1 + i * K + 0 / (1 / 1) * (K * M) + 0 / (1 / 1) * (K * M * 1)) *
    kernel (l * 1 + oc * K + 0 * (K * OC) + 0 * (K * OC * 1)) = _
  rw [hrow, hkernel]

end Product

section Sums

variable [CommSemiring V] (g : Geometry)

/-- The convolution sum at a window position, for given values of the taps. -/
def weighted (kernel : ℕ → V) (value : Tap → V) (oc n ioh iow : ℕ) : V :=
  ∑ iic ∈ Finset.range g.IC, ∑ ikh ∈ Finset.range g.KH, ∑ ikw ∈ Finset.range g.KW,
    kernel (((oc * g.IC + iic) * g.KH + ikh) * g.KW + ikw) * value ⟨n, ioh, iow, iic, ikh, ikw⟩

/-- Direct convolution: the kernel over the image with zeros around it. -/
def direct (kernel image : ℕ → V) (oc n ioh iow : ℕ) : V := weighted g kernel (g.pixel image) oc n ioh iow

def cells : ℕ := g.IC * g.KH * g.KW

def position (n ioh iow : ℕ) : ℕ := (n * g.OH + ioh) * g.OW + iow

variable {g} {n ioh iow : ℕ}

theorem tapAt_position (hioh : ioh < g.OH) (hiow : iow < g.OW) {iic ikh ikw : ℕ} (hiic : iic < g.IC) (hikh : ikh < g.KH)
    (hikw : ikw < g.KW) : g.tapAt (position g n ioh iow * cells g + ((iic * g.KH + ikh) * g.KW + ikw)) =
      ⟨n, ioh, iow, iic, ikh, ikw⟩ := by
  have hflat : position g n ioh iow * cells g + ((iic * g.KH + ikh) * g.KW + ikw) =
      ((((n * g.OH + ioh) * g.OW + iow) * g.IC + iic) * g.KH + ikh) * g.KW + ikw := by
    unfold position cells
    ring
  rw [hflat]
  simp only [tapAt, row_div hikw, row_mod hikw, row_div hikh, row_mod hikh, row_div hiic, row_mod hiic, row_div hiow,
    row_mod hiow, row_div hioh, row_mod hioh]

theorem weighted_flat (kernel : ℕ → V) (value : Tap → V) (oc : ℕ) (hioh : ioh < g.OH) (hiow : iow < g.OW) :
    weighted g kernel value oc n ioh iow = ∑ l ∈ Finset.range (cells g),
      value (g.tapAt (position g n ioh iow * cells g + l)) * kernel (oc * cells g + l) := by
  unfold weighted
  rw [← sum_range_mul g.IC g.KH (fun iic ikh => ∑ ikw ∈ Finset.range g.KW,
    kernel (((oc * g.IC + iic) * g.KH + ikh) * g.KW + ikw) * value ⟨n, ioh, iow, iic, ikh, ikw⟩)]
  rw [← sum_range_mul (g.IC * g.KH) g.KW (fun e ikw =>
    kernel (((oc * g.IC + e / g.KH) * g.KH + e % g.KH) * g.KW + ikw) * value ⟨n, ioh, iow, e / g.KH, e % g.KH, ikw⟩)]
  refine Finset.sum_congr rfl (fun l hl => ?_)
  have hl1 : l < g.IC * g.KH * g.KW := Finset.mem_range.1 hl
  have hl2 := div_lt hl1
  have hparts : (l / g.KW / g.KH * g.KH + l / g.KW % g.KH) * g.KW + l % g.KW = l := by
    rw [Nat.div_add_mod', Nat.div_add_mod']
  have hkernel : ((oc * g.IC + l / g.KW / g.KH) * g.KH + l / g.KW % g.KH) * g.KW + l % g.KW = oc * cells g + l := by
    calc ((oc * g.IC + l / g.KW / g.KH) * g.KH + l / g.KW % g.KH) * g.KW + l % g.KW
        = oc * cells g + ((l / g.KW / g.KH * g.KH + l / g.KW % g.KH) * g.KW + l % g.KW) := by
          unfold cells
          ring
      _ = _ := by rw [hparts]
  have htap := tapAt_position (n := n) hioh hiow (div_lt hl2) (mod_lt hl2) (mod_lt hl1)
  rw [hparts] at htap
  rw [hkernel, htap, mul_comm]

/-- The product reads the value of one tap with a kernel that has one cell. -/
theorem weighted_single {t : Tap} (ht : g.InRange t) (value : Tap → V) (oc : ℕ) :
    weighted g (Pi.single (((oc * g.IC + t.iic) * g.KH + t.ikh) * g.KW + t.ikw) 1) value oc t.n t.ioh t.iow = value t := by
  rw [weighted_flat _ _ _ ht.ioh ht.iow]
  set l := (t.iic * g.KH + t.ikh) * g.KW + t.ikw with hl
  have hlt : l < cells g := row_lt (row_lt ht.iic ht.ikh) ht.ikw
  have hcell : ((oc * g.IC + t.iic) * g.KH + t.ikh) * g.KW + t.ikw = oc * cells g + l := by
    rw [hl]
    unfold cells
    ring
  rw [hcell, Finset.sum_eq_single l]
  · rw [Pi.single_eq_same, mul_one, tapAt_position ht.ioh ht.iow ht.iic ht.ikh ht.ikw]
  · intro k _ hk
    rw [Pi.single_eq_of_ne (fun h => hk (Nat.add_left_cancel h)), mul_zero]
  · exact fun h => absurd (Finset.mem_range.2 hlt) h

theorem weighted_other {t : Tap} (ht : g.InRange t) (value : Tap → V) {oc oc' n' ioh' iow' : ℕ} (hoc : oc ≠ oc') (hioh : ioh' < g.OH)
    (hiow : iow' < g.OW) :
    weighted g (Pi.single (((oc * g.IC + t.iic) * g.KH + t.ikh) * g.KW + t.ikw) 1) value oc' n' ioh' iow' = 0 := by
  rw [weighted_flat _ _ _ hioh hiow]
  refine Finset.sum_eq_zero (fun l hl => ?_)
  have hlt : (t.iic * g.KH + t.ikh) * g.KW + t.ikw < cells g := row_lt (row_lt ht.iic ht.ikh) ht.ikw
  have hcell : ((oc * g.IC + t.iic) * g.KH + t.ikh) * g.KW + t.ikw =
      oc * cells g + ((t.iic * g.KH + t.ikh) * g.KW + t.ikw) := by
    unfold cells
    ring
  rw [hcell, Pi.single_eq_of_ne, mul_zero]
  exact fun h => hoc (row_inj (Finset.mem_range.1 hl) hlt h).1.symm

theorem weighted_congr (kernel : ℕ → V) {value value' : Tap → V} (h : ∀ t, g.InRange t → value t = value' t) (oc : ℕ)
    (hn : n < g.N) (hioh : ioh < g.OH) (hiow : iow < g.OW) :
    weighted g kernel value oc n ioh iow = weighted g kernel value' oc n ioh iow := by
  refine Finset.sum_congr rfl (fun iic hiic => Finset.sum_congr rfl (fun ikh hikh => Finset.sum_congr rfl (fun ikw hikw => ?_)))
  rw [Finset.mem_range] at hiic hikh hikw
  rw [h ⟨n, ioh, iow, iic, ikh, ikw⟩ ⟨hn, hioh, hiow, hiic, hikh, hikw⟩]

theorem weighted_zero (kernel : ℕ → V) {value : Tap → V} (h : ∀ t, g.InRange t → value t = 0) (oc : ℕ)
    (hn : n < g.N) (hioh : ioh < g.OH) (hiow : iow < g.OW) : weighted g kernel value oc n ioh iow = 0 := by
  have hzero : weighted g kernel value oc n ioh iow = weighted g kernel (fun _ => 0) oc n ioh iow :=
    weighted_congr kernel h oc hn hioh hiow
  rw [hzero]
  simp only [weighted, mul_zero, Finset.sum_const_zero]

theorem weighted_memory (kernel wdata : ℕ → V) (oc : ℕ) (hioh : ioh < g.OH) (hiow : iow < g.OW) :
    ∑ l ∈ Finset.range (cells g), wdata (position g n ioh iow * cells g + l) * kernel (oc * cells g + l) =
      weighted g kernel (fun t => wdata (g.dstIndex t)) oc n ioh iow := by
  rw [weighted_flat _ _ _ hioh hiow]
  refine Finset.sum_congr rfl (fun l _ => ?_)
  rw [dstIndex_tapAt]

end Sums

section Values

variable [CommSemiring V] {g : Geometry}

theorem patchValue_pixel (hconv : g.Converted) (h : g.StridesFit ∨ ¬g.TapInside) (image : ℕ → V) {t : Tap}
    (ht : g.InRange t) : g.patchValue image t = some (g.pixel image t) := by
  rcases h with hfit | htap
  · exact patchValue_exact image ((offsetsExact_iff hconv).2 hfit) ht
  · exact patchValue_padding image htap ht

/-- A stride that does not fit changes the value of some tap. -/
theorem exists_patchValue_ne (hconv : g.Converted) (hfit : ¬g.StridesFit) (htap : g.TapInside) :
    ∃ (image : ℕ → V) (t : Tap), g.InRange t ∧ g.pixel image t = 1 ∧
      (g.patchValue image t = none ∨ g.patchValue image t = some 0) := by
  obtain ⟨t, ht, hin, hne⟩ := exists_address_ne htap (fun h => hfit ((offsetsExact_iff hconv).1 h))
  refine ⟨Pi.single (g.pixelIndex t) 1, t, ht, ?_, ?_⟩
  · unfold pixel
    rw [if_neg hin, Pi.single_eq_same]
  · unfold patchValue
    rw [if_neg hin]
    exact load_single hne

theorem loadsInside_of_run {nth : ℕ} (hnth : 0 < nth) {image wdata wdata' : ℕ → V} {order : List (Option (ℕ × V))}
    (horder : order.Perm (SharedStores.threads nth (g.im2col image nth)))
    (hrun : SharedStores.perform order wdata = some wdata') : g.LoadsInside := by
  refine (patchValue_ne_none_iff image).1 (fun t ht hnone => ?_)
  rw [perform_im2col_fault hnth ht hnone horder] at hrun
  exact absurd hrun (by simp)

theorem exists_value (hload : g.LoadsInside) (image : ℕ → V) :
    ∃ value : Tap → V, ∀ t, g.InRange t → g.patchValue image t = some (value t) := by
  refine ⟨fun t => (g.patchValue image t).getD 0, fun t ht => ?_⟩
  obtain ⟨v, hv⟩ := Option.ne_none_iff_exists'.1 ((patchValue_ne_none_iff image).2 hload t ht)
  simp only [hv, Option.getD_some]

/-- What a run without faults leaves is what its loads gave. -/
theorem run_cell {nth : ℕ} (hnth : 0 < nth) {image wdata wdata' : ℕ → V} {order : List (Option (ℕ × V))}
    (horder : order.Perm (SharedStores.threads nth (g.im2col image nth)))
    (hrun : SharedStores.perform order wdata = some wdata') {t : Tap} (ht : g.InRange t) :
    g.patchValue image t = some (wdata' (g.dstIndex t)) := by
  obtain ⟨value, hvalue⟩ := exists_value (loadsInside_of_run hnth horder hrun) image
  obtain ⟨wdata₂, hrun₂, hcell⟩ := perform_im2col hnth hvalue horder wdata
  obtain rfl : wdata' = wdata₂ := Option.some.inj (hrun.symm.trans hrun₂)
  rw [hvalue t ht, hcell t ht]

end Values

end PyannoteCpp.ConvGraph
