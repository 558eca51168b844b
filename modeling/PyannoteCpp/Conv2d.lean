import PyannoteCpp.ConvGraph

set_option autoImplicit false

/-!
# Two-dimensional convolution

The product has the output channels outside the batch. `ggml_conv_2d` exchanges
the two, so every element of the result is the direct convolution, as long as
the byte strides of the image survive their conversion to `int`.
-/
namespace PyannoteCpp.Conv2d
open ConvShape TensorGraph Im2col Geometry ConvGraph RowMajor SharedStores

variable {ι V : Type*}

section Claim

variable (V) [CommSemiring V] (a b : Shape) (s0 s1 p0 p1 d0 d1 : ℤ) (nth : ℕ)

/-- For any data and any order of the threads' stores, every element of the patches is stored once and the result is
the direct convolution. -/
def Yields (ne : Shape) (g : Geometry) : Prop :=
  ∀ (kernel image wdata : ℕ → V) (order : List (Option (ℕ × V))), order.Perm (threads nth (g.im2col image nth)) →
    (∀ e < ne.nelements, order.countP (fun s => s.map Prod.fst = some e) = 1) ∧
    ∃ (wdata' : ℕ → V) (result : Node Empty V), perform order wdata = some wdata' ∧
      conv2dOf (constant a kernel) (constant ne wdata') = some result ∧
      result.ne = ⟨ne.ne1, ne.ne2, a.ne3, b.ne3⟩ ∧ ∀ n oc ioh iow, n < b.ne3 → oc < a.ne3 → ioh < ne.ne2 → iow < ne.ne1 →
        result.entry (fun i => i.elim) iow ioh oc n = direct g kernel image oc n ioh iow

/-- `ggml_conv_2d` yields the direct convolution. -/
def Convolves : Prop :=
  match im2colShape a b s0 s1 p0 p1 d0 d1 true with
  | .error _ => False
  | .ok ne => Yields V a b nth ne (geometry a b ne s0 s1 p0 p1 d0 d1 true)

def patchShape : Shape :=
  ⟨a.ne2 * a.ne1 * a.ne0, ((numerator b.ne0 a.ne0 p0 d0).tdiv s0 + 1).toNat,
    ((numerator b.ne1 a.ne1 p1 d1).tdiv s1 + 1).toNat, b.ne3⟩

def windows : Geometry := geometry a b (patchShape a b s0 s1 p0 p1 d0 d1) s0 s1 p0 p1 d0 d1 true

/-- No size overflows, the kernels have cells, and the byte strides of the image fit in an `int`, where they matter. -/
def Survives : Prop :=
  AllComputable a b s0 s1 p0 p1 d0 d1 true ∧ 0 < a.ne2 * a.ne1 * a.ne0 ∧
    ((windows a b s0 s1 p0 p1 d0 d1).StridesFit ∨ ¬(windows a b s0 s1 p0 p1 d0 d1).TapInside ∨
      a.ne3 = 0 ∧ (windows a b s0 s1 p0 p1 d0 d1).LoadsInside)

end Claim

section Graph

variable {a cols : Shape} (kernel wdata : ℕ → V)

theorem conv2dOf_empty [Zero V] [Add V] [Mul V] (hrow : cols.ne0 = 0) (hcells : a.ne0 * a.ne1 * a.ne2 = 0) :
    conv2dOf (constant a kernel : Node ι V) (constant cols wdata) = none := by
  have hrows : reshape (constant cols wdata : Node ι V) ⟨cols.ne0, cols.ne3 * cols.ne2 * cols.ne1, 1, 1⟩ =
      some (matrix 0 (cols.ne3 * cols.ne2 * cols.ne1) wdata) := by
    rw [hrow]
    refine if_pos ⟨rfl, ?_⟩
    simp [Shape.nelements, constant, hrow]
  have hkernels : reshape (constant a kernel : Node ι V) ⟨a.ne0 * a.ne1 * a.ne2, a.ne3, 1, 1⟩ =
      some (matrix 0 a.ne3 kernel) := by
    rw [hcells]
    refine if_pos ⟨rfl, ?_⟩
    simp [Shape.nelements, constant, hcells]
  change (reshape (constant cols wdata) ⟨cols.ne0, cols.ne3 * cols.ne2 * cols.ne1, 1, 1⟩).bind (fun rows =>
    (reshape (constant a kernel) ⟨a.ne0 * a.ne1 * a.ne2, a.ne3, 1, 1⟩).bind (fun kernels =>
      (mulMat rows kernels).bind _)) = none
  rw [hrows, hkernels, Option.bind_some, Option.bind_some, mulMat_empty, Option.bind_none]

theorem conv2dOf_eq [NonUnitalNonAssocSemiring V] {K : ℕ} (hK : 0 < K) (hrow : cols.ne0 = K)
    (hcells : a.ne0 * a.ne1 * a.ne2 = K) :
    ∃ result : Node ι V, conv2dOf (constant a kernel) (constant cols wdata) = some result ∧
      result.ne = ⟨cols.ne1, cols.ne2, a.ne3, cols.ne3⟩ ∧ ∀ buf n oc ioh iow, n < cols.ne3 → oc < a.ne3 → ioh < cols.ne2 →
        iow < cols.ne1 → result.entry buf iow ioh oc n =
          ∑ l ∈ Finset.range K, wdata (((n * cols.ne2 + ioh) * cols.ne1 + iow) * K + l) * kernel (oc * K + l) := by
  set M := cols.ne3 * cols.ne2 * cols.ne1 with hM
  have hrows : reshape (constant cols wdata : Node ι V) ⟨cols.ne0, M, 1, 1⟩ = some (matrix K M wdata) := by
    rw [hrow]
    refine if_pos ⟨rfl, ?_⟩
    simp only [Shape.nelements, constant, hrow, hM]
    ring
  have hkernels : reshape (constant a kernel : Node ι V) ⟨a.ne0 * a.ne1 * a.ne2, a.ne3, 1, 1⟩ =
      some (matrix K a.ne3 kernel) := by
    rw [hcells]
    refine if_pos ⟨rfl, ?_⟩
    simp [Shape.nelements, constant, hcells]
  obtain ⟨product, hproduct, hne, hnb, hentries⟩ := mulMat_matrix (ι := ι) hK M a.ne3 wdata kernel
  have hresult : reshape product ⟨cols.ne1, cols.ne2, cols.ne3, a.ne3⟩ =
      some ⟨⟨cols.ne1, cols.ne2, cols.ne3, a.ne3⟩, Shape.strides ⟨cols.ne1, cols.ne2, cols.ne3, a.ne3⟩, product.eval⟩ := by
    refine if_pos ⟨hnb, ?_⟩
    simp only [hne, Shape.nelements, hM]
    ring
  refine ⟨cont (permute (fun s => ⟨s.ne0, s.ne1, s.ne3, s.ne2⟩)
    ⟨⟨cols.ne1, cols.ne2, cols.ne3, a.ne3⟩, Shape.strides ⟨cols.ne1, cols.ne2, cols.ne3, a.ne3⟩, product.eval⟩), ?_, rfl, ?_⟩
  · change (reshape (constant cols wdata) ⟨cols.ne0, M, 1, 1⟩).bind (fun rows =>
      (reshape (constant a kernel) ⟨a.ne0 * a.ne1 * a.ne2, a.ne3, 1, 1⟩).bind (fun kernels =>
        (mulMat rows kernels).bind (fun result =>
          (reshape result ⟨cols.ne1, cols.ne2, cols.ne3, a.ne3⟩).bind _))) = _
    rw [hrows, hkernels, Option.bind_some, Option.bind_some, hproduct, Option.bind_some, hresult, Option.bind_some]
  · intro buf n oc ioh iow hn hoc hioh hiow
    rw [cont_entry _ hiow hioh hoc hn]
    have hplace : iow * 1 + ioh * cols.ne1 + oc * (cols.ne1 * cols.ne2 * cols.ne3) + n * (cols.ne1 * cols.ne2) =
        oc * M + ((n * cols.ne2 + ioh) * cols.ne1 + iow) := by
      rw [hM]
      ring
    change product.eval buf
      (iow * 1 + ioh * cols.ne1 + oc * (cols.ne1 * cols.ne2 * cols.ne3) + n * (cols.ne1 * cols.ne2)) = _
    rw [hplace, hentries buf _ oc (row_lt (row_lt hn hioh) hiow) hoc]

end Graph

section Exact

variable [CommSemiring V] {a b : Shape} {s0 s1 p0 p1 d0 d1 : ℤ} {nth : ℕ}

theorem nelements_patchShape (hc : a.ne2 = b.ne2) :
    (patchShape a b s0 s1 p0 p1 d0 d1).nelements = (windows a b s0 s1 p0 p1 d0 d1).total := by
  unfold Shape.nelements total windows geometry
  simp only [if_true, patchShape, hc]
  ring

theorem cells_windows (hc : a.ne2 = b.ne2) : cells (windows a b s0 s1 p0 p1 d0 d1) = a.ne2 * a.ne1 * a.ne0 := by
  unfold cells windows geometry
  simp only [if_true, hc]

theorem conv2dOf_weighted (hcells : 0 < a.ne2 * a.ne1 * a.ne0) (hc : a.ne2 = b.ne2) (kernel wdata : ℕ → V) :
    ∃ result : Node ι V, conv2dOf (constant a kernel) (constant (patchShape a b s0 s1 p0 p1 d0 d1) wdata) = some result ∧
      result.ne = ⟨(patchShape a b s0 s1 p0 p1 d0 d1).ne1, (patchShape a b s0 s1 p0 p1 d0 d1).ne2, a.ne3, b.ne3⟩ ∧
      ∀ buf n oc ioh iow, n < b.ne3 → oc < a.ne3 → ioh < (patchShape a b s0 s1 p0 p1 d0 d1).ne2 →
        iow < (patchShape a b s0 s1 p0 p1 d0 d1).ne1 → result.entry buf iow ioh oc n =
          weighted (windows a b s0 s1 p0 p1 d0 d1) kernel
            (fun t => wdata ((windows a b s0 s1 p0 p1 d0 d1).dstIndex t)) oc n ioh iow := by
  have hkernel : a.ne0 * a.ne1 * a.ne2 = a.ne2 * a.ne1 * a.ne0 := by ring
  have hrow : (patchShape a b s0 s1 p0 p1 d0 d1).ne0 = a.ne2 * a.ne1 * a.ne0 := rfl
  obtain ⟨result, hresult, hne, hentries⟩ := conv2dOf_eq (ι := ι) kernel wdata hcells hrow hkernel
  refine ⟨result, hresult, hne, fun buf n oc ioh iow hn hoc hioh hiow => ?_⟩
  have hmemory := weighted_memory (g := windows a b s0 s1 p0 p1 d0 d1) (n := n) kernel wdata oc hioh hiow
  rw [cells_windows hc] at hmemory
  exact (hentries buf n oc ioh iow hn hoc hioh hiow).trans hmemory

theorem yields_of (hnth : 0 < nth) (hc : a.ne2 = b.ne2) (hcells : 0 < a.ne2 * a.ne1 * a.ne0)
    (hload : (windows a b s0 s1 p0 p1 d0 d1).LoadsInside)
    (hpixel : a.ne3 ≠ 0 → ∀ (image : ℕ → V) (t : Tap), (windows a b s0 s1 p0 p1 d0 d1).InRange t →
      (windows a b s0 s1 p0 p1 d0 d1).patchValue image t = some ((windows a b s0 s1 p0 p1 d0 d1).pixel image t)) :
    Yields V a b nth (patchShape a b s0 s1 p0 p1 d0 d1) (windows a b s0 s1 p0 p1 d0 d1) := by
  intro kernel image wdata order horder
  constructor
  · intro e he
    rw [horder.countP_eq]
    rw [nelements_patchShape hc] at he
    exact stored_once image hnth ((patchValue_ne_none_iff image).2 hload) he
  · obtain ⟨value, hvalue⟩ := exists_value hload image
    obtain ⟨wdata', hrun, hcell⟩ := perform_im2col hnth hvalue horder wdata
    obtain ⟨result, hresult, hne, hentries⟩ := conv2dOf_weighted hcells hc kernel wdata'
    refine ⟨wdata', result, hrun, hresult, hne, fun n oc ioh iow hn hoc hioh hiow => ?_⟩
    rw [hentries _ n oc ioh iow hn hoc hioh hiow]
    refine weighted_congr kernel (fun t ht => ?_) oc hn hioh hiow
    have hsame := hpixel (Nat.ne_zero_of_lt hoc) image t ht
    rw [hvalue t ht] at hsame
    rw [hcell t ht]
    exact Option.some.inj hsame

theorem cells_of_yields (h : Yields V a b nth (patchShape a b s0 s1 p0 p1 d0 d1) (windows a b s0 s1 p0 p1 d0 d1)) :
    0 < a.ne2 * a.ne1 * a.ne0 := by
  by_contra hzero
  have hrow : (patchShape a b s0 s1 p0 p1 d0 d1).ne0 = 0 := Nat.eq_zero_of_not_pos hzero
  have hkernel : a.ne0 * a.ne1 * a.ne2 = 0 := by rw [← Nat.eq_zero_of_not_pos hzero]; ring
  obtain ⟨-, wdata', result, -, hresult, -⟩ := h 0 0 0 _ (List.Perm.refl _)
  rw [conv2dOf_empty 0 wdata' hrow hkernel] at hresult
  exact absurd hresult (by simp)

theorem loadsInside_of_yields (hnth : 0 < nth)
    (h : Yields V a b nth (patchShape a b s0 s1 p0 p1 d0 d1) (windows a b s0 s1 p0 p1 d0 d1)) :
    (windows a b s0 s1 p0 p1 d0 d1).LoadsInside := by
  obtain ⟨-, wdata', result, hrun, -⟩ := h 0 0 0 _ (List.Perm.refl _)
  exact loadsInside_of_run hnth (List.Perm.refl _) hrun

/-- A kernel with one cell shows the value of a tap. -/
theorem strides_of_yields [Nontrivial V] (hnth : 0 < nth) (hc : a.ne2 = b.ne2)
    (h : Yields V a b nth (patchShape a b s0 s1 p0 p1 d0 d1) (windows a b s0 s1 p0 p1 d0 d1)) (hoc : 0 < a.ne3)
    (htap : (windows a b s0 s1 p0 p1 d0 d1).TapInside) : (windows a b s0 s1 p0 p1 d0 d1).StridesFit := by
  by_contra hfit
  have hconv : (windows a b s0 s1 p0 p1 d0 d1).Converted := geometry_converted ..
  obtain ⟨image, t, ht, hone, hvalue⟩ := exists_patchValue_ne (V := V) hconv hfit htap
  set g := windows a b s0 s1 p0 p1 d0 d1 with hg
  obtain ⟨-, wdata', result, hrun, hresult, -, hentries⟩ :=
    h (Pi.single (((0 * g.IC + t.iic) * g.KH + t.ikh) * g.KW + t.ikw) 1) image 0 _ (List.Perm.refl _)
  obtain ⟨result₂, hresult₂, -, hsums⟩ := conv2dOf_weighted (ι := Empty) (cells_of_yields h) hc
    (Pi.single (((0 * g.IC + t.iic) * g.KH + t.ikh) * g.KW + t.ikw) 1) wdata'
  obtain rfl : result = result₂ := Option.some.inj (hresult.symm.trans hresult₂)
  have hentry := hentries t.n 0 t.ioh t.iow ht.n hoc ht.ioh ht.iow
  rw [hsums _ t.n 0 t.ioh t.iow ht.n hoc ht.ioh ht.iow, ← hg, direct, weighted_single ht, weighted_single ht, hone] at hentry
  rw [run_cell hnth (List.Perm.refl _) hrun ht, hentry] at hvalue
  rcases hvalue with hnone | hzero
  · exact absurd hnone (by simp)
  · exact one_ne_zero (Option.some.inj hzero)

theorem convolves_iff_yields (hs0 : 1 ≤ s0) (hs1 : 1 ≤ s1) (hc : a.ne2 = b.ne2) (hfits : KernelFits a b p0 p1 d0 d1 true)
    (hall : AllComputable a b s0 s1 p0 p1 d0 d1 true) : Convolves V a b s0 s1 p0 p1 d0 d1 nth ↔
      Yields V a b nth (patchShape a b s0 s1 p0 p1 d0 d1) (windows a b s0 s1 p0 p1 d0 d1) := by
  have hshape : im2colShape a b s0 s1 p0 p1 d0 d1 true = .ok (patchShape a b s0 s1 p0 p1 d0 d1) :=
    im2colShape_accepted hs0 (fun _ => hs1) hc hall ⟨.inl hfits.1, fun h => .inl (hfits.2 h)⟩
  unfold Convolves
  rw [hshape]
  rfl

variable (V) in
/-- Exactly when the result is the direct convolution, for a kernel that fits. -/
theorem convolves_iff [Nontrivial V] (hs0 : 1 ≤ s0) (hs1 : 1 ≤ s1) (hnth : 0 < nth) (hc : a.ne2 = b.ne2)
    (hfits : KernelFits a b p0 p1 d0 d1 true) :
    Convolves V a b s0 s1 p0 p1 d0 d1 nth ↔ Survives a b s0 s1 p0 p1 d0 d1 := by
  have hconv : (windows a b s0 s1 p0 p1 d0 d1).Converted := geometry_converted ..
  by_cases hall : AllComputable a b s0 s1 p0 p1 d0 d1 true
  · rw [convolves_iff_yields hs0 hs1 hc hfits hall]
    constructor
    · intro h
      refine ⟨hall, cells_of_yields h, ?_⟩
      by_cases hoc : a.ne3 = 0
      · exact .inr (.inr ⟨hoc, loadsInside_of_yields hnth h⟩)
      · by_cases htap : (windows a b s0 s1 p0 p1 d0 d1).TapInside
        · exact .inl (strides_of_yields hnth hc h (Nat.pos_of_ne_zero hoc) htap)
        · exact .inr (.inl htap)
    · rintro ⟨-, hcells, hsurvive⟩
      rcases or_assoc.2 hsurvive with hpixel | ⟨hoc, hload⟩
      · have hvalue := fun (image : ℕ → V) (t : Tap) ht => patchValue_pixel (t := t) hconv hpixel image ht
        refine yields_of hnth hc hcells ((patchValue_ne_none_iff (0 : ℕ → V)).1 (fun t ht hnone => ?_)) (fun _ => hvalue)
        rw [hvalue 0 t ht] at hnone
        exact absurd hnone (by simp)
      · exact yields_of hnth hc hcells hload (fun hne => absurd hoc hne)
  · have hshape : im2colShape a b s0 s1 p0 p1 d0 d1 true = .error .overflow := im2colShape_overflow hc hall
    unfold Convolves
    rw [hshape]
    exact iff_of_false id (fun h => hall h.1)

theorem convolves_batch : Convolves ℤ ⟨3, 2, 2, 4⟩ ⟨9, 8, 2, 3⟩ 2 1 1 0 1 3 5 := by
  refine (convolves_iff ℤ ?_ ?_ ?_ ?_ ⟨?_, fun _ => ?_⟩).2 ⟨⟨?_, fun _ => ?_⟩, ?_, .inl ⟨.inr ?_, .inr ?_⟩⟩
  all_goals decide

/-- Two images of `2 ^ 31` bytes: the offset of the second is negative. -/
theorem convolves_two_images : ¬Convolves ℤ ⟨1, 1, 1, 1⟩ ⟨2 ^ 15, 2 ^ 14, 1, 2⟩ 1 1 0 0 1 1 1 := by
  intro h
  have hyields : Yields ℤ ⟨1, 1, 1, 1⟩ ⟨2 ^ 15, 2 ^ 14, 1, 2⟩ 1 (patchShape ⟨1, 1, 1, 1⟩ ⟨2 ^ 15, 2 ^ 14, 1, 2⟩ 1 1 0 0 1 1)
      (windows ⟨1, 1, 1, 1⟩ ⟨2 ^ 15, 2 ^ 14, 1, 2⟩ 1 1 0 0 1 1) := by
    refine (convolves_iff_yields ?_ ?_ ?_ ⟨?_, fun _ => ?_⟩ ⟨?_, fun _ => ?_⟩).1 h
    all_goals decide
  have htap : (windows ⟨1, 1, 1, 1⟩ ⟨2 ^ 15, 2 ^ 14, 1, 2⟩ 1 1 0 0 1 1).TapInside :=
    ⟨⟨0, 0, 0, 0, 0, 0⟩, ⟨by decide, by decide, by decide, by decide, by decide, by decide⟩, by decide⟩
  have hfit := strides_of_yields (by decide) (by decide) hyields (by decide) htap
  exact hfit.1.elim (by decide) (by decide)

end Exact

end PyannoteCpp.Conv2d
