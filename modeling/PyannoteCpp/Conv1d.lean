import PyannoteCpp.ConvGraph

set_option autoImplicit false

/-!
# One-dimensional convolution

The product has the output channels outside the batch, as for two dimensions,
but `ggml_conv_1d` only gives it the shape with the batch outside. The element
`(ol, oc, n)` is then read where another batch element and channel were
written, unless one of the two counts is one.
-/
namespace PyannoteCpp.Conv1d
open ConvShape TensorGraph Im2col Geometry ConvGraph RowMajor SharedStores

variable {ι V : Type*}

section Claim

def kernelShape (K IC OC : ℕ) : Shape := ⟨K, IC, OC, 1⟩

def imageShape (L IC N : ℕ) : Shape := ⟨L, IC, N, 1⟩

variable (K IC OC L N : ℕ) (s0 p0 d0 : ℤ) (nth : ℕ) (half : Bool)

def shapeOf : Except Stop Shape := im2colShape (kernelShape K IC OC) (imageShape L IC N) s0 0 p0 0 d0 0 false

/-- The patches are of type `GGML_TYPE_F16`, and then the kernel must be. -/
def performF16 (order : List (Option (ℕ × V))) (wdata : ℕ → V) : Option (ℕ → V) :=
  if half then perform order wdata else none

variable (V) [CommSemiring V]

def Accepts : Prop :=
  match shapeOf K IC OC L N s0 p0 d0 with
  | .error _ => False
  | .ok ne => (conv1dOf (constant (kernelShape K IC OC) (0 : ℕ → V)) (constant ne 0) : Option (Node Empty V)).isSome

/-- For any data and any order of the threads' stores, the result is the direct convolution. -/
def Yields (ne : Shape) (g : Geometry) : Prop :=
  ∀ (kernel image wdata : ℕ → V) (order : List (Option (ℕ × V))), order.Perm (threads nth (g.im2col image nth)) →
    ∃ (wdata' : ℕ → V) (result : Node Empty V), performF16 half order wdata = some wdata' ∧
      conv1dOf (constant (kernelShape K IC OC) kernel) (constant ne wdata') = some result ∧
      result.ne = ⟨ne.ne1, OC, N, 1⟩ ∧ ∀ n oc ol, n < N → oc < OC → ol < ne.ne1 →
        result.entry (fun i => i.elim) ol oc n 0 = direct g kernel image oc n 0 ol

def Convolves : Prop :=
  match shapeOf K IC OC L N s0 p0 d0 with
  | .error _ => False
  | .ok ne => Yields V K IC OC N nth half ne
      (geometry (kernelShape K IC OC) (imageShape L IC N) ne s0 0 p0 0 d0 0 false)

def patchShape : Shape := ⟨IC * K, ((numerator L K p0 d0).tdiv s0 + 1).toNat, N, 1⟩

def windows : Geometry := geometry (kernelShape K IC OC) (imageShape L IC N) (patchShape K IC L N s0 p0 d0) s0 0 p0 0 d0 0 false

/-- The kernel is of type `GGML_TYPE_F16`, the byte strides of the image fit in an `int`, and there is one batch element
or one channel, where they matter. -/
def Survives : Prop :=
  half ∧ ((windows K IC OC L N s0 p0 d0).StridesFit ∧ (N ≤ 1 ∨ OC ≤ 1) ∨ ¬(windows K IC OC L N s0 p0 d0).TapInside ∨
    OC = 0 ∧ (windows K IC OC L N s0 p0 d0).LoadsInside)

end Claim

section Graph

variable {K IC : ℕ} (OC : ℕ) {cols : Shape} (kernel wdata : ℕ → V)

theorem conv1dOf_empty [Zero V] [Add V] [Mul V] (hrow : cols.ne0 = 0) (hcells : K * IC = 0) :
    conv1dOf (constant (kernelShape K IC OC) kernel : Node ι V) (constant cols wdata) = none := by
  have hrows : reshape (constant cols wdata : Node ι V) ⟨cols.ne0, cols.ne2 * cols.ne1, 1, 1⟩ =
      some (matrix 0 (cols.ne2 * cols.ne1) wdata) := by
    rw [hrow]
    refine if_pos ⟨rfl, ?_⟩
    simp [Shape.nelements, constant, hrow]
  have hkernels : reshape (constant (kernelShape K IC OC) kernel : Node ι V) ⟨K * IC, OC, 1, 1⟩ =
      some (matrix 0 OC kernel) := by
    rw [hcells]
    refine if_pos ⟨rfl, ?_⟩
    simp [Shape.nelements, constant, kernelShape, hcells]
  change (reshape (constant cols wdata) ⟨cols.ne0, cols.ne2 * cols.ne1, 1, 1⟩).bind (fun rows =>
    (reshape (constant (kernelShape K IC OC) kernel) ⟨K * IC, OC, 1, 1⟩).bind (fun kernels =>
      (mulMat rows kernels).bind _)) = none
  rw [hrows, hkernels, Option.bind_some, Option.bind_some, mulMat_empty, Option.bind_none]

/-- The batch element and the channel that element `(oc, n)` is read from. -/
theorem conv1dOf_eq [NonUnitalNonAssocSemiring V] (hK : 0 < IC * K) (hrow : cols.ne0 = IC * K) (hbatch : cols.ne3 = 1) :
    ∃ result : Node ι V, conv1dOf (constant (kernelShape K IC OC) kernel) (constant cols wdata) = some result ∧
      result.ne = ⟨cols.ne1, OC, cols.ne2, 1⟩ ∧ ∀ buf n oc ol, n < cols.ne2 → oc < OC → ol < cols.ne1 →
        result.entry buf ol oc n 0 = ∑ l ∈ Finset.range (IC * K),
          wdata (((n * OC + oc) % cols.ne2 * cols.ne1 + ol) * (IC * K) + l) * kernel ((n * OC + oc) / cols.ne2 * (IC * K) + l) := by
  set M := cols.ne2 * cols.ne1 with hM
  have hrows : reshape (constant cols wdata : Node ι V) ⟨cols.ne0, M, 1, 1⟩ = some (matrix (IC * K) M wdata) := by
    rw [hrow]
    refine if_pos ⟨rfl, ?_⟩
    simp only [Shape.nelements, constant, hrow, hM, hbatch]
    ring
  have hkernels : reshape (constant (kernelShape K IC OC) kernel : Node ι V) ⟨K * IC, OC, 1, 1⟩ =
      some (matrix (IC * K) OC kernel) := by
    rw [Nat.mul_comm K IC]
    refine if_pos ⟨rfl, ?_⟩
    simp only [Shape.nelements, constant, kernelShape]
    ring
  obtain ⟨product, hproduct, hne, hnb, hentries⟩ := mulMat_matrix (ι := ι) hK M OC wdata kernel
  have hresult : reshape product ⟨cols.ne1, OC, cols.ne2, 1⟩ =
      some ⟨⟨cols.ne1, OC, cols.ne2, 1⟩, Shape.strides ⟨cols.ne1, OC, cols.ne2, 1⟩, product.eval⟩ := by
    refine if_pos ⟨hnb, ?_⟩
    simp only [hne, Shape.nelements, hM]
    ring
  refine ⟨⟨⟨cols.ne1, OC, cols.ne2, 1⟩, Shape.strides ⟨cols.ne1, OC, cols.ne2, 1⟩, product.eval⟩, ?_, rfl, ?_⟩
  · change (reshape (constant cols wdata) ⟨cols.ne0, M, 1, 1⟩).bind (fun rows =>
      (reshape (constant (kernelShape K IC OC) kernel) ⟨K * IC, OC, 1, 1⟩).bind (fun kernels =>
        (mulMat rows kernels).bind (fun result => reshape result ⟨cols.ne1, OC, cols.ne2, 1⟩))) = _
    rw [hrows, hkernels, Option.bind_some, Option.bind_some, hproduct, Option.bind_some, hresult]
  · intro buf n oc ol hn hoc hol
    have hq : n * OC + oc < cols.ne2 * OC := row_lt hn hoc
    set q := n * OC + oc with hqdef
    have hplace : ol * 1 + oc * cols.ne1 + n * (cols.ne1 * OC) + 0 * (cols.ne1 * OC * cols.ne2) =
        q / cols.ne2 * M + (q % cols.ne2 * cols.ne1 + ol) := by
      calc ol * 1 + oc * cols.ne1 + n * (cols.ne1 * OC) + 0 * (cols.ne1 * OC * cols.ne2)
          = q * cols.ne1 + ol := by
            rw [hqdef]
            ring
        _ = (q / cols.ne2 * cols.ne2 + q % cols.ne2) * cols.ne1 + ol := by rw [Nat.div_add_mod']
        _ = _ := by
            rw [hM]
            ring
    change product.eval buf (ol * 1 + oc * cols.ne1 + n * (cols.ne1 * OC) + 0 * (cols.ne1 * OC * cols.ne2)) = _
    rw [hplace, hentries buf _ (q / cols.ne2) (row_lt (Nat.mod_lt _ (Nat.zero_lt_of_lt hn)) hol) (Nat.div_lt_of_lt_mul hq)]

end Graph

section Exact

variable {K IC OC L N : ℕ} {s0 p0 d0 : ℤ} {nth : ℕ} {half : Bool}

theorem channels_match : Channels (kernelShape K IC OC) (imageShape L IC N) false := ⟨rfl, rfl⟩

theorem shapeOf_eq (hs0 : 1 ≤ s0) (hall : Computable L K s0 p0 d0) (haccept : Fits L K p0 d0 ∨ Slips L K s0 p0 d0) :
    shapeOf K IC OC L N s0 p0 d0 = .ok (patchShape K IC L N s0 p0 d0) :=
  im2colShape_accepted hs0 (fun h => absurd h (by decide)) channels_match ⟨hall, fun h => absurd h (by decide)⟩
    ⟨haccept, fun h => absurd h (by decide)⟩

variable [CommSemiring V]

theorem shape_of_accepts (hs0 : 1 ≤ s0) (h : Accepts V K IC OC L N s0 p0 d0) :
    shapeOf K IC OC L N s0 p0 d0 = .ok (patchShape K IC L N s0 p0 d0) ∧ 0 < IC * K := by
  have hshape : shapeOf K IC OC L N s0 p0 d0 = .ok (patchShape K IC L N s0 p0 d0) := by
    unfold Accepts at h
    by_cases hall : Computable L K s0 p0 d0
    · by_cases haccept : Fits L K p0 d0 ∨ Slips L K s0 p0 d0
      · exact shapeOf_eq hs0 hall haccept
      · have hreject : shapeOf K IC OC L N s0 p0 d0 = .error .assertion :=
          im2colShape_rejected hs0 (fun h => absurd h (by decide)) channels_match ⟨hall, fun h => absurd h (by decide)⟩
            (fun h => haccept h.1)
        rw [hreject] at h
        exact h.elim
    · have hover : shapeOf K IC OC L N s0 p0 d0 = .error .overflow :=
        im2colShape_overflow channels_match (fun h => hall h.1)
      rw [hover] at h
      exact h.elim
  refine ⟨hshape, ?_⟩
  unfold Accepts at h
  rw [hshape] at h
  by_contra hzero
  have hrow : (patchShape K IC L N s0 p0 d0).ne0 = 0 := Nat.eq_zero_of_not_pos hzero
  have hcells : K * IC = 0 := by rw [Nat.mul_comm]; exact Nat.eq_zero_of_not_pos hzero
  have hnone := conv1dOf_empty (ι := Empty) OC (0 : ℕ → V) 0 hrow hcells
  dsimp only at h
  rw [hnone] at h
  exact absurd h (by simp)

theorem cells_windows : cells (windows K IC OC L N s0 p0 d0) = IC * K := by
  unfold cells windows geometry kernelShape imageShape
  simp

variable (L N s0 p0 d0) in
theorem conv1dOf_weighted (hK : 0 < IC * K) (kernel wdata : ℕ → V) :
    ∃ result : Node ι V, conv1dOf (constant (kernelShape K IC OC) kernel) (constant (patchShape K IC L N s0 p0 d0) wdata) =
        some result ∧ result.ne = ⟨(patchShape K IC L N s0 p0 d0).ne1, OC, N, 1⟩ ∧
      ∀ buf n oc ol, n < N → oc < OC → ol < (patchShape K IC L N s0 p0 d0).ne1 → result.entry buf ol oc n 0 =
        weighted (windows K IC OC L N s0 p0 d0) kernel (fun t => wdata ((windows K IC OC L N s0 p0 d0).dstIndex t))
          ((n * OC + oc) / N) ((n * OC + oc) % N) 0 ol := by
  have hrow : (patchShape K IC L N s0 p0 d0).ne0 = IC * K := rfl
  obtain ⟨result, hresult, hne, hentries⟩ := conv1dOf_eq (ι := ι) OC kernel wdata hK hrow rfl
  refine ⟨result, hresult, hne, fun buf n oc ol hn hoc hol => ?_⟩
  have hmemory := weighted_memory (g := windows K IC OC L N s0 p0 d0) (n := (n * OC + oc) % N) kernel wdata
    ((n * OC + oc) / N) Nat.zero_lt_one hol
  rw [cells_windows] at hmemory
  refine (hentries buf n oc ol hn hoc hol).trans (Eq.trans ?_ hmemory)
  have hposition : position (windows K IC OC L N s0 p0 d0) ((n * OC + oc) % N) 0 ol =
      (n * OC + oc) % N * (patchShape K IC L N s0 p0 d0).ne1 + ol := by
    change ((n * OC + oc) % N * 1 + 0) * (patchShape K IC L N s0 p0 d0).ne1 + ol = _
    rw [Nat.mul_one, Nat.add_zero]
  rw [hposition]
  rfl

/-- With one batch element or one channel, every element is read from its own place. -/
theorem exchange_eq {n oc : ℕ} (hone : N ≤ 1 ∨ OC ≤ 1) (hn : n < N) (hoc : oc < OC) :
    (n * OC + oc) / N = oc ∧ (n * OC + oc) % N = n := by
  rcases hone with hN | hOC
  · obtain rfl : N = 1 := by omega
    obtain rfl : n = 0 := by omega
    rw [Nat.zero_mul, Nat.zero_add, Nat.div_one, Nat.mod_one]
    exact ⟨rfl, rfl⟩
  · obtain rfl : OC = 1 := by omega
    obtain rfl : oc = 0 := by omega
    rw [Nat.mul_one, Nat.add_zero, Nat.div_eq_of_lt hn, Nat.mod_eq_of_lt hn]
    exact ⟨rfl, rfl⟩

variable (V K IC OC L N s0 p0 d0) in
/-- The sums that are read are those of direct convolution. -/
def SumsAgree : Prop :=
  ∀ (kernel image : ℕ → V) (value : Tap → V), (∀ t, (windows K IC OC L N s0 p0 d0).InRange t →
      (windows K IC OC L N s0 p0 d0).patchValue image t = some (value t)) →
    ∀ n oc ol, n < N → oc < OC → ol < (patchShape K IC L N s0 p0 d0).ne1 →
      weighted (windows K IC OC L N s0 p0 d0) kernel value ((n * OC + oc) / N) ((n * OC + oc) % N) 0 ol =
        direct (windows K IC OC L N s0 p0 d0) kernel image oc n 0 ol

theorem yields_iff (hnth : 0 < nth) (hK : 0 < IC * K) :
    Yields V K IC OC N nth half (patchShape K IC L N s0 p0 d0) (windows K IC OC L N s0 p0 d0) ↔
      half ∧ (windows K IC OC L N s0 p0 d0).LoadsInside ∧ SumsAgree V K IC OC L N s0 p0 d0 := by
  constructor
  · intro h
    have hhalf : half := by
      obtain ⟨wdata', -, hrun, -⟩ := h 0 0 0 _ (List.Perm.refl _)
      by_contra hsingle
      rw [performF16, if_neg hsingle] at hrun
      exact absurd hrun (by simp)
    have hload : (windows K IC OC L N s0 p0 d0).LoadsInside := by
      obtain ⟨wdata', -, hrun, -⟩ := h 0 0 0 _ (List.Perm.refl _)
      rw [performF16, if_pos hhalf] at hrun
      exact loadsInside_of_run hnth (List.Perm.refl _) hrun
    refine ⟨hhalf, hload, fun kernel image value hvalue n oc ol hn hoc hol => ?_⟩
    obtain ⟨wdata', result, hrun, hresult, -, hentries⟩ := h kernel image 0 _ (List.Perm.refl _)
    rw [performF16, if_pos hhalf] at hrun
    obtain ⟨result₂, hresult₂, -, hsums⟩ :=
      conv1dOf_weighted (ι := Empty) L N s0 p0 d0 hK kernel wdata'
    obtain rfl : result = result₂ := Option.some.inj (hresult.symm.trans hresult₂)
    rw [← hentries n oc ol hn hoc hol, hsums _ n oc ol hn hoc hol]
    refine weighted_congr kernel (fun t ht => ?_) _ (Nat.mod_lt _ (Nat.zero_lt_of_lt hn)) Nat.zero_lt_one hol
    have hcell := run_cell hnth (List.Perm.refl _) hrun ht
    rw [hvalue t ht] at hcell
    exact Option.some.inj hcell
  · rintro ⟨hhalf, hload, hsums⟩ kernel image wdata order horder
    obtain ⟨value, hvalue⟩ := exists_value hload image
    obtain ⟨wdata', hrun, -⟩ := perform_im2col hnth hvalue horder wdata
    obtain ⟨result, hresult, hne, hentries⟩ := conv1dOf_weighted L N s0 p0 d0 hK kernel wdata'
    refine ⟨wdata', result, by rw [performF16, if_pos hhalf, hrun], hresult, hne, fun n oc ol hn hoc hol => ?_⟩
    rw [hentries _ n oc ol hn hoc hol]
    exact hsums kernel image _ (fun t ht => run_cell hnth horder hrun ht) n oc ol hn hoc hol

theorem sumsAgree_of_fit (hfit : (windows K IC OC L N s0 p0 d0).StridesFit) (hone : N ≤ 1 ∨ OC ≤ 1) :
    SumsAgree V K IC OC L N s0 p0 d0 := by
  intro kernel image value hvalue n oc ol hn hoc hol
  have hconv : (windows K IC OC L N s0 p0 d0).Converted := geometry_converted ..
  obtain ⟨hdiv, hmod⟩ := exchange_eq hone hn hoc
  rw [hdiv, hmod]
  refine weighted_congr kernel (fun t ht => ?_) oc hn Nat.zero_lt_one hol
  have hpixel := patchValue_pixel hconv (.inl hfit) image ht
  rw [hvalue t ht] at hpixel
  exact Option.some.inj hpixel

theorem sumsAgree_of_padding (htap : ¬(windows K IC OC L N s0 p0 d0).TapInside) : SumsAgree V K IC OC L N s0 p0 d0 := by
  intro kernel image value hvalue n oc ol hn hoc hol
  have hout : ∀ t, (windows K IC OC L N s0 p0 d0).InRange t → (windows K IC OC L N s0 p0 d0).Outside t :=
    fun t ht => not_not.1 (fun hin => htap ⟨t, ht, hin⟩)
  have hzero : ∀ t, (windows K IC OC L N s0 p0 d0).InRange t → value t = 0 := fun t ht => by
    have hvalue₀ := hvalue t ht
    rw [patchValue, if_pos (hout t ht)] at hvalue₀
    exact (Option.some.inj hvalue₀).symm
  have hmod : (n * OC + oc) % N < (windows K IC OC L N s0 p0 d0).N := Nat.mod_lt _ (Nat.zero_lt_of_lt hn)
  rw [direct, weighted_zero kernel hzero _ hmod Nat.zero_lt_one hol]
  exact (weighted_zero kernel (fun t ht => if_pos (hout t ht)) oc hn Nat.zero_lt_one hol).symm

variable [Nontrivial V]

/-- The second channel of the first batch element is read from the first channel of the second. -/
theorem one_of_sumsAgree (h : SumsAgree V K IC OC L N s0 p0 d0) (hload : (windows K IC OC L N s0 p0 d0).LoadsInside)
    (htap : (windows K IC OC L N s0 p0 d0).TapInside) : N ≤ 1 ∨ OC ≤ 1 := by
  by_contra hmany
  rw [not_or, not_le, not_le] at hmany
  set g := windows K IC OC L N s0 p0 d0 with hg
  obtain ⟨u, hu, hinside⟩ := htap
  let t : Tap := ⟨0, 0, u.iow, u.iic, u.ikh, u.ikw⟩
  have hioh : u.ioh = 0 := Nat.lt_one_iff.1 hu.ioh
  have ht : g.InRange t := ⟨Nat.zero_lt_of_lt hu.n, Nat.zero_lt_one, hu.iow, hu.iic, hu.ikh, hu.ikw⟩
  have hin : ¬g.Outside t := by
    intro hout
    refine hinside ?_
    unfold Outside iih iiw at hout ⊢
    rw [hioh]
    exact hout
  obtain ⟨value, hvalue⟩ := exists_value hload (Pi.single (g.pixelIndex t) (1 : V))
  have hsums := h (Pi.single (((1 * g.IC + t.iic) * g.KH + t.ikh) * g.KW + t.ikw) 1) _ value hvalue 0 1 t.iow
    (by omega) hmany.2 ht.iow
  rw [Nat.zero_mul, Nat.zero_add, Nat.div_eq_of_lt hmany.1, ← hg,
    weighted_other ht value Nat.one_ne_zero Nat.zero_lt_one ht.iow] at hsums
  have hsingle : direct g (Pi.single (((1 * g.IC + t.iic) * g.KH + t.ikh) * g.KW + t.ikw) 1)
      (Pi.single (g.pixelIndex t) (1 : V)) 1 t.n t.ioh t.iow = 1 := by
    rw [direct, weighted_single ht, pixel, if_neg hin, Pi.single_eq_same]
  exact zero_ne_one (hsums.trans hsingle)

theorem strides_of_sumsAgree (h : SumsAgree V K IC OC L N s0 p0 d0) (hload : (windows K IC OC L N s0 p0 d0).LoadsInside)
    (htap : (windows K IC OC L N s0 p0 d0).TapInside) (hoc : 0 < OC) : (windows K IC OC L N s0 p0 d0).StridesFit := by
  by_contra hfit
  have hconv : (windows K IC OC L N s0 p0 d0).Converted := geometry_converted ..
  have hone := one_of_sumsAgree h hload htap
  obtain ⟨image, t, ht, hpixel, hwrong⟩ := exists_patchValue_ne (V := V) hconv hfit htap
  set g := windows K IC OC L N s0 p0 d0 with hg
  obtain ⟨value, hvalue⟩ := exists_value hload image
  have hioh : t.ioh = 0 := Nat.lt_one_iff.1 ht.ioh
  have hsums := h (Pi.single (((0 * g.IC + t.iic) * g.KH + t.ikh) * g.KW + t.ikw) 1) image value hvalue t.n 0 t.iow
    ht.n hoc ht.iow
  obtain ⟨hdiv, hmod⟩ := exchange_eq hone ht.n hoc
  rw [hdiv, hmod, ← hioh, ← hg, direct, weighted_single ht, weighted_single ht, hpixel] at hsums
  rw [hvalue t ht, hsums] at hwrong
  rcases hwrong with hnone | hzero
  · exact absurd hnone (by simp)
  · exact one_ne_zero (Option.some.inj hzero)

omit [Nontrivial V] in
theorem convolves_iff_yields (hs0 : 1 ≤ s0) (haccepts : Accepts V K IC OC L N s0 p0 d0) :
    Convolves V K IC OC L N s0 p0 d0 nth half ↔
      Yields V K IC OC N nth half (patchShape K IC L N s0 p0 d0) (windows K IC OC L N s0 p0 d0) := by
  unfold Convolves
  rw [(shape_of_accepts hs0 haccepts).1]
  rfl

variable (V) in
/-- Exactly when the result is the direct convolution, for what `ggml_conv_1d` accepts. -/
theorem convolves1d_iff (hs0 : 1 ≤ s0) (hnth : 0 < nth) (haccepts : Accepts V K IC OC L N s0 p0 d0) :
    Convolves V K IC OC L N s0 p0 d0 nth half ↔ Survives K IC OC L N s0 p0 d0 half := by
  have hconv : (windows K IC OC L N s0 p0 d0).Converted := geometry_converted ..
  rw [convolves_iff_yields hs0 haccepts, yields_iff hnth (shape_of_accepts hs0 haccepts).2]
  refine and_congr_right (fun _ => ⟨?_, ?_⟩)
  · rintro ⟨hload, hsums⟩
    by_cases hoc : OC = 0
    · exact .inr (.inr ⟨hoc, hload⟩)
    · by_cases htap : (windows K IC OC L N s0 p0 d0).TapInside
      · exact .inl ⟨strides_of_sumsAgree hsums hload htap (Nat.pos_of_ne_zero hoc), one_of_sumsAgree hsums hload htap⟩
      · exact .inr (.inl htap)
  · have hload : (windows K IC OC L N s0 p0 d0).StridesFit ∨ ¬(windows K IC OC L N s0 p0 d0).TapInside →
        (windows K IC OC L N s0 p0 d0).LoadsInside := fun h =>
      (patchValue_ne_none_iff (0 : ℕ → V)).1 (fun t ht hnone => by
        rw [patchValue_pixel hconv h 0 ht] at hnone
        exact absurd hnone (by simp))
    rintro (⟨hfit, hone⟩ | htap | ⟨hoc, hin⟩)
    · exact ⟨hload (.inl hfit), sumsAgree_of_fit hfit hone⟩
    · exact ⟨hload (.inr htap), sumsAgree_of_padding htap⟩
    · exact ⟨hin, fun _ _ _ _ n oc _ _ h => absurd h (by omega)⟩

theorem convolves_single : Convolves ℤ 3 2 4 10 1 2 1 1 5 true := by
  refine (convolves1d_iff ℤ ?_ ?_ ?_).2 ⟨rfl, .inl ⟨⟨.inl ?_, .inr ?_⟩, .inl ?_⟩⟩
  · decide
  · decide
  · rfl
  all_goals decide

/-- Two batch elements and two channels. -/
theorem convolves_two_batches : ¬Convolves ℤ 1 1 2 1 2 1 0 1 1 true := by
  intro h
  have haccepts : Accepts ℤ 1 1 2 1 2 1 0 1 := rfl
  rw [convolves_iff_yields (by decide) haccepts, yields_iff (by decide) (by decide)] at h
  have htap : (windows 1 1 2 1 2 1 0 1).TapInside :=
    ⟨⟨0, 0, 0, 0, 0, 0⟩, ⟨by decide, by decide, by decide, by decide, by decide, by decide⟩, by decide⟩
  exact absurd (one_of_sumsAgree h.2.2 h.2.1 htap) (by decide)

end Exact

end PyannoteCpp.Conv1d
