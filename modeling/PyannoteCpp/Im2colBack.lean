import PyannoteCpp.Im2col

set_option autoImplicit false

/-!
# The gradient of the patches

`ggml_compute_forward_im2col_back_f32` finds, for a pixel and a kernel cell, the
window position that reads the pixel through the cell, by a division that must
be exact. It sums what the gradient holds there.
-/
namespace PyannoteCpp.Im2colBack
open TensorGraph Im2col Geometry SharedStores RowMajor

variable {V : Type*} (g : Geometry)

structure Cell where
  n : ℕ
  iic : ℕ
  iih : ℕ
  iiw : ℕ

/-- The window position that reads a pixel through the cell `(ikh, ikw)`. -/
def windowOf (is2D : Bool) (iih iiw ikh ikw : ℕ) : Option (ℕ × ℕ) :=
  let tmpw : ℤ := iiw + g.p0 - ikw * g.d0
  let tmph : ℤ := iih + g.p1 - ikh * g.d1
  if tmpw.tmod g.s0 ≠ 0 then none
  else
    let iow := tmpw.tdiv g.s0
    (if is2D then (if tmph.tmod g.s1 ≠ 0 then none else some (tmph.tdiv g.s1)) else some 0).bind (fun ioh =>
      if iow < 0 ∨ g.OW ≤ iow ∨ ioh < 0 ∨ g.OH ≤ ioh then none else some (ioh.toNat, iow.toNat))

def cellOf (count : ℕ) (address : ℤ) : Option ℕ :=
  if 0 ≤ address ∧ 4 ∣ address ∧ address / 4 < count then some (address / 4).toNat else none

section Loops

variable [Zero V] [Add V]

def gradAt (is2D : Bool) (grad : ℕ → V) (c : Cell) : V :=
  (List.range g.KH).foldl (fun acc ikh => (List.range g.KW).foldl (fun acc ikw =>
    match windowOf g is2D c.iih c.iiw ikh ikw with
    | none => acc
    | some (ioh, iow) => acc + grad (g.dstIndex ⟨c.n, ioh, iow, c.iic, ikh, ikw⟩)) acc) 0

def backStore (is2D : Bool) (grad : ℕ → V) (c : Cell) : Option (ℕ × V) :=
  (cellOf g.pixels (g.address c.n c.iic c.iih c.iiw)).map (fun e => (e, gradAt g is2D grad c))

def im2colBack (is2D : Bool) (grad : ℕ → V) (nth ith : ℕ) : List (Option (ℕ × V)) :=
  (List.range g.N).flatMap (fun n => (turns ith nth g.IC).flatMap (fun iic => (List.range g.IH).flatMap (fun iih =>
    (List.range g.IW).map (fun iiw => backStore g is2D grad ⟨n, iic, iih, iiw⟩))))

end Loops

section Window

variable {g}

theorem tdiv_eq_iff {x s : ℤ} (hs : 1 ≤ s) (h : x.tmod s = 0) (o : ℤ) : x.tdiv s = o ↔ o * s = x := by
  have hx : s * x.tdiv s = x := Int.mul_tdiv_cancel_of_tmod_eq_zero h
  constructor
  · rintro rfl
    rw [mul_comm, hx]
  · intro ho
    rw [← ho, Int.mul_tdiv_cancel _ (by omega)]

theorem tmod_of_mul_eq {x s o : ℤ} (h : o * s = x) : x.tmod s = 0 :=
  Int.tmod_eq_zero_of_dvd ⟨o, by rw [← h, mul_comm]⟩

theorem windowOf_eq_some (hs0 : 1 ≤ g.s0) (hs1 : 1 ≤ g.s1) {iih iiw ikh ikw ioh iow : ℕ} :
    windowOf g true iih iiw ikh ikw = some (ioh, iow) ↔ ioh < g.OH ∧ iow < g.OW ∧
      (ioh * g.s1 + ikh * g.d1 - g.p1 = iih ∧ iow * g.s0 + ikw * g.d0 - g.p0 = iiw) := by
  set tmpw : ℤ := iiw + g.p0 - ikw * g.d0 with htmpw
  set tmph : ℤ := iih + g.p1 - ikh * g.d1 with htmph
  have hwidth : (iow * g.s0 + ikw * g.d0 - g.p0 = iiw) ↔ iow * g.s0 = tmpw := by
    rw [htmpw]
    constructor <;> intro h <;> linarith
  have hheight : (ioh * g.s1 + ikh * g.d1 - g.p1 = iih) ↔ ioh * g.s1 = tmph := by
    rw [htmph]
    constructor <;> intro h <;> linarith
  rw [hwidth, hheight]
  have hunfold : windowOf g true iih iiw ikh ikw = if tmpw.tmod g.s0 ≠ 0 then none else
      (if tmph.tmod g.s1 ≠ 0 then none else some (tmph.tdiv g.s1)).bind (fun ioh =>
        if tmpw.tdiv g.s0 < 0 ∨ g.OW ≤ tmpw.tdiv g.s0 ∨ ioh < 0 ∨ g.OH ≤ ioh then none
        else some (ioh.toNat, (tmpw.tdiv g.s0).toNat)) := rfl
  rw [hunfold]
  by_cases hw : tmpw.tmod g.s0 = 0
  · by_cases hh : tmph.tmod g.s1 = 0
    · rw [if_neg (not_not.2 hw), if_neg (not_not.2 hh), Option.bind_some, Option.ite_none_left_eq_some, Option.some.injEq,
        Prod.mk.injEq, ← tdiv_eq_iff hs0 hw, ← tdiv_eq_iff hs1 hh]
      omega
    · rw [if_neg (not_not.2 hw), if_pos hh, Option.bind_none]
      exact iff_of_false (by simp) (fun h => hh (tmod_of_mul_eq h.2.2.1))
  · rw [if_pos hw]
    exact iff_of_false (by simp) (fun h => hw (tmod_of_mul_eq h.2.2.2))

end Window

section Adjoint

variable {g} [CommSemiring V]

def pixelOf (g : Geometry) (t : Tap) : Option (ℕ × ℕ) :=
  if g.Outside t then none else some ((g.iih t).toNat, (g.iiw t).toNat)

theorem pixelOf_eq_some {t : Tap} {iih iiw : ℕ} :
    pixelOf g t = some (iih, iiw) ↔ iih < g.IH ∧ iiw < g.IW ∧ (g.iih t = iih ∧ g.iiw t = iiw) := by
  have hout : ¬g.Outside t ↔ 0 ≤ g.iih t ∧ g.iih t < g.IH ∧ 0 ≤ g.iiw t ∧ g.iiw t < g.IW := by
    unfold Outside
    omega
  unfold pixelOf
  rw [Option.ite_none_left_eq_some, Option.some.injEq, Prod.mk.injEq, hout]
  omega

/-- The forward and the backward pass pair the same window positions and pixels. -/
theorem pixelOf_iff_windowOf (hs0 : 1 ≤ g.s0) (hs1 : 1 ≤ g.s1) {n iic ikh ikw ioh iow iih iiw : ℕ} (hioh : ioh < g.OH)
    (hiow : iow < g.OW) (hiih : iih < g.IH) (hiiw : iiw < g.IW) :
    pixelOf g ⟨n, ioh, iow, iic, ikh, ikw⟩ = some (iih, iiw) ↔ windowOf g true iih iiw ikh ikw = some (ioh, iow) := by
  rw [pixelOf_eq_some, windowOf_eq_some hs0 hs1]
  exact ⟨fun h => ⟨hioh, hiow, h.2.2⟩, fun h => ⟨hiih, hiiw, h.2.2⟩⟩

theorem gradAt_eq (is2D : Bool) (grad : ℕ → V) (c : Cell) : gradAt g is2D grad c =
    ∑ ikh ∈ Finset.range g.KH, ∑ ikw ∈ Finset.range g.KW, (windowOf g is2D c.iih c.iiw ikh ikw).elim 0
      (fun p => grad (g.dstIndex ⟨c.n, p.1, p.2, c.iic, ikh, ikw⟩)) := by
  have hstep : ∀ (acc : V) (ikh ikw : ℕ), (match windowOf g is2D c.iih c.iiw ikh ikw with
      | none => acc
      | some (ioh, iow) => acc + grad (g.dstIndex ⟨c.n, ioh, iow, c.iic, ikh, ikw⟩)) =
        acc + (windowOf g is2D c.iih c.iiw ikh ikw).elim 0
          (fun p => grad (g.dstIndex ⟨c.n, p.1, p.2, c.iic, ikh, ikw⟩)) := fun acc ikh ikw => by
    cases windowOf g is2D c.iih c.iiw ikh ikw with
    | none => rw [Option.elim_none, add_zero]
    | some p => rfl
  have hrow : ∀ (acc : V) (ikh : ℕ), (List.range g.KW).foldl (fun acc ikw =>
      match windowOf g is2D c.iih c.iiw ikh ikw with
      | none => acc
      | some (ioh, iow) => acc + grad (g.dstIndex ⟨c.n, ioh, iow, c.iic, ikh, ikw⟩)) acc =
        acc + ∑ ikw ∈ Finset.range g.KW, (windowOf g is2D c.iih c.iiw ikh ikw).elim 0
          (fun p => grad (g.dstIndex ⟨c.n, p.1, p.2, c.iic, ikh, ikw⟩)) := fun acc ikh => by
    rw [← foldl_range_add]
    exact congrArg (fun f => (List.range g.KW).foldl f acc) (funext₂ (fun acc ikw => hstep acc ikh ikw))
  unfold gradAt
  rw [← zero_add (∑ ikh ∈ Finset.range g.KH, _), ← foldl_range_add]
  exact congrArg (fun f => (List.range g.KH).foldl f 0) (funext₂ hrow)

theorem sum_windows (hs0 : 1 ≤ g.s0) (hs1 : 1 ≤ g.s1) (image grad : ℕ → V) (n iic ikh ikw : ℕ) :
    ∑ w ∈ Finset.range g.OH ×ˢ Finset.range g.OW, g.pixel image ⟨n, w.1, w.2, iic, ikh, ikw⟩ *
        grad (g.dstIndex ⟨n, w.1, w.2, iic, ikh, ikw⟩) =
      ∑ p ∈ Finset.range g.IH ×ˢ Finset.range g.IW, image (((n * g.IC + iic) * g.IH + p.1) * g.IW + p.2) *
        (windowOf g true p.1 p.2 ikh ikw).elim 0 (fun w => grad (g.dstIndex ⟨n, w.1, w.2, iic, ikh, ikw⟩)) := by
  have hpixel : ∀ w : ℕ × ℕ, g.pixel image ⟨n, w.1, w.2, iic, ikh, ikw⟩ =
      ∑ p ∈ Finset.range g.IH ×ˢ Finset.range g.IW, (if pixelOf g ⟨n, w.1, w.2, iic, ikh, ikw⟩ = some p then
        image (((n * g.IC + iic) * g.IH + p.1) * g.IW + p.2) else 0) := fun w => by
    rw [sum_option (fun p hp => ⟨(pixelOf_eq_some.1 hp).1, (pixelOf_eq_some.1 hp).2.1⟩)
      (fun p => image (((n * g.IC + iic) * g.IH + p.1) * g.IW + p.2))]
    unfold pixel pixelOf
    split_ifs <;> rfl
  have hwindow : ∀ p : ℕ × ℕ, (windowOf g true p.1 p.2 ikh ikw).elim 0
        (fun w => grad (g.dstIndex ⟨n, w.1, w.2, iic, ikh, ikw⟩)) =
      ∑ w ∈ Finset.range g.OH ×ˢ Finset.range g.OW, (if windowOf g true p.1 p.2 ikh ikw = some w then
        grad (g.dstIndex ⟨n, w.1, w.2, iic, ikh, ikw⟩) else 0) := fun p =>
    (sum_option (fun w hw => ⟨((windowOf_eq_some hs0 hs1).1 hw).1, ((windowOf_eq_some hs0 hs1).1 hw).2.1⟩)
      (fun w => grad (g.dstIndex ⟨n, w.1, w.2, iic, ikh, ikw⟩))).symm
  simp only [hpixel, hwindow, Finset.sum_mul, Finset.mul_sum]
  rw [Finset.sum_comm]
  refine Finset.sum_congr rfl (fun p hp => Finset.sum_congr rfl (fun w hw => ?_))
  rw [Finset.mem_product, Finset.mem_range, Finset.mem_range] at hp hw
  have hpair : pixelOf g ⟨n, w.1, w.2, iic, ikh, ikw⟩ = some p ↔ windowOf g true p.1 p.2 ikh ikw = some w :=
    pixelOf_iff_windowOf hs0 hs1 hw.1 hw.2 hp.1 hp.2
  by_cases h : windowOf g true p.1 p.2 ikh ikw = some w
  · rw [if_pos h, if_pos (hpair.2 h)]
  · rw [if_neg h, if_neg (fun hp => h (hpair.1 hp)), zero_mul, mul_zero]

def cellAt (g : Geometry) (e : ℕ) : Cell := ⟨e / g.IW / g.IH / g.IC, e / g.IW / g.IH % g.IC, e / g.IW % g.IH, e % g.IW⟩

def cellIndex (g : Geometry) (c : Cell) : ℕ := ((c.n * g.IC + c.iic) * g.IH + c.iih) * g.IW + c.iiw

theorem cellIndex_cellAt (e : ℕ) : cellIndex g (cellAt g e) = e := by
  simp only [cellIndex, cellAt, Nat.div_add_mod']

theorem sum_cellAt {M : Type*} [AddCommMonoid M] (f : Cell → M) : ∑ e ∈ Finset.range g.pixels, f (cellAt g e) =
    ∑ n ∈ Finset.range g.N, ∑ iic ∈ Finset.range g.IC, ∑ iih ∈ Finset.range g.IH, ∑ iiw ∈ Finset.range g.IW,
      f ⟨n, iic, iih, iiw⟩ := by
  rw [← sum_range_mul, ← sum_range_mul, ← sum_range_mul]
  rfl

/-- The patches of an image against a gradient, and the image against the sums of the backward pass. -/
theorem sum_adjoint (hs0 : 1 ≤ g.s0) (hs1 : 1 ≤ g.s1) (image grad : ℕ → V) :
    ∑ e ∈ Finset.range g.total, g.pixel image (g.tapAt e) * grad e =
      ∑ e ∈ Finset.range g.pixels, image e * gradAt g true grad (cellAt g e) := by
  have htaps := sum_tapAt (g := g) (fun t => g.pixel image t * grad (g.dstIndex t))
  have hcells := sum_cellAt (g := g) (fun c => image (cellIndex g c) * gradAt g true grad c)
  simp only [dstIndex_tapAt] at htaps
  simp only [cellIndex_cellAt] at hcells
  rw [htaps, hcells]
  simp only [gradAt_eq, cellIndex]
  refine Finset.sum_congr rfl (fun n _ => ?_)
  calc ∑ ioh ∈ Finset.range g.OH, ∑ iow ∈ Finset.range g.OW, ∑ iic ∈ Finset.range g.IC, ∑ ikh ∈ Finset.range g.KH,
        ∑ ikw ∈ Finset.range g.KW, g.pixel image ⟨n, ioh, iow, iic, ikh, ikw⟩ * grad (g.dstIndex ⟨n, ioh, iow, iic, ikh, ikw⟩)
      = ∑ w ∈ Finset.range g.OH ×ˢ Finset.range g.OW, ∑ iic ∈ Finset.range g.IC, ∑ ikh ∈ Finset.range g.KH,
        ∑ ikw ∈ Finset.range g.KW, g.pixel image ⟨n, w.1, w.2, iic, ikh, ikw⟩ *
          grad (g.dstIndex ⟨n, w.1, w.2, iic, ikh, ikw⟩) := by rw [Finset.sum_product]
    _ = ∑ iic ∈ Finset.range g.IC, ∑ ikh ∈ Finset.range g.KH, ∑ ikw ∈ Finset.range g.KW,
        ∑ w ∈ Finset.range g.OH ×ˢ Finset.range g.OW, g.pixel image ⟨n, w.1, w.2, iic, ikh, ikw⟩ *
          grad (g.dstIndex ⟨n, w.1, w.2, iic, ikh, ikw⟩) := by
        rw [Finset.sum_comm]
        refine Finset.sum_congr rfl (fun iic _ => ?_)
        rw [Finset.sum_comm]
        refine Finset.sum_congr rfl (fun ikh _ => ?_)
        rw [Finset.sum_comm]
    _ = ∑ iic ∈ Finset.range g.IC, ∑ ikh ∈ Finset.range g.KH, ∑ ikw ∈ Finset.range g.KW,
        ∑ p ∈ Finset.range g.IH ×ˢ Finset.range g.IW, image (((n * g.IC + iic) * g.IH + p.1) * g.IW + p.2) *
          (windowOf g true p.1 p.2 ikh ikw).elim 0 (fun w => grad (g.dstIndex ⟨n, w.1, w.2, iic, ikh, ikw⟩)) := by
        simp only [sum_windows hs0 hs1]
    _ = ∑ iic ∈ Finset.range g.IC, ∑ p ∈ Finset.range g.IH ×ˢ Finset.range g.IW, ∑ ikh ∈ Finset.range g.KH,
        ∑ ikw ∈ Finset.range g.KW, image (((n * g.IC + iic) * g.IH + p.1) * g.IW + p.2) *
          (windowOf g true p.1 p.2 ikh ikw).elim 0 (fun w => grad (g.dstIndex ⟨n, w.1, w.2, iic, ikh, ikw⟩)) := by
        refine Finset.sum_congr rfl (fun iic _ => ?_)
        exact (Finset.sum_congr rfl (fun ikh _ => Finset.sum_comm)).trans Finset.sum_comm
    _ = ∑ iic ∈ Finset.range g.IC, ∑ iih ∈ Finset.range g.IH, ∑ iiw ∈ Finset.range g.IW,
        image (((n * g.IC + iic) * g.IH + iih) * g.IW + iiw) * ∑ ikh ∈ Finset.range g.KH, ∑ ikw ∈ Finset.range g.KW,
          (windowOf g true iih iiw ikh ikw).elim 0 (fun w => grad (g.dstIndex ⟨n, w.1, w.2, iic, ikh, ikw⟩)) := by
        refine Finset.sum_congr rfl (fun iic _ => ?_)
        rw [Finset.sum_product]
        simp only [Finset.mul_sum]

end Adjoint

section Runs

variable {g} [CommSemiring V]

theorem threads_im2colBack (is2D : Bool) (grad : ℕ → V) {nth : ℕ} (hnth : 0 < nth) :
    (threads nth (im2colBack g is2D grad nth)).Perm
      ((List.range g.pixels).map (fun e => backStore g is2D grad (cellAt g e))) := by
  unfold im2colBack
  have hshare : (threads nth (fun ith => (List.range g.N).flatMap (fun n => (turns ith nth g.IC).flatMap (fun iic =>
        (List.range g.IH).flatMap (fun iih => (List.range g.IW).map (fun iiw =>
          backStore g is2D grad ⟨n, iic, iih, iiw⟩)))))).Perm
      ((List.range g.N).flatMap (fun n => (List.range g.IC).flatMap (fun iic => (List.range g.IH).flatMap (fun iih =>
        (List.range g.IW).map (fun iiw => backStore g is2D grad ⟨n, iic, iih, iiw⟩))))) := by
    refine (threads_flatMap_comm nth _ _).trans (.flatMap_left _ (fun n _ => ?_))
    exact threads_turns_flatMap hnth _ _
  refine hshare.trans (.of_eq ?_)
  rw [flatMap_range_mul, flatMap_range_mul, map_range_mul]
  rfl

/-- With exact offsets every pixel gets its sum, in every order. -/
theorem perform_im2colBack (hofs : 0 < g.N → g.OffsetsExact) (is2D : Bool) (grad : ℕ → V) {nth : ℕ} (hnth : 0 < nth)
    {order : List (Option (ℕ × V))} (horder : order.Perm (threads nth (im2colBack g is2D grad nth))) (data : ℕ → V) :
    ∃ data', perform order data = some data' ∧ ∀ e < g.pixels, data' e = gradAt g is2D grad (cellAt g e) := by
  have hstores : (List.range g.pixels).map (fun e => backStore g is2D grad (cellAt g e)) =
      (List.range g.pixels).map (fun e => some (id e, gradAt g is2D grad (cellAt g e))) := by
    refine List.map_congr_left (fun e he => ?_)
    have hlt := List.mem_range.1 he
    have h1 := div_lt hlt
    have h2 := div_lt h1
    have haddress : g.address (cellAt g e).n (cellAt g e).iic (cellAt g e).iih (cellAt g e).iiw = 4 * (e : ℤ) := by
      have hindex : ((cellIndex g (cellAt g e) : ℕ) : ℤ) = e := by rw [cellIndex_cellAt]
      have hn : (cellAt g e).n < g.N := div_lt h2
      have hiic : (cellAt g e).iic < g.IC := mod_lt h2
      rw [address_eq (hofs (Nat.zero_lt_of_lt hn)) hn hiic, ← hindex, cellIndex]
      push_cast
      ring
    have hcell : cellOf g.pixels (4 * (e : ℤ)) = some e := by
      have hquotient : (4 * e : ℤ) / 4 = e := by omega
      unfold cellOf
      rw [if_pos ⟨by omega, ⟨e, rfl⟩, by omega⟩, hquotient, Int.toNat_natCast]
    rw [backStore, haddress, hcell, Option.map_some, id]
  have hnodup : ((List.range g.pixels).map id).Nodup := by
    rw [List.map_id]
    exact List.nodup_range
  obtain ⟨data', hrun, hcells⟩ :=
    perform_keyed hnodup ((horder.trans (threads_im2colBack is2D grad hnth)).trans (.of_eq hstores)) data
  exact ⟨data', hrun, fun e he => hcells e (List.mem_range.2 he)⟩

theorem perform_im2colBack_frame {is2D : Bool} {grad data data' : ℕ → V} {nth : ℕ} (hnth : 0 < nth)
    {order : List (Option (ℕ × V))} (horder : order.Perm (threads nth (im2colBack g is2D grad nth)))
    (hrun : perform order data = some data') {e : ℕ} (hfree : ∀ e' < g.pixels, cellOf g.pixels
      (g.address (cellAt g e').n (cellAt g e').iic (cellAt g e').iih (cellAt g e').iiw) ≠ some e) : data' e = data e := by
  refine perform_frame hrun (fun s hs p hp heq => ?_)
  obtain ⟨e', he', rfl⟩ := List.mem_map.1 ((horder.trans (threads_im2colBack is2D grad hnth)).mem_iff.1 hs)
  obtain ⟨k, hk, rfl⟩ := Option.map_eq_some_iff.1 hp
  exact hfree e' (List.mem_range.1 he') (heq ▸ hk)

theorem perform_im2colBack_fault {is2D : Bool} {grad data : ℕ → V} {nth : ℕ} (hnth : 0 < nth)
    {order : List (Option (ℕ × V))} (horder : order.Perm (threads nth (im2colBack g is2D grad nth))) {e : ℕ}
    (he : e < g.pixels) (hfault : cellOf g.pixels
      (g.address (cellAt g e).n (cellAt g e).iic (cellAt g e).iih (cellAt g e).iiw) = none) : perform order data = none := by
  refine perform_none ((horder.trans (threads_im2colBack is2D grad hnth)).mem_iff.2 ?_) data
  refine List.mem_map.2 ⟨e, List.mem_range.2 he, ?_⟩
  rw [backStore, hfault, Option.map_none]

end Runs

end PyannoteCpp.Im2colBack
