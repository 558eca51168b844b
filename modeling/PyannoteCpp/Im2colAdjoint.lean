import PyannoteCpp.Im2colBack

set_option autoImplicit false

/-!
# Forward and backward passes are adjoint

Both kernels keep the byte strides of the image in an `int`. An offset that was
changed is negative or falls into an earlier plane, so the backward pass leaves
some pixel without its sum.
-/
namespace PyannoteCpp.Im2colAdjoint
open MachineInt TensorGraph Im2col Geometry Im2colBack SharedStores RowMajor

section Claim

variable (V : Type*) [CommSemiring V] (g : Geometry)

/-- For any data and any orders of the threads' stores, the two inner products agree. -/
def Adjoint (nth nth' : ℕ) : Prop :=
  ∀ (image grad wdata data : ℕ → V) (order order' : List (Option (ℕ × V))),
    order.Perm (threads nth (g.im2col image nth)) → order'.Perm (threads nth' (im2colBack g true grad nth')) →
    ∃ cols back, perform order wdata = some cols ∧ perform order' data = some back ∧
      ∑ e ∈ Finset.range g.total, cols e * grad e = ∑ e ∈ Finset.range g.pixels, image e * back e

end Claim

section Clash

variable {g : Geometry}

def addressAt (g : Geometry) (e : ℕ) : ℤ :=
  g.address (cellAt g e).n (cellAt g e).iic (cellAt g e).iih (cellAt g e).iiw

theorem cellAt_cellIndex {c : Cell} (hiic : c.iic < g.IC) (hiih : c.iih < g.IH) (hiiw : c.iiw < g.IW) :
    cellAt g (cellIndex g c) = c := by
  simp only [cellAt, cellIndex, row_div hiiw, row_mod hiiw, row_div hiih, row_mod hiih, row_div hiic, row_mod hiic]

theorem addressAt_first {r : ℕ} (hr : r < g.IC * g.IH * g.IW)
    (hplane : r < g.IH * g.IW ∨ g.IC ≤ 1 ∨ g.ofs1 = 4 * (g.IH * g.IW : ℕ)) : addressAt g r = 4 * r := by
  have h1 := div_lt hr
  have h2 := div_lt h1
  have hn : (cellAt g r).n = 0 := Nat.div_eq_of_lt h2
  have hiic : (cellAt g r).iic * g.ofs1 = (cellAt g r).iic * (4 * (g.IH * g.IW : ℕ)) := by
    rcases hplane with hsmall | hIC | hofs1
    · have hzero : (cellAt g r).iic = 0 := by
        change r / g.IW / g.IH % g.IC = 0
        rw [Nat.div_div_eq_div_mul, Nat.div_eq_of_lt (Nat.mul_comm g.IH g.IW ▸ hsmall), Nat.zero_mod]
      rw [hzero, Nat.cast_zero, zero_mul, zero_mul]
    · have hzero : (cellAt g r).iic = 0 := by
        have hlt : (cellAt g r).iic < g.IC := mod_lt (m := 1) (by rw [Nat.one_mul]; exact h2)
        omega
      rw [hzero, Nat.cast_zero, zero_mul, zero_mul]
    · rw [hofs1]
  have hindex : (cellIndex g (cellAt g r) : ℤ) = r := by rw [cellIndex_cellAt]
  unfold addressAt
  rw [address, hn, hiic, ← hindex, cellIndex, hn]
  push_cast
  ring

theorem toInt_wrapped {n : ℕ} (hn : ¬4 * n < 2 ^ 31) :
    toInt (4 * n) < 0 ∨ ∃ r : ℕ, r < n ∧ toInt (4 * n) = 4 * r := by
  have hrange := toInt_inRange (4 * n)
  obtain ⟨q, hq⟩ := toInt_dvd (4 * n)
  unfold MachineInt.InRange at hrange
  by_cases hneg : toInt (4 * n) < 0
  · exact .inl hneg
  · exact .inr ⟨(toInt (4 * n) / 4).toNat, by omega, by omega⟩

/-- The first pixel after a stride that does not fit is addressed outside, or like an earlier pixel. -/
theorem clash_of {e : ℕ} (he : e < g.pixels) (haddress : addressAt g e = toInt (4 * e)) (hbig : ¬4 * e < 2 ^ 31)
    (hfirst : e ≤ g.IC * g.IH * g.IW) (hplane : e ≤ g.IH * g.IW ∨ g.IC ≤ 1 ∨ g.ofs1 = 4 * (g.IH * g.IW : ℕ)) :
    (∃ e < g.pixels, addressAt g e < 0) ∨ ∃ e < g.pixels, ∃ r < g.pixels, e ≠ r ∧ addressAt g e = addressAt g r := by
  rcases toInt_wrapped hbig with hneg | ⟨r, hr, hsame⟩
  · exact .inl ⟨e, he, haddress ▸ hneg⟩
  · have hfirst : addressAt g r = 4 * r := addressAt_first (by omega) (hplane.imp_left (fun h => by omega))
    exact .inr ⟨e, he, r, hr.trans he, by omega, by rw [haddress, hsame, hfirst]⟩

theorem pos_of_big {n : ℕ} (h : ¬4 * n < 2 ^ 31) : 0 < n := by omega

theorem exists_clash (hconv : g.Converted) (hN : 0 < g.N) (hfit : ¬g.StridesFit) :
    (∃ e < g.pixels, addressAt g e < 0) ∨ ∃ e < g.pixels, ∃ r < g.pixels, e ≠ r ∧ addressAt g e = addressAt g r := by
  by_cases hchannel : g.IC ≤ 1 ∨ 4 * (g.IH * g.IW) < 2 ^ 31
  · have hbatch : ¬(g.N ≤ 1 ∨ 4 * (g.IC * g.IH * g.IW) < 2 ^ 31) := fun h => hfit ⟨h, hchannel⟩
    rw [not_or, not_le] at hbatch
    have hplane : g.IC ≤ 1 ∨ g.ofs1 = 4 * (g.IH * g.IW : ℕ) := by
      rw [hconv.2]
      exact hchannel.imp_right (toInt_stride_iff _).2
    have hpos := pos_of_big hbatch.2
    have hIW : 0 < g.IW := Nat.pos_of_mul_pos_left hpos
    have hIH : 0 < g.IH := Nat.pos_of_mul_pos_left (Nat.pos_of_mul_pos_right hpos)
    have hIC : 0 < g.IC := Nat.pos_of_mul_pos_right (Nat.pos_of_mul_pos_right hpos)
    have hcell : cellAt g (g.IC * g.IH * g.IW) = ⟨1, 0, 0, 0⟩ := by
      have hindex : g.IC * g.IH * g.IW = cellIndex g ⟨1, 0, 0, 0⟩ := by
        unfold cellIndex
        ring
      rw [hindex, cellAt_cellIndex hIC hIH hIW]
    have haddress : addressAt g (g.IC * g.IH * g.IW) = toInt (4 * (g.IC * g.IH * g.IW : ℕ)) := by
      unfold addressAt
      rw [hcell, ← hconv.1, address]
      push_cast
      ring
    refine clash_of ?_ haddress hbatch.2 le_rfl (.inr hplane)
    have hlt : cellIndex g ⟨1, 0, 0, 0⟩ < g.pixels := row_lt (row_lt (row_lt hbatch.1 hIC) hIH) hIW
    refine lt_of_eq_of_lt ?_ hlt
    unfold cellIndex
    ring
  · rw [not_or, not_le] at hchannel
    have hpos := pos_of_big hchannel.2
    have hIW : 0 < g.IW := Nat.pos_of_mul_pos_left hpos
    have hIH : 0 < g.IH := Nat.pos_of_mul_pos_right hpos
    have hcell : cellAt g (g.IH * g.IW) = ⟨0, 1, 0, 0⟩ := by
      have hindex : g.IH * g.IW = cellIndex g ⟨0, 1, 0, 0⟩ := by
        unfold cellIndex
        ring
      rw [hindex, cellAt_cellIndex hchannel.1 hIH hIW]
    have haddress : addressAt g (g.IH * g.IW) = toInt (4 * (g.IH * g.IW : ℕ)) := by
      unfold addressAt
      rw [hcell, ← hconv.2, address]
      push_cast
      ring
    refine clash_of ?_ haddress hchannel.2 ?_ (.inl le_rfl)
    · have hlt : cellIndex g ⟨0, 1, 0, 0⟩ < g.pixels := row_lt (row_lt (row_lt hN hchannel.1) hIH) hIW
      refine lt_of_eq_of_lt ?_ hlt
      unfold cellIndex
      ring
    · rw [Nat.mul_assoc]
      exact Nat.le_mul_of_pos_left _ (by omega)

/-- Two pixels that are addressed alike leave another pixel without a store. -/
theorem exists_free (hclash : ∃ e < g.pixels, ∃ r < g.pixels, e ≠ r ∧ addressAt g e = addressAt g r)
    (hinside : ∀ e < g.pixels, cellOf g.pixels (addressAt g e) ≠ none) :
    ∃ e < g.pixels, ∀ e' < g.pixels, cellOf g.pixels (addressAt g e') ≠ some e := by
  by_contra hall
  push Not at hall
  obtain ⟨e, he, r, hr, hne, hsame⟩ := hclash
  let target : ℕ → ℕ := fun e => (cellOf g.pixels (addressAt g e)).getD 0
  have hmaps : Set.MapsTo target (Finset.range g.pixels) (Finset.range g.pixels) := by
    intro e' he'
    obtain ⟨k, hk⟩ := Option.ne_none_iff_exists'.1 (hinside e' (Finset.mem_range.1 he'))
    have hlt : k < g.pixels := by
      unfold cellOf at hk
      obtain ⟨hin, hk⟩ := Option.ite_none_right_eq_some.1 hk
      obtain rfl := Option.some.inj hk
      omega
    simpa only [target, hk, Option.getD_some, Finset.coe_range, Set.mem_Iio] using hlt
  have hsurj : Set.SurjOn target (Finset.range g.pixels) (Finset.range g.pixels) := by
    intro k hk
    obtain ⟨e', he', hcell⟩ := hall k (Finset.mem_range.1 hk)
    exact ⟨e', Finset.mem_coe.2 (Finset.mem_range.2 he'), by simp only [target, hcell, Option.getD_some]⟩
  have hinj := Finset.injOn_of_surjOn_of_card_le target hmaps hsurj le_rfl
  exact hne (hinj (Finset.mem_coe.2 (Finset.mem_range.2 he)) (Finset.mem_coe.2 (Finset.mem_range.2 hr))
    (by simp only [target, hsame]))

end Clash

section Exact

variable {V : Type*} [CommSemiring V] {g : Geometry} {nth nth' : ℕ}

theorem adjoint_of_fit (hconv : g.Converted) (hs0 : 1 ≤ g.s0) (hs1 : 1 ≤ g.s1) (hnth : 0 < nth) (hnth' : 0 < nth')
    (hfit : g.N = 0 ∨ g.StridesFit) : Adjoint V g nth nth' := by
  intro image grad wdata data order order' horder horder'
  have hofs : 0 < g.N → g.OffsetsExact := fun hN => (offsetsExact_iff hconv).2 (hfit.resolve_left (by omega))
  obtain ⟨cols, hcols, htaps⟩ := perform_im2col hnth
    (fun t ht => patchValue_exact image (hofs (Nat.zero_lt_of_lt ht.n)) ht) horder wdata
  obtain ⟨back, hback, hpixels⟩ := perform_im2colBack hofs true grad hnth' horder' data
  refine ⟨cols, back, hcols, hback, ?_⟩
  calc ∑ e ∈ Finset.range g.total, cols e * grad e
      = ∑ e ∈ Finset.range g.total, g.pixel image (g.tapAt e) * grad e := by
        refine Finset.sum_congr rfl (fun e he => ?_)
        have hcell := htaps _ (tapAt_inRange (Finset.mem_range.1 he))
        rw [dstIndex_tapAt] at hcell
        rw [hcell]
    _ = ∑ e ∈ Finset.range g.pixels, image e * gradAt g true grad (cellAt g e) := sum_adjoint hs0 hs1 image grad
    _ = ∑ e ∈ Finset.range g.pixels, image e * back e := by
        refine Finset.sum_congr rfl (fun e he => ?_)
        rw [hpixels e (Finset.mem_range.1 he)]

/-- A pixel that is not stored shows what the memory held before. -/
theorem fit_of_adjoint [Nontrivial V] (hconv : g.Converted) (hnth' : 0 < nth') (h : Adjoint V g nth nth') :
    g.N = 0 ∨ g.StridesFit := by
  by_contra hbad
  rw [not_or] at hbad
  have hinside : ∀ e < g.pixels, cellOf g.pixels (addressAt g e) ≠ none := fun e he hnone => by
    obtain ⟨-, back, -, hback, -⟩ := h 0 0 0 0 _ _ (List.Perm.refl _) (List.Perm.refl _)
    rw [perform_im2colBack_fault hnth' (List.Perm.refl _) he hnone] at hback
    exact absurd hback (by simp)
  rcases exists_clash hconv (Nat.pos_of_ne_zero hbad.1) hbad.2 with ⟨e, he, hneg⟩ | hclash
  · refine hinside e he (if_neg (fun hin => ?_))
    omega
  · obtain ⟨e, he, hfree⟩ := exists_free hclash hinside
    obtain ⟨cols, back, -, hback, hsums⟩ := h (Pi.single e 1) 0 0 1 _ _ (List.Perm.refl _) (List.Perm.refl _)
    have hkeep : back e = 1 := perform_im2colBack_frame hnth' (List.Perm.refl _) hback hfree
    rw [Finset.sum_eq_zero (fun k _ => by rw [Pi.zero_apply, mul_zero]), Finset.sum_eq_single e
      (fun k _ hk => by rw [Pi.single_eq_of_ne hk, zero_mul]) (fun hout => absurd (Finset.mem_range.2 he) hout),
      Pi.single_eq_same, one_mul, hkeep] at hsums
    exact zero_ne_one hsums

variable (V) in
/-- Exactly when the backward pass is the adjoint of the forward pass, for images and patches of two dimensions. -/
theorem adjoint_iff [Nontrivial V] (a b ne : Shape) {s0 s1 : ℤ} (p0 p1 d0 d1 : ℤ) (hs0 : 1 ≤ s0) (hs1 : 1 ≤ s1)
    (hnth : 0 < nth) (hnth' : 0 < nth') : Adjoint V (geometry a b ne s0 s1 p0 p1 d0 d1 true) nth nth' ↔
      b.ne3 = 0 ∨ (geometry a b ne s0 s1 p0 p1 d0 d1 true).StridesFit := by
  have hconv := geometry_converted a b ne s0 s1 p0 p1 d0 d1 true
  constructor
  · exact fun h => fit_of_adjoint hconv hnth' h
  · intro h
    have hfit : (geometry a b ne s0 s1 p0 p1 d0 d1 true).N = 0 ∨ (geometry a b ne s0 s1 p0 p1 d0 d1 true).StridesFit := h
    exact adjoint_of_fit hconv hs0 hs1 hnth hnth' hfit

theorem adjoint_batch :
    Adjoint ℤ (geometry ⟨3, 2, 2, 1⟩ ⟨9, 8, 2, 3⟩ ⟨12, 5, 4, 3⟩ 2 2 1 0 1 3 true) 5 2 := by
  refine (adjoint_iff ℤ _ _ _ 1 0 1 3 ?_ ?_ ?_ ?_).2 (.inr ⟨.inr ?_, .inr ?_⟩)
  all_goals decide

/-- Two images of `2 ^ 31` bytes: the second is written before the first. -/
theorem adjoint_two_images :
    ¬Adjoint ℤ (geometry ⟨1, 1, 1, 1⟩ ⟨2 ^ 15, 2 ^ 14, 1, 2⟩ ⟨1, 2 ^ 15, 2 ^ 14, 2⟩ 1 1 0 0 1 1 true) 1 1 := by
  intro h
  rcases fit_of_adjoint (geometry_converted ..) (by decide) h with hN | hfit
  · exact absurd hN (by decide)
  · exact hfit.1.elim (by decide) (by decide)

end Exact

end PyannoteCpp.Im2colAdjoint
