import PyannoteCpp.ConvShape
import PyannoteCpp.RowMajor
import PyannoteCpp.SharedStores

set_option autoImplicit false

/-!
# The patches of an image

`ggml_compute_forward_im2col_f32` and `_f16`, whose conversion is exact here.
The byte strides of the image are of type `size_t` and are kept in an `int`.
A store whose load lies outside the image faults.
-/
namespace PyannoteCpp.Im2col
open MachineInt TensorGraph SharedStores RowMajor

variable {V : Type*}

def byteStrides (s : Shape) : Shape := ⟨4, 4 * s.ne0, 4 * s.ne0 * s.ne1, 4 * s.ne0 * s.ne1 * s.ne2⟩

structure Geometry where
  N : ℕ
  IC : ℕ
  IH : ℕ
  IW : ℕ
  KH : ℕ
  KW : ℕ
  OH : ℕ
  OW : ℕ
  ofs0 : ℤ
  ofs1 : ℤ
  s0 : ℤ
  s1 : ℤ
  p0 : ℤ
  p1 : ℤ
  d0 : ℤ
  d1 : ℤ

def geometry (a b ne : Shape) (s0 s1 p0 p1 d0 d1 : ℤ) (is2D : Bool) : Geometry where
  N := if is2D then b.ne3 else b.ne2
  IC := if is2D then b.ne2 else b.ne1
  IH := if is2D then b.ne1 else 1
  IW := b.ne0
  KH := if is2D then a.ne1 else 1
  KW := a.ne0
  OH := if is2D then ne.ne2 else 1
  OW := ne.ne1
  ofs0 := toInt (if is2D then (byteStrides b).ne3 else (byteStrides b).ne2)
  ofs1 := toInt (if is2D then (byteStrides b).ne2 else (byteStrides b).ne1)
  s0 := s0
  s1 := s1
  p0 := p0
  p1 := p1
  d0 := d0
  d1 := d1

/-- The float at a byte address of an image of `count` elements. -/
def load (image : ℕ → V) (count : ℕ) (address : ℤ) : Option V :=
  if 0 ≤ address ∧ 4 ∣ address ∧ address / 4 < count then some (image (address / 4).toNat) else none

namespace Geometry

variable (g : Geometry)

/-- The taps of the patches: a window position and a kernel cell. -/
structure Tap where
  n : ℕ
  ioh : ℕ
  iow : ℕ
  iic : ℕ
  ikh : ℕ
  ikw : ℕ

def iiw (t : Tap) : ℤ := t.iow * g.s0 + t.ikw * g.d0 - g.p0

def iih (t : Tap) : ℤ := t.ioh * g.s1 + t.ikh * g.d1 - g.p1

def Outside (t : Tap) : Prop := g.iih t < 0 ∨ g.IH ≤ g.iih t ∨ g.iiw t < 0 ∨ g.IW ≤ g.iiw t

instance (t : Tap) : Decidable (g.Outside t) := inferInstanceAs (Decidable (_ ∨ _))

def pixels : ℕ := g.N * g.IC * g.IH * g.IW

def address (n iic : ℕ) (iih iiw : ℤ) : ℤ := n * g.ofs0 + iic * g.ofs1 + 4 * (iih * g.IW + iiw)

def dstIndex (t : Tap) : ℕ :=
  (t.n * g.OH * g.OW + t.ioh * g.OW + t.iow) * (g.IC * g.KH * g.KW) + (t.iic * (g.KH * g.KW) + t.ikh * g.KW + t.ikw)

section Loops

variable [Zero V]

def patchValue (image : ℕ → V) (t : Tap) : Option V :=
  if g.Outside t then some 0 else load image g.pixels (g.address t.n t.iic (g.iih t) (g.iiw t))

def patchStore (image : ℕ → V) (t : Tap) : Option (ℕ × V) := (g.patchValue image t).map (fun v => (g.dstIndex t, v))

def im2col (image : ℕ → V) (nth ith : ℕ) : List (Option (ℕ × V)) :=
  (List.range g.N).flatMap (fun n => (List.range g.OH).flatMap (fun ioh => (List.range g.OW).flatMap (fun iow =>
    (turns ith nth g.IC).flatMap (fun iic => (List.range g.KH).flatMap (fun ikh =>
      (List.range g.KW).map (fun ikw => g.patchStore image ⟨n, ioh, iow, iic, ikh, ikw⟩))))))

end Loops

section Order

def total : ℕ := g.N * g.OH * g.OW * g.IC * g.KH * g.KW

structure InRange (t : Tap) : Prop where
  n : t.n < g.N
  ioh : t.ioh < g.OH
  iow : t.iow < g.OW
  iic : t.iic < g.IC
  ikh : t.ikh < g.KH
  ikw : t.ikw < g.KW

def tapAt (e : ℕ) : Tap where
  n := e / g.KW / g.KH / g.IC / g.OW / g.OH
  ioh := e / g.KW / g.KH / g.IC / g.OW % g.OH
  iow := e / g.KW / g.KH / g.IC % g.OW
  iic := e / g.KW / g.KH % g.IC
  ikh := e / g.KW % g.KH
  ikw := e % g.KW

variable {g}

theorem dstIndex_eq (t : Tap) :
    g.dstIndex t = ((((t.n * g.OH + t.ioh) * g.OW + t.iow) * g.IC + t.iic) * g.KH + t.ikh) * g.KW + t.ikw := by
  unfold dstIndex
  ring

theorem tapAt_inRange {e : ℕ} (he : e < g.total) : g.InRange (g.tapAt e) := by
  have h1 := div_lt he
  have h2 := div_lt h1
  have h3 := div_lt h2
  have h4 := div_lt h3
  exact ⟨div_lt h4, mod_lt h4, mod_lt h3, mod_lt h2, mod_lt h1, mod_lt he⟩

theorem dstIndex_tapAt (e : ℕ) : g.dstIndex (g.tapAt e) = e := by
  rw [dstIndex_eq]
  simp only [tapAt, Nat.div_add_mod']

theorem tapAt_dstIndex {t : Tap} (h : g.InRange t) : g.tapAt (g.dstIndex t) = t := by
  rw [dstIndex_eq]
  simp only [tapAt, row_div h.ikw, row_mod h.ikw, row_div h.ikh, row_mod h.ikh, row_div h.iic, row_mod h.iic,
    row_div h.iow, row_mod h.iow, row_div h.ioh, row_mod h.ioh]

theorem dstIndex_lt {t : Tap} (h : g.InRange t) : g.dstIndex t < g.total := by
  rw [dstIndex_eq]
  exact row_lt (row_lt (row_lt (row_lt (row_lt h.n h.ioh) h.iow) h.iic) h.ikh) h.ikw

/-- A sum over the elements of the patches is a sum over the taps. -/
theorem sum_tapAt {M : Type*} [AddCommMonoid M] (f : Tap → M) : ∑ e ∈ Finset.range g.total, f (g.tapAt e) =
    ∑ n ∈ Finset.range g.N, ∑ ioh ∈ Finset.range g.OH, ∑ iow ∈ Finset.range g.OW, ∑ iic ∈ Finset.range g.IC,
      ∑ ikh ∈ Finset.range g.KH, ∑ ikw ∈ Finset.range g.KW, f ⟨n, ioh, iow, iic, ikh, ikw⟩ := by
  rw [← sum_range_mul, ← sum_range_mul, ← sum_range_mul, ← sum_range_mul, ← sum_range_mul]
  rfl

variable [Zero V]

theorem threads_im2col (image : ℕ → V) {nth : ℕ} (hnth : 0 < nth) :
    (threads nth (g.im2col image nth)).Perm ((List.range g.total).map (fun e => g.patchStore image (g.tapAt e))) := by
  unfold im2col
  have hshare : (threads nth (fun ith => (List.range g.N).flatMap (fun n => (List.range g.OH).flatMap (fun ioh =>
        (List.range g.OW).flatMap (fun iow => (turns ith nth g.IC).flatMap (fun iic => (List.range g.KH).flatMap (fun ikh =>
          (List.range g.KW).map (fun ikw => g.patchStore image ⟨n, ioh, iow, iic, ikh, ikw⟩)))))))).Perm
      ((List.range g.N).flatMap (fun n => (List.range g.OH).flatMap (fun ioh => (List.range g.OW).flatMap (fun iow =>
        (List.range g.IC).flatMap (fun iic => (List.range g.KH).flatMap (fun ikh =>
          (List.range g.KW).map (fun ikw => g.patchStore image ⟨n, ioh, iow, iic, ikh, ikw⟩))))))) := by
    refine (threads_flatMap_comm nth _ _).trans (.flatMap_left _ (fun n _ => ?_))
    refine (threads_flatMap_comm nth _ _).trans (.flatMap_left _ (fun ioh _ => ?_))
    refine (threads_flatMap_comm nth _ _).trans (.flatMap_left _ (fun iow _ => ?_))
    exact threads_turns_flatMap hnth _ _
  refine hshare.trans (.of_eq ?_)
  rw [flatMap_range_mul, flatMap_range_mul, flatMap_range_mul, flatMap_range_mul, map_range_mul]
  rfl

theorem stored_once (image : ℕ → V) {nth : ℕ} (hnth : 0 < nth) (hload : ∀ t, g.InRange t → g.patchValue image t ≠ none)
    {e : ℕ} (he : e < g.total) : (threads nth (g.im2col image nth)).countP (fun s => s.map Prod.fst = some e) = 1 := by
  rw [(threads_im2col image hnth).countP_eq, List.countP_map]
  have hplaces : ∀ i ∈ List.range g.total, ((fun s : Option (ℕ × V) => decide (s.map Prod.fst = some e)) ∘
      fun i => g.patchStore image (g.tapAt i)) i = (i == e) := fun i hi => by
    obtain ⟨v, hv⟩ := Option.ne_none_iff_exists'.1 (hload _ (tapAt_inRange (List.mem_range.1 hi)))
    rw [Function.comp_apply, patchStore, hv, Option.map_some, Option.map_some, dstIndex_tapAt]
    exact Bool.eq_iff_iff.2 (by simp)
  rw [List.countP_congr (fun i hi => by rw [hplaces i hi])]
  exact List.count_eq_one_of_mem List.nodup_range (List.mem_range.2 he)

/-- In every order the stores of the threads leave the values of the taps. -/
theorem perform_im2col {image : ℕ → V} {nth : ℕ} (hnth : 0 < nth) {value : Tap → V}
    (hvalue : ∀ t, g.InRange t → g.patchValue image t = some (value t)) {order : List (Option (ℕ × V))}
    (horder : order.Perm (threads nth (g.im2col image nth))) (wdata : ℕ → V) :
    ∃ wdata', perform order wdata = some wdata' ∧ ∀ t, g.InRange t → wdata' (g.dstIndex t) = value t := by
  have hstores : (List.range g.total).map (fun e => g.patchStore image (g.tapAt e)) =
      (List.range g.total).map (fun e => some (id e, value (g.tapAt e))) := by
    refine List.map_congr_left (fun e he => ?_)
    rw [patchStore, hvalue _ (tapAt_inRange (List.mem_range.1 he)), Option.map_some, dstIndex_tapAt, id]
  have hnodup : ((List.range g.total).map id).Nodup := by
    rw [List.map_id]
    exact List.nodup_range
  obtain ⟨wdata', hrun, hcells⟩ :=
    perform_keyed hnodup ((horder.trans (threads_im2col image hnth)).trans (.of_eq hstores)) wdata
  refine ⟨wdata', hrun, fun t ht => ?_⟩
  have hcell := hcells (g.dstIndex t) (List.mem_range.2 (dstIndex_lt ht))
  rwa [tapAt_dstIndex ht] at hcell

theorem perform_im2col_fault {image : ℕ → V} {nth : ℕ} (hnth : 0 < nth) {t : Tap} (ht : g.InRange t)
    (hfault : g.patchValue image t = none) {order : List (Option (ℕ × V))}
    (horder : order.Perm (threads nth (g.im2col image nth))) (wdata : ℕ → V) : perform order wdata = none := by
  refine perform_none ((horder.trans (threads_im2col image hnth)).mem_iff.2 ?_) wdata
  refine List.mem_map.2 ⟨g.dstIndex t, List.mem_range.2 (dstIndex_lt ht), ?_⟩
  rw [tapAt_dstIndex ht, patchStore, hfault, Option.map_none]

end Order

section Reads

def pixelIndex (t : Tap) : ℕ := ((t.n * g.IC + t.iic) * g.IH + (g.iih t).toNat) * g.IW + (g.iiw t).toNat

def pixel [Zero V] (image : ℕ → V) (t : Tap) : V := if g.Outside t then 0 else image (g.pixelIndex t)

def TapInside : Prop := ∃ t, g.InRange t ∧ ¬g.Outside t

def LoadsInside : Prop := ∀ t, g.InRange t → ¬g.Outside t →
  0 ≤ g.address t.n t.iic (g.iih t) (g.iiw t) ∧ 4 ∣ g.address t.n t.iic (g.iih t) (g.iiw t) ∧
    g.address t.n t.iic (g.iih t) (g.iiw t) / 4 < g.pixels

/-- The offsets are the byte strides where they are used. -/
def OffsetsExact : Prop :=
  (g.N ≤ 1 ∨ g.ofs0 = 4 * (g.IC * g.IH * g.IW : ℕ)) ∧ (g.IC ≤ 1 ∨ g.ofs1 = 4 * (g.IH * g.IW : ℕ))

/-- The offsets are the byte strides after their conversion to `int`. -/
def Converted : Prop := g.ofs0 = toInt (4 * (g.IC * g.IH * g.IW : ℕ)) ∧ g.ofs1 = toInt (4 * (g.IH * g.IW : ℕ))

/-- The byte strides that are used fit in an `int`. -/
def StridesFit : Prop := (g.N ≤ 1 ∨ 4 * (g.IC * g.IH * g.IW) < 2 ^ 31) ∧ (g.IC ≤ 1 ∨ 4 * (g.IH * g.IW) < 2 ^ 31)

variable {g} {t : Tap}

theorem toInt_stride_iff (n : ℕ) : toInt (4 * n) = 4 * n ↔ 4 * n < 2 ^ 31 := by
  rw [toInt_eq_iff]
  unfold MachineInt.InRange
  omega

theorem offsetsExact_iff (h : g.Converted) : g.OffsetsExact ↔ g.StridesFit := by
  unfold OffsetsExact StridesFit
  rw [h.1, h.2, toInt_stride_iff, toInt_stride_iff]

theorem pixelIndex_lt (h : g.InRange t) (hin : ¬g.Outside t) : g.pixelIndex t < g.pixels := by
  unfold Outside at hin
  exact row_lt (row_lt (row_lt h.n h.iic) (by omega)) (by omega)

theorem pixelIndex_cast (hin : ¬g.Outside t) : (g.pixelIndex t : ℤ) =
    t.n * (g.IC * g.IH * g.IW : ℕ) + t.iic * (g.IH * g.IW : ℕ) + (g.iih t * g.IW + g.iiw t) := by
  unfold Outside at hin
  have hheight : ((g.iih t).toNat : ℤ) = g.iih t := Int.toNat_of_nonneg (by omega)
  have hwidth : ((g.iiw t).toNat : ℤ) = g.iiw t := Int.toNat_of_nonneg (by omega)
  unfold pixelIndex
  push_cast
  rw [hheight, hwidth]
  ring

theorem address_eq (hofs : g.OffsetsExact) {n iic : ℕ} (hn : n < g.N) (hiic : iic < g.IC) (iih iiw : ℤ) :
    g.address n iic iih iiw = 4 * (n * (g.IC * g.IH * g.IW : ℕ) + iic * (g.IH * g.IW : ℕ) + (iih * g.IW + iiw)) := by
  have hbatch : n * g.ofs0 = n * (4 * (g.IC * g.IH * g.IW : ℕ)) := by
    rcases hofs.1 with hN | hofs0
    · have hzero : n = 0 := by omega
      rw [hzero, Nat.cast_zero, zero_mul, zero_mul]
    · rw [hofs0]
  have hchannel : iic * g.ofs1 = iic * (4 * (g.IH * g.IW : ℕ)) := by
    rcases hofs.2 with hIC | hofs1
    · have hzero : iic = 0 := by omega
      rw [hzero, Nat.cast_zero, zero_mul, zero_mul]
    · rw [hofs1]
  rw [address, hbatch, hchannel]
  ring

theorem address_exact (hofs : g.OffsetsExact) (h : g.InRange t) (hin : ¬g.Outside t) :
    g.address t.n t.iic (g.iih t) (g.iiw t) = 4 * g.pixelIndex t := by
  rw [address_eq hofs h.n h.iic, pixelIndex_cast hin]

/-- An offset that was changed sends some tap to another address. -/
theorem exists_address_ne (htap : g.TapInside) (hofs : ¬g.OffsetsExact) :
    ∃ t, g.InRange t ∧ ¬g.Outside t ∧ g.address t.n t.iic (g.iih t) (g.iiw t) ≠ 4 * g.pixelIndex t := by
  obtain ⟨t, ht, hin⟩ := htap
  rcases not_and_or.1 hofs with hN | hIC
  · rw [not_or, not_le] at hN
    let u : Tap := ⟨1, t.ioh, t.iow, 0, t.ikh, t.ikw⟩
    have hu : ¬g.Outside u := hin
    refine ⟨u, ⟨hN.1, ht.ioh, ht.iow, Nat.zero_lt_of_lt ht.iic, ht.ikh, ht.ikw⟩, hu, fun h => hN.2 ?_⟩
    rw [pixelIndex_cast hu, address] at h
    simp only [u] at h
    push_cast at h ⊢
    linarith
  · rw [not_or, not_le] at hIC
    let u : Tap := ⟨0, t.ioh, t.iow, 1, t.ikh, t.ikw⟩
    have hu : ¬g.Outside u := hin
    refine ⟨u, ⟨Nat.zero_lt_of_lt ht.n, ht.ioh, ht.iow, hIC.1, ht.ikh, ht.ikw⟩, hu, fun h => hIC.2 ?_⟩
    rw [pixelIndex_cast hu, address] at h
    simp only [u] at h
    push_cast at h ⊢
    linarith

theorem load_exact (image : ℕ → V) {count e : ℕ} (he : e < count) : load image count (4 * e) = some (image e) := by
  have hquotient : (4 * e : ℤ) / 4 = e := by omega
  unfold load
  rw [if_pos ⟨by omega, ⟨e, rfl⟩, by omega⟩, hquotient, Int.toNat_natCast]

/-- Another address does not give the one pixel that is not zero. -/
theorem load_single [Zero V] [One V] {count e : ℕ} {address : ℤ} (h : address ≠ 4 * e) :
    load (Pi.single e (1 : V)) count address = none ∨ load (Pi.single e (1 : V)) count address = some 0 := by
  unfold load
  split_ifs with hin
  · obtain ⟨hpos, ⟨k, hk⟩, -⟩ := hin
    refine .inr (congrArg some (Pi.single_eq_of_ne ?_ _))
    omega
  · exact .inl rfl

theorem patchValue_exact [Zero V] (image : ℕ → V) (hofs : g.OffsetsExact) (h : g.InRange t) :
    g.patchValue image t = some (g.pixel image t) := by
  unfold patchValue pixel
  split_ifs with hout
  · rfl
  · rw [address_exact hofs h hout, load_exact image (pixelIndex_lt h hout)]

theorem patchValue_padding [Zero V] (image : ℕ → V) (htap : ¬g.TapInside) (h : g.InRange t) :
    g.patchValue image t = some (g.pixel image t) := by
  have hout : g.Outside t := not_not.1 (fun hin => htap ⟨t, h, hin⟩)
  unfold patchValue pixel
  rw [if_pos hout, if_pos hout]

/-- No load faults exactly when every load lies in the image. -/
theorem patchValue_ne_none_iff [Zero V] (image : ℕ → V) :
    (∀ t, g.InRange t → g.patchValue image t ≠ none) ↔ g.LoadsInside := by
  refine forall₂_congr (fun t _ => ?_)
  unfold patchValue load
  split_ifs with hout hload
  · exact iff_of_true (by simp) (fun hin => absurd hout hin)
  · exact iff_of_true (by simp) (fun _ => hload)
  · exact iff_of_false (by simp) (fun h => hload (h hout))

end Reads

end Geometry

section Shapes

variable (a b ne : Shape) (s0 s1 p0 p1 d0 d1 : ℤ) (is2D : Bool)

theorem geometry_converted : (geometry a b ne s0 s1 p0 p1 d0 d1 is2D).Converted := by
  have hplanes : ((4 * b.ne0 * b.ne1 * b.ne2 : ℕ) : ℤ) = 4 * (b.ne2 * b.ne1 * b.ne0 : ℕ) := by
    push_cast
    ring
  have hplane : ((4 * b.ne0 * b.ne1 : ℕ) : ℤ) = 4 * (b.ne1 * b.ne0 : ℕ) := by
    push_cast
    ring
  have hrows : ((4 * b.ne0 * b.ne1 : ℕ) : ℤ) = 4 * (b.ne1 * 1 * b.ne0 : ℕ) := by
    rw [hplane, Nat.mul_one]
  have hrow : ((4 * b.ne0 : ℕ) : ℤ) = 4 * (1 * b.ne0 : ℕ) := by
    rw [Nat.one_mul]
    push_cast
    ring
  cases is2D with
  | true =>
    unfold Geometry.Converted geometry byteStrides
    simp only [if_true, hplanes, hplane, and_self]
  | false =>
    unfold Geometry.Converted geometry byteStrides
    simp only [Bool.false_eq_true, if_false, hrows, hrow, and_self]

end Shapes

end PyannoteCpp.Im2col
