import PyannoteCpp.GgmlTensor

set_option autoImplicit false

/-!
# Views of a tensor

A view of a view is one of the tensor that the first view is of. The size that is
checked is that of a tensor without gaps, before the caller's strides are stored.
-/
namespace PyannoteCpp.TensorViews

/-- A number of type `int64_t` that becomes a `size_t`. -/
def wrapInt (z : ℤ) : ℕ := (z % 2 ^ 64).toNat

structure Storage where
  type : GgmlType
  ne : Fin 4 → ℤ
  nb : Fin 4 → ℕ

/-- `view` is the source of a view, which is no view itself, and the offset in it. -/
structure Tensor extends Storage where
  view : Option (Storage × ℕ)

inductive Abort where
  | assertion
  deriving DecidableEq

/-- Dimensions that are not positive have no elements. -/
def dims (ne : Fin 4 → ℤ) : Dims := ⟨(ne 0).toNat, (ne 1).toNat, (ne 2).toNat, (ne 3).toNat⟩

def strides (nb : Fin 4 → ℕ) : Strides := ⟨nb 0, nb 1, nb 2, nb 3⟩

def Storage.nbytes (t : Storage) : ℕ := ggmlNbytes t.type (dims t.ne) (strides t.nb)

def ggmlRowSize (type : GgmlType) (ne : ℤ) : ℕ := wrapInt (type.typeSize * ne) / type.blckSize

def dataSize (type : GgmlType) (nDims : ℕ) (ne : Fin 4 → ℤ) : ℕ :=
  ((List.finRange 4).filter fun i => 1 ≤ i.val ∧ i.val < nDims).foldl (fun size i => wrapInt (size * ne i))
    (ggmlRowSize type (ne 0))

/-- The base tensor and the offset in it. -/
def viewBase (viewSrc : Tensor) (viewOffs : ℕ) : Storage × ℕ :=
  match viewSrc.view with
  | none => (viewSrc.toStorage, viewOffs)
  | some (base, offs) => (base, wrap64 (viewOffs + offs))

/-- The assertion for a tensor with a view source. -/
def ViewAsserted (type : GgmlType) (nDims : ℕ) (ne : Fin 4 → ℤ) (base : Storage × ℕ) : Prop :=
  dataSize type nDims ne = 0 ∨ wrap64 (dataSize type nDims ne + base.2) ≤ base.1.nbytes

instance (type : GgmlType) (nDims : ℕ) (ne : Fin 4 → ℤ) (base : Storage × ℕ) :
    Decidable (ViewAsserted type nDims ne base) := inferInstanceAs (Decidable (_ ∨ _))

def newStrides (type : GgmlType) (ne : Fin 4 → ℤ) : Fin 4 → ℕ :=
  let nb1 := wrapInt (type.typeSize * (ne 0).tdiv type.blckSize)
  let nb2 := wrapInt (nb1 * ne 1)
  ![type.typeSize, nb1, nb2, wrapInt (nb2 * ne 2)]

def ggmlNewTensorImpl (type : GgmlType) (nDims : ℕ) (ne : Fin 4 → ℤ) (viewSrc : Tensor) (viewOffs : ℕ) :
    Except Abort Tensor :=
  let base := viewBase viewSrc viewOffs
  if ViewAsserted type nDims ne base then
    let sizes : Fin 4 → ℤ := fun i => if i.val < nDims then ne i else 1
    .ok ⟨⟨type, sizes, newStrides type sizes⟩, some base⟩
  else .error .assertion

section Views

variable (a : Tensor) (ne0 ne1 ne2 ne3 : ℤ) (nb1 nb2 nb3 offset : ℕ)

def ggmlViewImpl (nDims : ℕ) (ne : Fin 4 → ℤ) : Except Abort Tensor := ggmlNewTensorImpl a.type nDims ne a offset

def ggmlView1d : Except Abort Tensor := ggmlViewImpl a offset 1 ![ne0, 1, 1, 1]

def ggmlView2d : Except Abort Tensor := do
  let result ← ggmlViewImpl a offset 2 ![ne0, ne1, 1, 1]
  let nb2 := wrapInt (nb1 * ne1)
  pure { result with nb := ![result.nb 0, nb1, nb2, nb2] }

def ggmlView3d : Except Abort Tensor := do
  let result ← ggmlViewImpl a offset 3 ![ne0, ne1, ne2, 1]
  pure { result with nb := ![result.nb 0, nb1, nb2, wrapInt (nb2 * ne2)] }

def ggmlView4d : Except Abort Tensor := do
  let result ← ggmlViewImpl a offset 4 ![ne0, ne1, ne2, ne3]
  pure { result with nb := ![result.nb 0, nb1, nb2, nb3] }

end Views

inductive ViewCall where
  | one (ne0 : ℤ)
  | two (ne0 ne1 : ℤ) (nb1 : ℕ)
  | three (ne0 ne1 ne2 : ℤ) (nb1 nb2 : ℕ)
  | four (ne0 ne1 ne2 ne3 : ℤ) (nb1 nb2 nb3 : ℕ)

namespace ViewCall

def apply (a : Tensor) (offset : ℕ) : ViewCall → Except Abort Tensor
  | one ne0 => ggmlView1d a ne0 offset
  | two ne0 ne1 nb1 => ggmlView2d a ne0 ne1 nb1 offset
  | three ne0 ne1 ne2 nb1 nb2 => ggmlView3d a ne0 ne1 ne2 nb1 nb2 offset
  | four ne0 ne1 ne2 ne3 nb1 nb2 nb3 => ggmlView4d a ne0 ne1 ne2 ne3 nb1 nb2 nb3 offset

def nDims : ViewCall → ℕ
  | one _ => 1
  | two _ _ _ => 2
  | three _ _ _ _ _ => 3
  | four _ _ _ _ _ _ _ => 4

def ne : ViewCall → Fin 4 → ℤ
  | one ne0 => ![ne0, 1, 1, 1]
  | two ne0 ne1 _ => ![ne0, ne1, 1, 1]
  | three ne0 ne1 ne2 _ _ => ![ne0, ne1, ne2, 1]
  | four ne0 ne1 ne2 ne3 _ _ _ => ![ne0, ne1, ne2, ne3]

def nb : ViewCall → Fin 4 → ℕ
  | one _ => ![0, 0, 0, 0]
  | two _ _ nb1 => ![0, nb1, 0, 0]
  | three _ _ _ nb1 nb2 => ![0, nb1, nb2, 0]
  | four _ _ _ _ nb1 nb2 nb3 => ![0, nb1, nb2, nb3]

end ViewCall

def exactNbytes (type : GgmlType) (ne : Dims) (nb : Strides) : ℕ :=
  if ne.n0 = 0 ∨ ne.n1 = 0 ∨ ne.n2 = 0 ∨ ne.n3 = 0 then 0
  else if type.blckSize = 1 then
    type.typeSize + (ne.n0 - 1) * nb.b0 + (ne.n1 - 1) * nb.b1 + (ne.n2 - 1) * nb.b2 + (ne.n3 - 1) * nb.b3
  else ne.n0 * nb.b0 / type.blckSize + (ne.n1 - 1) * nb.b1 + (ne.n2 - 1) * nb.b2 + (ne.n3 - 1) * nb.b3

/-- A view addresses only bytes of its source. -/
def InSource (v : Tensor) : Prop :=
  ∀ base ∈ v.view, base.2 + exactNbytes v.type (dims v.ne) (strides v.nb) ≤ base.1.nbytes

section Extent

variable {type : GgmlType} {ne : Fin 4 → ℤ} {nb : Fin 4 → ℕ}

def rowBytes (type : GgmlType) (n0 : ℤ) : ℕ := type.typeSize * n0.toNat / type.blckSize

/-- What the strides add to a tensor without gaps, in unbounded numbers. -/
def excess (type : GgmlType) (ne : Fin 4 → ℤ) (nb : Fin 4 → ℕ) : ℤ :=
  (ne 1 - 1) * (nb 1 - rowBytes type (ne 0)) + (ne 2 - 1) * (nb 2 - rowBytes type (ne 0) * ne 1) +
    (ne 3 - 1) * (nb 3 - rowBytes type (ne 0) * ne 1 * ne 2)

/-- What the source has left behind a tensor without gaps at the offset. -/
def room (type : GgmlType) (ne : Fin 4 → ℤ) (base : Storage × ℕ) : ℤ :=
  base.1.nbytes - base.2 - rowBytes type (ne 0) * ne 1 * ne 2 * ne 3

/-- The offset of a view without elements is in the source; else the strides add no more than the room there is. -/
def StridesFit (type : GgmlType) (ne : Fin 4 → ℤ) (nb : Fin 4 → ℕ) (base : Storage × ℕ) : Prop :=
  if ∃ i, ne i ≤ 0 then base.2 ≤ base.1.nbytes else excess type ne nb ≤ room type ne base

theorem empty_iff : ((dims ne).n0 = 0 ∨ (dims ne).n1 = 0 ∨ (dims ne).n2 = 0 ∨ (dims ne).n3 = 0) ↔ ∃ i, ne i ≤ 0 := by
  unfold dims
  simp only [Int.toNat_eq_zero]
  constructor
  · rintro (h | h | h | h)
    exacts [⟨0, h⟩, ⟨1, h⟩, ⟨2, h⟩, ⟨3, h⟩]
  · rintro ⟨i, hi⟩
    fin_cases i
    exacts [.inl hi, .inr (.inl hi), .inr (.inr (.inl hi)), .inr (.inr (.inr hi))]

theorem exactNbytes_eq (hsome : ¬∃ i, ne i ≤ 0) (hb : nb 0 = type.typeSize) :
    (exactNbytes type (dims ne) (strides nb) : ℤ) =
      rowBytes type (ne 0) + (ne 1 - 1) * nb 1 + (ne 2 - 1) * nb 2 + (ne 3 - 1) * nb 3 := by
  have hpos : ∀ i, 1 ≤ ne i := fun i => by
    by_contra hlt
    exact hsome ⟨i, by omega⟩
  have hcast : ∀ i, (((ne i).toNat - 1 : ℕ) : ℤ) = ne i - 1 := fun i => by
    have hi := hpos i
    omega
  have hfirst : (if type.blckSize = 1 then type.typeSize + ((ne 0).toNat - 1) * type.typeSize
      else (ne 0).toNat * type.typeSize / type.blckSize) = rowBytes type (ne 0) := by
    have h0 := hpos 0
    unfold rowBytes
    split
    · rename_i hone
      obtain ⟨n, hn⟩ : ∃ n, (ne 0).toNat = n + 1 := ⟨(ne 0).toNat - 1, by omega⟩
      rw [hone, hn, Nat.div_one, Nat.add_sub_cancel]
      ring
    · rw [Nat.mul_comm]
  have hempty := mt empty_iff.mp hsome
  unfold exactNbytes
  rw [if_neg hempty]
  unfold dims strides
  dsimp only
  rw [hb, ← hfirst]
  split
  · push_cast
    rw [hcast 1, hcast 2, hcast 3]
  · push_cast
    rw [hcast 1, hcast 2, hcast 3]

theorem stridesFit_iff {base : Storage × ℕ} (hb : nb 0 = type.typeSize) :
    base.2 + exactNbytes type (dims ne) (strides nb) ≤ base.1.nbytes ↔ StridesFit type ne nb base := by
  unfold StridesFit
  split
  · rename_i hempty
    have hzero : exactNbytes type (dims ne) (strides nb) = 0 := if_pos (empty_iff.mpr hempty)
    rw [hzero, Nat.add_zero]
  · rename_i hsome
    have hextent := exactNbytes_eq hsome hb
    have htelescope : (rowBytes type (ne 0) : ℤ) * ne 1 * ne 2 * ne 3 = rowBytes type (ne 0) +
        (ne 1 - 1) * rowBytes type (ne 0) + (ne 2 - 1) * (rowBytes type (ne 0) * ne 1) +
        (ne 3 - 1) * (rowBytes type (ne 0) * ne 1 * ne 2) := by ring
    have hsplit : (exactNbytes type (dims ne) (strides nb) : ℤ) =
        excess type ne nb + rowBytes type (ne 0) * ne 1 * ne 2 * ne 3 := by
      rw [hextent, htelescope]
      unfold excess
      ring
    unfold room
    rw [← Nat.cast_le (α := ℤ), Nat.cast_add, hsplit]
    constructor
    · intro h
      linarith
    · intro h
      linarith

end Extent

section Calls

variable {a : Tensor} {offset : ℕ} {call : ViewCall}

theorem ggmlViewImpl_eq {nDims : ℕ} {ne : Fin 4 → ℤ} (h : ∀ i : Fin 4, nDims ≤ i.val → ne i = 1) :
    ggmlViewImpl a offset nDims ne =
      if ViewAsserted a.type nDims ne (viewBase a offset) then
        .ok ⟨⟨a.type, ne, newStrides a.type ne⟩, some (viewBase a offset)⟩
      else .error .assertion := by
  have hsizes : (fun i : Fin 4 => if i.val < nDims then ne i else 1) = ne := by
    funext i
    split
    · rfl
    · exact (h i (by omega)).symm
  unfold ggmlViewImpl ggmlNewTensorImpl
  dsimp only
  rw [hsizes]

theorem ne_one (call : ViewCall) (i : Fin 4) (h : call.nDims ≤ i.val) : call.ne i = 1 := by
  cases call <;> fin_cases i <;> first | rfl | simp [ViewCall.nDims] at h

/-- What a call returns: the assertion knows nothing of the strides. -/
theorem apply_spec (a : Tensor) (offset : ℕ) (call : ViewCall) :
    ∃ nb : Fin 4 → ℕ, nb 0 = a.type.typeSize ∧ (∀ i, i ≠ 0 → call.ne i = 1 ∨ nb i = call.nb i) ∧
      call.apply a offset =
        if ViewAsserted a.type call.nDims call.ne (viewBase a offset) then
          .ok ⟨⟨a.type, call.ne, nb⟩, some (viewBase a offset)⟩
        else .error .assertion := by
  have hview := @ggmlViewImpl_eq a offset call.nDims call.ne (ne_one call)
  cases call with
  | one ne0 =>
    refine ⟨newStrides a.type ![ne0, 1, 1, 1], rfl, fun i hi => .inl ?_, hview⟩
    fin_cases i
    exacts [absurd rfl hi, rfl, rfl, rfl]
  | two ne0 ne1 nb1 =>
    refine ⟨![a.type.typeSize, nb1, wrapInt (nb1 * ne1), wrapInt (nb1 * ne1)], rfl, fun i hi => ?_, ?_⟩
    · fin_cases i
      exacts [absurd rfl hi, .inr rfl, .inl rfl, .inl rfl]
    · exact (congrArg (· >>= _) hview).trans (apply_ite (· >>= _) _ _ _)
  | three ne0 ne1 ne2 nb1 nb2 =>
    refine ⟨![a.type.typeSize, nb1, nb2, wrapInt (nb2 * ne2)], rfl, fun i hi => ?_, ?_⟩
    · fin_cases i
      exacts [absurd rfl hi, .inr rfl, .inr rfl, .inl rfl]
    · exact (congrArg (· >>= _) hview).trans (apply_ite (· >>= _) _ _ _)
  | four ne0 ne1 ne2 ne3 nb1 nb2 nb3 =>
    refine ⟨![a.type.typeSize, nb1, nb2, nb3], rfl, fun i hi => .inr ?_, ?_⟩
    · fin_cases i
      exacts [absurd rfl hi, rfl, rfl, rfl]
    · exact (congrArg (· >>= _) hview).trans (apply_ite (· >>= _) _ _ _)

theorem stridesFit_congr {type : GgmlType} {ne : Fin 4 → ℤ} {nb nb' : Fin 4 → ℕ} {base : Storage × ℕ}
    (h : ∀ i, i ≠ 0 → ne i = 1 ∨ nb i = nb' i) : StridesFit type ne nb base ↔ StridesFit type ne nb' base := by
  have hterm : ∀ i, i ≠ 0 → ∀ c : ℤ, (ne i - 1) * (nb i - c) = (ne i - 1) * (nb' i - c) := by
    intro i hi c
    rcases h i hi with hone | hsame
    · rw [hone, sub_self, zero_mul, zero_mul]
    · rw [hsame]
  have hexcess : excess type ne nb = excess type ne nb' := by
    unfold excess
    rw [hterm 1 (by decide), hterm 2 (by decide), hterm 3 (by decide)]
  unfold StridesFit
  rw [hexcess]

/-- A view that is returned stays in its source exactly when what its strides add to a tensor without gaps is not more
than what the source has left behind one, or, without elements, when its offset is in the source. -/
theorem view_inside_iff (a : Tensor) (offset : ℕ) (call : ViewCall) :
    (∀ v, call.apply a offset = .ok v → InSource v) ↔
      (ViewAsserted a.type call.nDims call.ne (viewBase a offset) →
        StridesFit a.type call.ne call.nb (viewBase a offset)) := by
  obtain ⟨nb, hb, hgiven, hrun⟩ := apply_spec a offset call
  rw [hrun, ← stridesFit_congr hgiven, ← stridesFit_iff hb]
  constructor
  · intro hall hasserted
    rw [if_pos hasserted] at hall
    exact hall _ rfl _ rfl
  · intro hfits v hv
    split at hv
    · rename_i hasserted
      cases hv
      intro base hbase
      cases hbase
      exact hfits hasserted
    · cases hv

def fourFloats : Tensor := ⟨⟨.f32, ![4, 1, 1, 1], ![4, 16, 16, 16]⟩, none⟩

/-- Two rows of one float that are 1000 bytes apart, of a source of 16 bytes. -/
theorem not_view_inside : ∃ v, ggmlView2d fourFloats 1 2 1000 0 = .ok v ∧ ¬InSource v := by
  refine ⟨_, rfl, fun hinside => ?_⟩
  have hbytes := hinside _ rfl
  exact absurd hbytes (by decide)

end Calls

end PyannoteCpp.TensorViews
