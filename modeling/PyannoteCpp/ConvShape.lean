import PyannoteCpp.MachineInt
import PyannoteCpp.TensorGraph

set_option autoImplicit false

/-!
# The shape of the patches

The number of window positions is a truncating quotient, which is one and not
zero for a numerator between the negative stride and zero. So a kernel that is
too large by less than the stride is accepted.
-/
namespace PyannoteCpp.ConvShape
open MachineInt TensorGraph

inductive Stop
  | assertion
  | overflow
  deriving DecidableEq

def checked : Option ℤ → Except Stop ℤ
  | none => .error .overflow
  | some n => .ok n

def assert (p : Prop) [Decidable p] : Except Stop Unit := if p then .ok () else .error .assertion

/-- Twice the padding is an `int`, the other results are of type `int64_t`. -/
def calcConvOutputSize (ins ks s p d : ℤ) : Except Stop ℤ := do
  let twice ← checked (mulInt 2 p)
  let padded ← checked (fit64 (ins + twice))
  let taps ← checked (fit64 (ks - 1))
  let reach ← checked (fit64 (d * taps))
  let rest ← checked (fit64 (padded - reach))
  let numerator ← checked (fit64 (rest - 1))
  checked (fit64 (numerator.tdiv s + 1))

def im2colShape (a b : Shape) (s0 s1 p0 p1 d0 d1 : ℤ) (is2D : Bool) : Except Stop Shape := do
  if is2D then assert (a.ne2 = b.ne2)
  else do
    assert (b.ne1 = a.ne1)
    assert (b.ne3 = 1)
  let OH ← if is2D then calcConvOutputSize b.ne1 a.ne1 s1 p1 d1 else pure 0
  let OW ← calcConvOutputSize b.ne0 a.ne0 s0 p0 d0
  assert (!is2D ∨ OH > 0)
  assert (OW > 0)
  pure ⟨if is2D then a.ne2 * a.ne1 * a.ne0 else a.ne1 * a.ne0, OW.toNat, if is2D then OH.toNat else b.ne2,
    if is2D then b.ne3 else 1⟩

section Size

variable {ins ks s p d : ℤ}

def numerator (ins ks p d : ℤ) : ℤ := ins + 2 * p - d * (ks - 1) - 1

/-- No step of the size overflows. -/
def Computable (ins ks s p d : ℤ) : Prop :=
  InRange (2 * p) ∧ InRange64 (ins + 2 * p) ∧ InRange64 (ks - 1) ∧ InRange64 (d * (ks - 1)) ∧
    InRange64 (ins + 2 * p - d * (ks - 1)) ∧ InRange64 (numerator ins ks p d) ∧
    InRange64 ((numerator ins ks p d).tdiv s + 1)

instance (ins ks s p d : ℤ) : Decidable (Computable ins ks s p d) := inferInstanceAs (Decidable (_ ∧ _))

theorem checked_fit64 (n : ℤ) : checked (fit64 n) = if InRange64 n then .ok n else .error .overflow := by
  unfold fit64
  split_ifs <;> rfl

theorem checked_fit64_bind {α : Type} (n : ℤ) (next : ℤ → Except Stop α) :
    checked (fit64 n) >>= next = if InRange64 n then next n else .error .overflow := by
  rw [checked_fit64]
  split_ifs <;> rfl

theorem checked_mulInt_bind {α : Type} (a b : ℤ) (next : ℤ → Except Stop α) :
    checked (mulInt a b) >>= next = if InRange (a * b) then next (a * b) else .error .overflow := by
  unfold mulInt fit
  split_ifs <;> rfl

theorem calcConvOutputSize_eq : calcConvOutputSize ins ks s p d =
    if Computable ins ks s p d then .ok ((numerator ins ks p d).tdiv s + 1) else .error .overflow := by
  by_cases h : Computable ins ks s p d
  · obtain ⟨h₁, h₂, h₃, h₄, h₅, h₆, h₇⟩ := id h
    unfold numerator at h₆ h₇
    unfold calcConvOutputSize
    rw [if_pos h, checked_mulInt_bind, if_pos h₁, checked_fit64_bind, if_pos h₂, checked_fit64_bind, if_pos h₃,
      checked_fit64_bind, if_pos h₄, checked_fit64_bind, if_pos h₅, checked_fit64_bind, if_pos h₆, checked_fit64,
      if_pos h₇]
    rfl
  · unfold calcConvOutputSize
    rw [if_neg h]
    simp only [checked_mulInt_bind, checked_fit64_bind]
    rw [checked_fit64]
    split_ifs with h₁ h₂ h₃ h₄ h₅ h₆ h₇
    · exact absurd ⟨h₁, h₂, h₃, h₄, h₅, h₆, h₇⟩ h
    all_goals rfl

theorem tdiv_cases {n : ℤ} (hs : 1 ≤ s) :
    (0 ≤ n ∧ n.tdiv s = n / s) ∨ (-s < n ∧ n < 0 ∧ n.tdiv s = 0) ∨ (n ≤ -s ∧ n.tdiv s < 0) := by
  rcases le_or_gt 0 n with hn | hn
  · exact .inl ⟨hn, Int.tdiv_eq_ediv_of_nonneg hn⟩
  · have hneg : n.tdiv s = -((-n) / s) := by
      rw [← Int.tdiv_eq_ediv_of_nonneg (by omega), Int.neg_tdiv, neg_neg]
    rcases lt_or_ge (-s) n with hslip | hfar
    · exact .inr (.inl ⟨hslip, hn, by rw [hneg, Int.ediv_eq_zero_of_lt (by omega) (by omega), neg_zero]⟩)
    · have hone : 1 ≤ (-n) / s := (Int.le_ediv_iff_mul_le (by omega)).2 (by omega)
      exact .inr (.inr ⟨hfar, by omega⟩)

def Positions (ins ks s p d : ℤ) (count : ℕ) : Prop := ∀ o : ℕ, o < count ↔ o * s + d * (ks - 1) < ins + 2 * p

def Fits (ins ks p d : ℤ) : Prop := d * (ks - 1) + 1 ≤ ins + 2 * p

/-- The kernel is too large by less than the stride. -/
def Slips (ins ks s p d : ℤ) : Prop := -s < numerator ins ks p d ∧ numerator ins ks p d < 0

instance (ins ks p d : ℤ) : Decidable (Fits ins ks p d) := inferInstanceAs (Decidable (_ ≤ _))

instance (ins ks s p d : ℤ) : Decidable (Slips ins ks s p d) := inferInstanceAs (Decidable (_ ∧ _))

theorem fits_iff : Fits ins ks p d ↔ 0 ≤ numerator ins ks p d := by
  unfold Fits numerator
  omega

theorem size_pos_iff (hs : 1 ≤ s) : 0 < (numerator ins ks p d).tdiv s + 1 ↔ Fits ins ks p d ∨ Slips ins ks s p d := by
  rw [fits_iff]
  unfold Slips
  rcases tdiv_cases (n := numerator ins ks p d) hs with ⟨hn, hq⟩ | ⟨hslip, hn, hq⟩ | ⟨hfar, hq⟩
  · have hpos : 0 ≤ numerator ins ks p d / s := Int.ediv_nonneg hn (by omega)
    omega
  · omega
  · omega

/-- For a kernel that fits, the size counts the window positions. -/
theorem positions_of_fits (hs : 1 ≤ s) (h : Fits ins ks p d) :
    Positions ins ks s p d ((numerator ins ks p d).tdiv s + 1).toNat := by
  rw [fits_iff] at h
  intro o
  have hquotient : (o : ℤ) ≤ numerator ins ks p d / s ↔ o * s ≤ numerator ins ks p d :=
    Int.le_ediv_iff_mul_le (by omega)
  have hpos : 0 ≤ numerator ins ks p d / s := Int.ediv_nonneg h (by omega)
  have hrest : (o : ℤ) * s ≤ numerator ins ks p d ↔ o * s + d * (ks - 1) < ins + 2 * p := by
    unfold numerator
    omega
  rw [Int.tdiv_eq_ediv_of_nonneg h]
  omega

end Size

section Exact

variable (a b : Shape) (s0 s1 p0 p1 d0 d1 : ℤ) (is2D : Bool)

def Channels : Prop := if is2D then a.ne2 = b.ne2 else b.ne1 = a.ne1 ∧ b.ne3 = 1

def KernelFits : Prop := Fits b.ne0 a.ne0 p0 d0 ∧ (is2D → Fits b.ne1 a.ne1 p1 d1)

/-- The shape is accepted exactly when the kernel fits, and its sizes count the window positions. -/
def ShapeExact : Prop :=
  match im2colShape a b s0 s1 p0 p1 d0 d1 is2D with
  | .error .overflow => False
  | .error .assertion => ¬(Channels a b is2D ∧ KernelFits a b p0 p1 d0 d1 is2D)
  | .ok ne => Channels a b is2D ∧ KernelFits a b p0 p1 d0 d1 is2D ∧ Positions b.ne0 a.ne0 s0 p0 d0 ne.ne1 ∧
      (is2D → Positions b.ne1 a.ne1 s1 p1 d1 ne.ne2)

/-- The dimensions that pass the assertions: the kernel fits or slips. -/
def Accepted : Prop :=
  (Fits b.ne0 a.ne0 p0 d0 ∨ Slips b.ne0 a.ne0 s0 p0 d0) ∧ (is2D → Fits b.ne1 a.ne1 p1 d1 ∨ Slips b.ne1 a.ne1 s1 p1 d1)

def AllComputable : Prop := Computable b.ne0 a.ne0 s0 p0 d0 ∧ (is2D → Computable b.ne1 a.ne1 s1 p1 d1)

/-- No dimension overflows, and no kernel is accepted only because it slips. -/
def SizesExact : Prop :=
  AllComputable a b s0 s1 p0 p1 d0 d1 is2D ∧
    (Accepted a b s0 s1 p0 p1 d0 d1 is2D → KernelFits a b p0 p1 d0 d1 is2D)

theorem assert_of {p : Prop} [Decidable p] (h : p) : assert p = .ok () := if_pos h

theorem assert_not {p : Prop} [Decidable p] (h : ¬p) : assert p = .error .assertion := if_neg h

variable {a b s0 s1 p0 p1 d0 d1 is2D}

theorem im2colShape_channels (h : ¬Channels a b is2D) : im2colShape a b s0 s1 p0 p1 d0 d1 is2D = .error .assertion := by
  unfold im2colShape
  cases is2D with
  | true =>
    have hc : ¬a.ne2 = b.ne2 := h
    rw [if_pos rfl, assert_not hc]
    rfl
  | false =>
    rw [if_neg (by decide)]
    by_cases hc : b.ne1 = a.ne1
    · have hb : ¬b.ne3 = 1 := fun hb => h ⟨hc, hb⟩
      rw [assert_of hc, assert_not hb]
      rfl
    · rw [assert_not hc]
      rfl

theorem im2colShape_sizes (h : Channels a b is2D) : im2colShape a b s0 s1 p0 p1 d0 d1 is2D = (do
    let OH ← if is2D then calcConvOutputSize b.ne1 a.ne1 s1 p1 d1 else pure 0
    let OW ← calcConvOutputSize b.ne0 a.ne0 s0 p0 d0
    assert (!is2D ∨ OH > 0)
    assert (OW > 0)
    pure ⟨if is2D then a.ne2 * a.ne1 * a.ne0 else a.ne1 * a.ne0, OW.toNat, if is2D then OH.toNat else b.ne2,
      if is2D then b.ne3 else 1⟩) := by
  unfold im2colShape
  cases is2D with
  | true =>
    have hc : a.ne2 = b.ne2 := h
    rw [if_pos rfl, assert_of hc]
    rfl
  | false =>
    have hc : b.ne1 = a.ne1 ∧ b.ne3 = 1 := h
    rw [if_neg (by decide), assert_of hc.1, assert_of hc.2]
    rfl

theorem im2colShape_overflow (h : Channels a b is2D) (hover : ¬AllComputable a b s0 s1 p0 p1 d0 d1 is2D) :
    im2colShape a b s0 s1 p0 p1 d0 d1 is2D = .error .overflow := by
  rw [im2colShape_sizes h, calcConvOutputSize_eq, calcConvOutputSize_eq]
  unfold AllComputable at hover
  cases is2D with
  | true =>
    by_cases h1 : Computable b.ne1 a.ne1 s1 p1 d1
    · rw [if_pos rfl, if_pos h1, if_neg (fun h0 => hover ⟨h0, fun _ => h1⟩)]
      rfl
    · rw [if_pos rfl, if_neg h1]
      rfl
  | false =>
    rw [if_neg (by decide), if_neg (fun h0 => hover ⟨h0, fun h => absurd h (by decide)⟩)]
    rfl

theorem im2colShape_asserts (h : Channels a b is2D) (hall : AllComputable a b s0 s1 p0 p1 d0 d1 is2D) :
    im2colShape a b s0 s1 p0 p1 d0 d1 is2D = (do
      let OH := if is2D then (numerator b.ne1 a.ne1 p1 d1).tdiv s1 + 1 else 0
      let OW := (numerator b.ne0 a.ne0 p0 d0).tdiv s0 + 1
      assert (!is2D ∨ OH > 0)
      assert (OW > 0)
      pure ⟨if is2D then a.ne2 * a.ne1 * a.ne0 else a.ne1 * a.ne0, OW.toNat, if is2D then OH.toNat else b.ne2,
        if is2D then b.ne3 else 1⟩) := by
  rw [im2colShape_sizes h, calcConvOutputSize_eq, calcConvOutputSize_eq, if_pos hall.1]
  cases is2D with
  | true =>
    rw [if_pos rfl, if_pos (hall.2 rfl)]
    rfl
  | false => rfl

variable (hs0 : 1 ≤ s0) (hs1 : is2D → 1 ≤ s1)
include hs0 hs1

theorem im2colShape_accepted (h : Channels a b is2D) (hall : AllComputable a b s0 s1 p0 p1 d0 d1 is2D)
    (haccept : Accepted a b s0 s1 p0 p1 d0 d1 is2D) : im2colShape a b s0 s1 p0 p1 d0 d1 is2D =
      .ok ⟨if is2D then a.ne2 * a.ne1 * a.ne0 else a.ne1 * a.ne0, ((numerator b.ne0 a.ne0 p0 d0).tdiv s0 + 1).toNat,
        if is2D then ((numerator b.ne1 a.ne1 p1 d1).tdiv s1 + 1).toNat else b.ne2, if is2D then b.ne3 else 1⟩ := by
  have hOW := (size_pos_iff hs0).2 haccept.1
  rw [im2colShape_asserts h hall]
  cases is2D with
  | true =>
    have hOH := (size_pos_iff (hs1 rfl)).2 (haccept.2 rfl)
    dsimp only
    rw [assert_of (.inr hOH), assert_of hOW]
    rfl
  | false =>
    dsimp only
    rw [assert_of (.inl rfl), assert_of hOW]
    rfl

theorem im2colShape_rejected (h : Channels a b is2D) (hall : AllComputable a b s0 s1 p0 p1 d0 d1 is2D)
    (hreject : ¬Accepted a b s0 s1 p0 p1 d0 d1 is2D) : im2colShape a b s0 s1 p0 p1 d0 d1 is2D = .error .assertion := by
  rw [im2colShape_asserts h hall]
  by_cases hOW : 0 < (numerator b.ne0 a.ne0 p0 d0).tdiv s0 + 1
  · cases is2D with
    | true =>
      have hOH : ¬0 < (numerator b.ne1 a.ne1 p1 d1).tdiv s1 + 1 := fun hOH =>
        hreject ⟨(size_pos_iff hs0).1 hOW, fun _ => (size_pos_iff (hs1 rfl)).1 hOH⟩
      dsimp only
      rw [assert_not (fun hor => hor.elim (by decide) hOH)]
      rfl
    | false => exact absurd ⟨(size_pos_iff hs0).1 hOW, fun h => absurd h (by decide)⟩ hreject
  · dsimp only
    rw [assert_not hOW]
    unfold assert
    split_ifs <;> rfl

/-- Exactly when the patches have the right shape. -/
theorem shapeExact_iff :
    ShapeExact a b s0 s1 p0 p1 d0 d1 is2D ↔ (Channels a b is2D → SizesExact a b s0 s1 p0 p1 d0 d1 is2D) := by
  by_cases hc : Channels a b is2D
  · by_cases hall : AllComputable a b s0 s1 p0 p1 d0 d1 is2D
    · by_cases haccept : Accepted a b s0 s1 p0 p1 d0 d1 is2D
      · unfold ShapeExact
        rw [im2colShape_accepted hs0 hs1 hc hall haccept]
        refine ⟨fun h _ => ⟨hall, fun _ => h.2.1⟩, fun h => ?_⟩
        have hfits := (h hc).2 haccept
        refine ⟨hc, hfits, positions_of_fits hs0 hfits.1, fun h2 => ?_⟩
        have hheight : Positions b.ne1 a.ne1 s1 p1 d1 ((numerator b.ne1 a.ne1 p1 d1).tdiv s1 + 1).toNat :=
          positions_of_fits (hs1 h2) (hfits.2 h2)
        rw [h2]
        exact hheight
      · unfold ShapeExact
        rw [im2colShape_rejected hs0 hs1 hc hall haccept]
        have hfits : ¬KernelFits a b p0 p1 d0 d1 is2D := fun h =>
          haccept ⟨.inl h.1, fun h2 => .inl (h.2 h2)⟩
        exact iff_of_true (fun h => hfits h.2) (fun _ => ⟨hall, fun h => absurd h haccept⟩)
    · unfold ShapeExact
      rw [im2colShape_overflow hc hall]
      exact iff_of_false id (fun h => hall (h hc).1)
  · unfold ShapeExact
    rw [im2colShape_channels hc]
    exact iff_of_true (fun h => hc h.1) (fun h => absurd h hc)

end Exact

/-- The streaming chunk of the first layer, one sample shorter than its kernel. -/
theorem shapeExact_slips : ¬ShapeExact ⟨251, 1, 80, 1⟩ ⟨250, 1, 1, 1⟩ 10 0 0 0 1 0 false := by
  have hshape : im2colShape ⟨251, 1, 80, 1⟩ ⟨250, 1, 1, 1⟩ 10 0 0 0 1 0 false = .ok ⟨251, 1, 1, 1⟩ := by decide
  have hfits : ¬Fits 250 251 0 1 := by decide
  unfold ShapeExact
  rw [hshape]
  exact fun h => hfits h.2.1.1

theorem shapeExact_patch : ShapeExact ⟨3, 3, 1, 1⟩ ⟨9, 8, 1, 2⟩ 2 1 1 1 1 2 true :=
  (shapeExact_iff (by decide) (by decide)).2 (fun _ => by
    refine ⟨⟨by decide, fun _ => by decide⟩, fun _ => ⟨by decide, fun _ => by decide⟩⟩)

theorem calcConvOutputSize_convOutputSize {ins ks s p d : ℕ} (h : Computable ins ks s p d) :
    calcConvOutputSize ins ks s p d = .ok (convOutputSize ins ks s p d) := by
  rw [calcConvOutputSize_eq, if_pos h]
  rfl

end PyannoteCpp.ConvShape
