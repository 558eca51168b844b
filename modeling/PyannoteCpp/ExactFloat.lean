import Mathlib.Algebra.Order.Field.Basic
import Mathlib.Tactic

set_option autoImplicit false

/-!
# Floating point with exact finite arithmetic

Finite values are elements of an ordered field, so no operation rounds and no
finite operation overflows. The special values follow IEEE 754: a NaN is
propagated by arithmetic and compares false with everything. There is one
zero, so a nonzero number over zero takes the numerator's sign.
-/
namespace PyannoteCpp

inductive ExactFloat (K : Type*) where
  | nan
  | inf (negative : Bool)
  | finite (x : K)
  deriving DecidableEq

namespace ExactFloat

variable {K : Type*}

def isnan : ExactFloat K → Bool
  | nan => true
  | _ => false

def isinf : ExactFloat K → Bool
  | inf _ => true
  | _ => false

def IsFinite (a : ExactFloat K) : Prop := ∃ x, a = finite x

def value [Zero K] : ExactFloat K → K
  | finite x => x
  | _ => 0

@[simp] theorem value_finite [Zero K] (x : K) : (finite x).value = x := rfl

theorem isFinite_iff (a : ExactFloat K) : IsFinite a ↔ (a.isnan || a.isinf) = false := by
  cases a <;> simp [IsFinite, isnan, isinf]

section Arithmetic

variable [Field K]

instance : Zero (ExactFloat K) := ⟨finite 0⟩
instance : One (ExactFloat K) := ⟨finite 1⟩

protected def neg : ExactFloat K → ExactFloat K
  | nan => nan
  | inf a => inf (!a)
  | finite x => finite (-x)

protected def add : ExactFloat K → ExactFloat K → ExactFloat K
  | nan, _ | _, nan => nan
  | inf a, inf b => if a = b then inf a else nan
  | inf a, finite _ | finite _, inf a => inf a
  | finite x, finite y => finite (x + y)

instance : Add (ExactFloat K) := ⟨ExactFloat.add⟩
instance : Sub (ExactFloat K) := ⟨fun a b => a.add b.neg⟩

theorem zero_def : (0 : ExactFloat K) = finite 0 := rfl
theorem one_def : (1 : ExactFloat K) = finite 1 := rfl

@[simp] theorem finite_add (x y : K) : finite x + finite y = finite (x + y) := rfl
@[simp] theorem finite_sub (x y : K) : finite x - finite y = finite (x - y) := by
  rw [sub_eq_add_neg]
  rfl

theorem foldl_add_finite {ι : Type*} (l : List ι) (f : ι → ExactFloat K) (g : ι → K)
    (h : ∀ i ∈ l, f i = finite (g i)) (x : K) :
    l.foldl (fun acc i => acc + f i) (finite x) = finite (x + (l.map g).sum) := by
  induction l generalizing x with
  | nil => simp
  | cons i l ih =>
    rw [List.foldl_cons, h i (by simp), finite_add, ih (fun j hj => h j (by simp [hj]))]
    simp [add_assoc]

variable [LinearOrder K]

protected def mul : ExactFloat K → ExactFloat K → ExactFloat K
  | nan, _ | _, nan => nan
  | inf a, inf b => inf (a ^^ b)
  | inf a, finite x | finite x, inf a => if x = 0 then nan else inf (a ^^ decide (x < 0))
  | finite x, finite y => finite (x * y)

protected def div : ExactFloat K → ExactFloat K → ExactFloat K
  | nan, _ | _, nan => nan
  | inf _, inf _ => nan
  | inf a, finite y => inf (a ^^ decide (y < 0))
  | finite _, inf _ => finite 0
  | finite x, finite y =>
    if y = 0 then (if x = 0 then nan else inf (decide (x < 0))) else finite (x / y)

instance : Mul (ExactFloat K) := ⟨ExactFloat.mul⟩
instance : Div (ExactFloat K) := ⟨ExactFloat.div⟩

@[simp] theorem finite_mul (x y : K) : finite x * finite y = finite (x * y) := rfl

/-- A product of floats: from `limit` on its magnitude is rounded to an infinity. -/
def floatMul (limit : K) (a b : ExactFloat K) : ExactFloat K :=
  match a * b with
  | finite x => if |x| < limit then finite x else inf (decide (x < 0))
  | special => special

theorem floatMul_finite {limit x y : K} (h : |x * y| < limit) :
    (finite x).floatMul limit (finite y) = finite (x * y) := if_pos h

theorem product_comm (a b : ExactFloat K) : a * b = b * a := by
  cases a with
  | nan => cases b <;> rfl
  | inf x =>
    cases b with
    | nan => rfl
    | inf y => exact congrArg inf (Bool.xor_comm x y)
    | finite y => rfl
  | finite x =>
    cases b with
    | nan => rfl
    | inf y => rfl
    | finite y => exact congrArg finite (mul_comm x y)

theorem finite_div (x : K) {y : K} (h : y ≠ 0) : finite x / finite y = finite (x / y) := by
  change (if y = 0 then _ else finite (x / y)) = _
  rw [if_neg h]

end Arithmetic

section Comparison

variable [LinearOrder K]

def lt : ExactFloat K → ExactFloat K → Bool
  | nan, _ | _, nan => false
  | inf a, inf b => a && !b
  | inf a, finite _ => a
  | finite _, inf b => !b
  | finite x, finite y => decide (x < y)

def le : ExactFloat K → ExactFloat K → Bool
  | nan, _ | _, nan => false
  | inf a, inf b => a || !b
  | inf a, finite _ => a
  | finite _, inf b => !b
  | finite x, finite y => decide (x ≤ y)

/-- `std::max`: the second argument only when it compares strictly greater. -/
def max (a b : ExactFloat K) : ExactFloat K := if a.lt b then b else a

/-- The finite values that do not exceed a threshold. -/
def Admits (threshold : ExactFloat K) (v : K) : Prop := threshold.lt (.finite v) = false

@[simp] theorem finite_lt (x y : K) : (finite x).lt (finite y) = decide (x < y) := rfl
@[simp] theorem finite_le (x y : K) : (finite x).le (finite y) = decide (x ≤ y) := rfl

theorem lt_finite_of_le {a : ExactFloat K} {x y : K} (h : a.lt (finite x) = true) (hxy : x ≤ y) :
    a.lt (finite y) = true := by
  cases a with
  | nan => exact h
  | inf b => exact h
  | finite z =>
    rw [finite_lt, decide_eq_true_eq] at h ⊢
    exact lt_of_lt_of_le h hxy

theorem lt_max {z a b : ExactFloat K} (h : z.lt (a.max b) = true) :
    z.lt a = true ∨ z.lt b = true := by
  unfold max at h
  split at h
  · exact Or.inr h
  · exact Or.inl h

/-- The place of a value that is a number between the two infinities. -/
def rank : ExactFloat K → WithBot (WithTop K)
  | nan | inf true => ⊥
  | inf false => ((⊤ : WithTop K) : WithBot (WithTop K))
  | finite x => ((x : WithTop K) : WithBot (WithTop K))

theorem le_rank {a b : ExactFloat K} (ha : a.isnan = false) (hb : b.isnan = false) :
    a.le b = decide (a.rank ≤ b.rank) := by
  cases a with
  | nan => cases ha
  | inf x =>
    cases b with
    | nan => cases hb
    | inf y => cases x <;> cases y <;> simp [le, rank]
    | finite y => cases x <;> simp [le, rank]
  | finite x =>
    cases b with
    | nan => cases hb
    | inf y => cases y <;> simp [le, rank]
    | finite y => simp [rank]

theorem lt_rank {a b : ExactFloat K} (ha : a.isnan = false) (hb : b.isnan = false) :
    a.lt b = decide (a.rank < b.rank) := by
  cases a with
  | nan => cases ha
  | inf x =>
    cases b with
    | nan => cases hb
    | inf y => cases x <;> cases y <;> simp [lt, rank]
    | finite y => cases x <;> simp [lt, rank]
  | finite x =>
    cases b with
    | nan => cases hb
    | inf y =>
      cases y with
      | true => simp [lt, rank]
      | false => exact (decide_eq_true (WithBot.coe_lt_coe.2 (WithTop.coe_lt_top x))).symm
    | finite y => simp [rank]

theorem lt_of_rank_le {a b c : ExactFloat K} (hc : c.isnan = false) (h : a.lt b = true)
    (hbc : b.rank ≤ c.rank) : a.lt c = true := by
  have numbers : a.isnan = false ∧ b.isnan = false := by
    cases a <;> cases b <;> simp [lt, isnan] at h ⊢
  rw [lt_rank numbers.1 numbers.2, decide_eq_true_eq] at h
  rw [lt_rank numbers.1 hc, decide_eq_true_eq]
  exact lt_of_lt_of_le h hbc

theorem not_lt_of_le {a b : ExactFloat K} (h : a.le b = true) : b.lt a = false := by
  have numbers : a.isnan = false ∧ b.isnan = false := by
    cases a <;> cases b <;> simp [le, isnan] at h ⊢
  rw [le_rank numbers.1 numbers.2, decide_eq_true_eq] at h
  rw [lt_rank numbers.2 numbers.1, decide_eq_false_iff_not]
  exact not_lt.2 h

end Comparison
end ExactFloat
end PyannoteCpp
