import Mathlib.Tactic

set_option autoImplicit false

/-!
# Numbers of type `int`

A wider number that is assigned to an `int` is taken modulo `2 ^ 32`. An
operation on two numbers of type `int` has a result only when it fits.
-/
namespace PyannoteCpp.MachineInt

def InRange (n : ℤ) : Prop := -2 ^ 31 ≤ n ∧ n < 2 ^ 31

instance (n : ℤ) : Decidable (InRange n) := inferInstanceAs (Decidable (_ ∧ _))

/-- The `int` a wider number becomes. -/
def toInt (n : ℤ) : ℤ := n.bmod (2 ^ 32)

theorem toInt_inRange (n : ℤ) : InRange (toInt n) := by
  have hlow := Int.le_bmod (x := n) (m := 2 ^ 32) (by norm_num)
  have hhigh := Int.bmod_lt (x := n) (m := 2 ^ 32) (by norm_num)
  unfold InRange toInt
  omega

theorem toInt_of_inRange {n : ℤ} (h : InRange n) : toInt n = n := by
  unfold InRange at h
  exact Int.bmod_eq_of_le (by norm_num; omega) (by norm_num; omega)

theorem toInt_eq_iff (n : ℤ) : toInt n = n ↔ InRange n :=
  ⟨fun h => h ▸ toInt_inRange n, toInt_of_inRange⟩

theorem toInt_dvd (n : ℤ) : (2 ^ 32 : ℤ) ∣ n - toInt n := by
  have h : (n.bmod (2 ^ 32)) % (2 ^ 32 : ℕ) = n % (2 ^ 32 : ℕ) := Int.bmod_emod
  exact Int.ModEq.dvd h

theorem toInt_toNat_le (n : ℕ) : (toInt n).toNat ≤ n := by
  obtain ⟨q, hq⟩ := toInt_dvd n
  have hrange := toInt_inRange n
  unfold InRange at hrange
  omega

/-- A result of type `int`; none when it does not fit. -/
def fit (n : ℤ) : Option ℤ := if InRange n then some n else none

def addInt (a b : ℤ) : Option ℤ := fit (a + b)

def mulInt (a b : ℤ) : Option ℤ := fit (a * b)

def InRange64 (n : ℤ) : Prop := -2 ^ 63 ≤ n ∧ n < 2 ^ 63

instance (n : ℤ) : Decidable (InRange64 n) := inferInstanceAs (Decidable (_ ∧ _))

def fit64 (n : ℤ) : Option ℤ := if InRange64 n then some n else none

end PyannoteCpp.MachineInt
