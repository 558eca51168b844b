import PyannoteCpp.BinaryFormat

set_option autoImplicit false

/-!
# Numbers of a binary format

A word is a sign and a code; codes behind infinity are not numbers. Products and
sums are exact before they are rounded.
-/
namespace PyannoteCpp.BinaryFormat

inductive Number where
  | nan
  | infinite (negative : Bool)
  | finite (negative : Bool) (abs : ℚ)
  deriving DecidableEq

namespace Number

def signed (negative : Bool) (abs : ℚ) : ℚ := if negative then -abs else abs

def neg : Number → Number
  | nan => nan
  | infinite s => infinite (!s)
  | finite s x => finite (!s) x

def mul : Number → Number → Number
  | finite s x, finite t y => finite (s ^^ t) (x * y)
  | infinite s, infinite t => infinite (s ^^ t)
  | infinite s, finite t y => if y = 0 then nan else infinite (s ^^ t)
  | finite s x, infinite t => if x = 0 then nan else infinite (s ^^ t)
  | nan, _ => nan
  | _, nan => nan

/-- A sum of zero is positive unless both are negative. -/
def add : Number → Number → Number
  | finite s x, finite t y =>
    let sum := signed s x + signed t y
    finite (if sum = 0 then s && t else sum < 0) |sum|
  | infinite s, infinite t => if s = t then infinite s else nan
  | infinite s, finite _ _ => infinite s
  | finite _ _, infinite t => infinite t
  | nan, _ => nan
  | _, nan => nan

def sub (a b : Number) : Number := add a (neg b)

theorem add_nonneg {x y : ℚ} (hx : 0 ≤ x) (hy : 0 ≤ y) : add (finite false x) (finite false y) = finite false (x + y) := by
  have hsum : 0 ≤ x + y := by linarith
  simp [add, signed, abs_of_nonneg hsum, hsum]

theorem sub_nonneg {x y : ℚ} (hle : y ≤ x) : sub (finite false x) (finite false y) = finite false (x - y) := by
  have hsum : 0 ≤ x - y := by linarith
  simp [sub, neg, add, signed, ← sub_eq_add_neg, abs_of_nonneg hsum, hle]

def withSign (negative : Bool) : Number → Number
  | nan => nan
  | infinite _ => infinite negative
  | finite _ x => finite negative x

end Number

namespace Format

variable (f : Format)

def decode (negative : Bool) (code : ℕ) : Number :=
  if f.infinity < code then .nan else if code = f.infinity then .infinite negative else .finite negative (f.value code)

def encode : Number → Option (Bool × ℕ)
  | .nan => none
  | .infinite negative => some (negative, f.infinity)
  | .finite negative x => some (negative, f.round x)

variable {f}

theorem decode_lt {negative : Bool} {code : ℕ} (h : code < f.infinity) :
    f.decode negative code = .finite negative (f.value code) := by
  rw [decode, if_neg h.not_gt, if_neg h.ne]

theorem decode_infinity (negative : Bool) : f.decode negative f.infinity = .infinite negative := by
  rw [decode, if_neg (lt_irrefl _), if_pos rfl]

theorem decode_nan {negative : Bool} {code : ℕ} (h : f.infinity < code) : f.decode negative code = .nan := if_pos h

theorem withSign_decode (s negative : Bool) (code : ℕ) : (f.decode negative code).withSign s = f.decode s code := by
  unfold decode
  split_ifs <;> rfl

theorem sign_of_decode {g : Format} {s t : Bool} {k j : ℕ} (h : f.decode s k = g.decode t j) (hj : j ≤ g.infinity) : s = t := by
  have hnan := not_lt.mpr hj
  unfold decode at h
  split_ifs at h <;> simp_all

theorem decode_round {negative : Bool} {x : ℚ} (h : f.Exact x) (hlt : x < f.value f.infinity) :
    f.decode negative (f.round x) = .finite negative x := by
  obtain ⟨hcode, hvalue⟩ := value_round h hlt
  rw [decode_lt hcode, hvalue]

end Format

end PyannoteCpp.BinaryFormat
