import Mathlib.Data.List.GetD
import Mathlib.Tactic

set_option autoImplicit false

/-!
# An input stream of bytes and little-endian numbers

A read that comes up short stores what there is, leaves the rest of the
destination as it was and fails the stream; a failed stream delivers nothing.
-/
namespace PyannoteCpp

def leValue : List UInt8 → ℕ
  | [] => 0
  | b :: bytes => b.toNat + 256 * leValue bytes

def leBytes : ℕ → ℕ → List UInt8
  | 0, _ => []
  | n + 1, v => UInt8.ofNat v :: leBytes n (v / 256)

@[simp] theorem leBytes_length (n v : ℕ) : (leBytes n v).length = n := by
  induction n generalizing v with
  | zero => rfl
  | succ n ih => exact congrArg Nat.succ (ih _)

theorem leValue_leBytes (n v : ℕ) (h : v < 256 ^ n) : leValue (leBytes n v) = v := by
  induction n generalizing v with
  | zero => exact (Nat.lt_one_iff.mp h).symm
  | succ n ih =>
    have hdiv : v / 256 < 256 ^ n := Nat.div_lt_of_lt_mul (by rw [pow_succ] at h; omega)
    change (UInt8.ofNat v).toNat + 256 * leValue (leBytes n (v / 256)) = v
    rw [ih _ hdiv, UInt8.toNat_ofNat']
    omega

theorem leValue_lt (bytes : List UInt8) : leValue bytes < 256 ^ bytes.length := by
  induction bytes with
  | nil => exact Nat.one_pos
  | cons b bytes ih =>
    have hb := b.toNat_lt
    rw [List.length_cons, pow_succ]
    change b.toNat + 256 * leValue bytes < _
    omega

theorem leBytes_leValue (bytes : List UInt8) : leBytes bytes.length (leValue bytes) = bytes := by
  induction bytes with
  | nil => rfl
  | cons b bytes ih =>
    have hb := b.toNat_lt
    have hhead : UInt8.ofNat (b.toNat + 256 * leValue bytes) = b := by
      apply UInt8.toNat_inj.mp
      rw [UInt8.toNat_ofNat']
      omega
    have htail : (b.toNat + 256 * leValue bytes) / 256 = leValue bytes := by omega
    change UInt8.ofNat (b.toNat + 256 * leValue bytes) ::
      leBytes bytes.length ((b.toNat + 256 * leValue bytes) / 256) = _
    rw [hhead, htail, ih]

structure ByteStream where
  rest : List UInt8
  good : Bool

namespace ByteStream

/-- The destination after reading `n` bytes over what it held, and the stream. -/
def read (n : ℕ) (old : ℕ → UInt8) (f : ByteStream) : List UInt8 × ByteStream :=
  if f.good then
    ((List.range n).map (fun i => (f.rest.take n).getD i (old i)), ⟨f.rest.drop n, decide (n ≤ f.rest.length)⟩)
  else ((List.range n).map old, f)

def ignore (n : ℕ) (f : ByteStream) : ByteStream :=
  if f.good then ⟨f.rest.drop n, decide (n ≤ f.rest.length)⟩ else f

theorem read_append {n : ℕ} (old : ℕ → UInt8) (bytes rest : List UInt8) (h : bytes.length = n) :
    read n old ⟨bytes ++ rest, true⟩ = (bytes, ⟨rest, true⟩) := by
  subst h
  unfold read
  rw [if_pos rfl, List.take_left, List.drop_left, decide_eq_true (by simp)]
  refine congrArg (fun l => (l, _)) (List.ext_getElem (by simp) (fun i hi hi' => ?_))
  rw [List.getElem_map, List.getElem_range, List.getD_eq_getElem _ _ hi']

theorem ignore_append {n : ℕ} (bytes rest : List UInt8) (h : bytes.length = n) :
    ignore n ⟨bytes ++ rest, true⟩ = ⟨rest, true⟩ := by
  subst h
  unfold ignore
  rw [if_pos rfl, List.drop_left, decide_eq_true (by simp)]

theorem rest_lt_of_read_good {n : ℕ} {old : ℕ → UInt8} {f : ByteStream} (hn : 0 < n)
    (h : (read n old f).2.good = true) : (read n old f).2.rest.length < f.rest.length := by
  unfold read at h ⊢
  split at h
  · have hle : n ≤ f.rest.length := of_decide_eq_true h
    rw [if_pos ‹_›, List.length_drop]
    omega
  · exact absurd h ‹_›

theorem rest_read_length (n : ℕ) (old : ℕ → UInt8) (f : ByteStream) :
    (read n old f).2.rest.length ≤ f.rest.length := by
  unfold read
  split <;> simp

theorem rest_ignore_length (n : ℕ) (f : ByteStream) : (ignore n f).rest.length ≤ f.rest.length := by
  unfold ignore
  split <;> simp

end ByteStream
end PyannoteCpp
