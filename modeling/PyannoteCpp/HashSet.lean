import Mathlib.Algebra.Order.Group.Nat
import PyannoteCpp.LinearProbing

set_option autoImplicit false

/-!
# The hash set of tensor pointers

Slots are marked in words of 32 bits, and the key of a slot means something only when
its bit is set. The loops follow the slots from the hash of a key until they are back.
-/
namespace PyannoteCpp.HashSets
open LinearProbing

def bitsetShr : ℕ := 5
def bitsetMask : ℕ := 31

def ggmlBitsetSize (n : ℕ) : ℕ := (n + bitsetMask) >>> bitsetShr

def ggmlBitsetGet (bitset : List (BitVec 32)) (i : ℕ) : Bool :=
  bitset.getD (i >>> bitsetShr) 0 &&& 1#32 <<< (i &&& bitsetMask) ≠ 0

def ggmlBitsetSet (bitset : List (BitVec 32)) (i : ℕ) : List (BitVec 32) :=
  bitset.modify (i >>> bitsetShr) (· ||| 1#32 <<< (i &&& bitsetMask))

section Bits

variable {bitset : List (BitVec 32)} {n i j : ℕ}

theorem word_index (i : ℕ) : i >>> bitsetShr = i / 32 := Nat.shiftRight_eq_div_pow i 5

theorem bit_index (i : ℕ) : i &&& bitsetMask = i % 32 := Nat.and_two_pow_sub_one_eq_mod i 5

theorem ggmlBitsetGet_eq (bitset : List (BitVec 32)) (i : ℕ) :
    ggmlBitsetGet bitset i = (bitset.getD (i / 32) 0).getLsbD (i % 32) := by
  have hbit : i % 32 < 32 := Nat.mod_lt _ (by omega)
  unfold ggmlBitsetGet
  rw [word_index, bit_index]
  generalize bitset.getD (i / 32) 0 = word
  cases hword : word.getLsbD (i % 32) with
  | false =>
    refine decide_eq_false (not_not.mpr (BitVec.eq_of_getLsbD_eq fun b hb => ?_))
    rw [BitVec.getLsbD_and, BitVec.getLsbD_shiftLeft, BitVec.getLsbD_one]
    by_cases hsame : b = i % 32
    · subst hsame
      simp [hword]
    · simp
      omega
  | true =>
    refine decide_eq_true fun hzero => ?_
    have hset : (word &&& 1#32 <<< (i % 32)).getLsbD (i % 32) = false := by
      rw [hzero]
      exact BitVec.getLsbD_zero
    rw [BitVec.getLsbD_and, hword, BitVec.getLsbD_shiftLeft, BitVec.getLsbD_one] at hset
    simp [hbit] at hset

theorem ggmlBitsetSet_length (bitset : List (BitVec 32)) (i : ℕ) : (ggmlBitsetSet bitset i).length = bitset.length :=
  List.length_modify ..

theorem get_set (hi : i / 32 < bitset.length) (j : ℕ) :
    ggmlBitsetGet (ggmlBitsetSet bitset i) j = (decide (j = i) || ggmlBitsetGet bitset j) := by
  rw [ggmlBitsetGet_eq, ggmlBitsetGet_eq]
  unfold ggmlBitsetSet
  rw [word_index, bit_index, List.getD_eq_getElem?_getD, List.getD_eq_getElem?_getD, List.getElem?_modify]
  have hbit : j % 32 < 32 := Nat.mod_lt _ (by omega)
  by_cases hword : i / 32 = j / 32
  · rw [List.getElem?_eq_getElem (hword ▸ hi)]
    simp only [hword, if_true, Option.map_eq_map, Option.map_some, Option.getD_some, BitVec.getLsbD_or, BitVec.getLsbD_shiftLeft, BitVec.getLsbD_one]
    rw [Bool.or_comm]
    congr 1
    by_cases hsame : j = i
    · subst hsame
      simp [hbit]
    · have hother : ¬j % 32 = i % 32 := by omega
      simp [hsame]
      omega
  · have hother : j ≠ i := fun hsame => hword (by rw [hsame])
    simp [hword, hother]

theorem get_clear (i : ℕ) : ggmlBitsetGet (List.replicate n 0#32) i = false := by
  rw [ggmlBitsetGet_eq, List.getD_eq_getElem?_getD, List.getElem?_replicate]
  split <;> simp

theorem word_lt (hi : i < n) : i / 32 < ggmlBitsetSize n := by
  unfold ggmlBitsetSize
  rw [word_index]
  unfold bitsetMask
  omega

end Bits

def hashsetFull : ℕ := 2 ^ 64 - 1
def hashsetAlreadyExists : ℕ := 2 ^ 64 - 2

/-- The keys are pointers in memory; those of slots that are not used are whatever was there. -/
structure HashSet where
  size : ℕ
  used : List (BitVec 32)
  keys : List (BitVec 64)
  size_pos : 0 < size
  fits : 8 * size < 2 ^ 64
  used_length : used.length = ggmlBitsetSize size
  keys_length : keys.length = size

section Size

def primes : List ℕ :=
  [2, 3, 5, 11, 17, 37, 67, 131, 257, 521, 1031, 2053, 4099, 8209, 16411, 32771, 65537, 131101, 262147, 524309, 1048583,
    2097169, 4194319, 8388617, 16777259, 33554467, 67108879, 134217757, 268435459, 536870923, 1073741827, 2147483659]

def searchPrimes (minSz : ℕ) : ℕ → ℕ → ℕ → ℕ
  | 0, l, _ => l
  | fuel + 1, l, r =>
    if l < r then
      if primes.getD ((l + r) / 2) 0 < minSz then searchPrimes minSz fuel ((l + r) / 2 + 1) r
      else searchPrimes minSz fuel l ((l + r) / 2)
    else l

def ggmlHashSize (minSz : ℕ) : ℕ :=
  let l := searchPrimes minSz primes.length 0 primes.length
  if l < primes.length then primes.getD l 0 else minSz ||| 1

theorem ggmlHashSize_pos (minSz : ℕ) : 0 < ggmlHashSize minSz := by
  have hprimes : ∀ p ∈ primes, 0 < p := by decide
  unfold ggmlHashSize
  dsimp only
  split
  · rename_i hlt
    rw [List.getD_eq_getElem?_getD, List.getElem?_eq_getElem hlt]
    exact hprimes _ (List.getElem_mem hlt)
  · exact Nat.lt_of_lt_of_le Nat.one_pos Nat.right_le_or

end Size

def ggmlHashSetNew (minSz : ℕ) (keys : List (BitVec 64)) (hkeys : keys.length = ggmlHashSize minSz)
    (hfits : 8 * ggmlHashSize minSz < 2 ^ 64) : HashSet where
  size := ggmlHashSize minSz
  used := List.replicate (ggmlBitsetSize (ggmlHashSize minSz)) 0#32
  keys := keys
  size_pos := ggmlHashSize_pos minSz
  fits := hfits
  used_length := List.length_replicate
  keys_length := hkeys

def ggmlHashSetReset (s : HashSet) : HashSet :=
  { s with used := List.replicate (ggmlBitsetSize s.size) 0#32, used_length := List.length_replicate }

def ggmlHash (key : BitVec 64) : ℕ := key.toNat >>> 4

theorem fill_used_length (s : HashSet) (i : ℕ) : (ggmlBitsetSet s.used i).length = ggmlBitsetSize s.size :=
  (ggmlBitsetSet_length s.used i).trans s.used_length

theorem fill_keys_length (s : HashSet) (i : ℕ) (key : BitVec 64) : (s.keys.set i key).length = s.size :=
  List.length_set.trans s.keys_length

def fill (s : HashSet) (i : ℕ) (key : BitVec 64) : HashSet :=
  { s with used := ggmlBitsetSet s.used i, keys := s.keys.set i key, used_length := fill_used_length s i, keys_length := fill_keys_length s i key }

section Loops

variable (s : HashSet) (key : BitVec 64) (h : ℕ)

/-- The loop of `ggml_hash_find` at slot `i`; no value when the fuel is out. -/
def findLoop : ℕ → ℕ → Option ℕ
  | 0, _ => none
  | fuel + 1, i =>
    if ggmlBitsetGet s.used i ∧ s.keys.getD i 0 ≠ key then
      if (i + 1) % s.size = h then some hashsetFull else findLoop fuel ((i + 1) % s.size)
    else some i

def ggmlHashFind : Option ℕ := findLoop s key (ggmlHash key % s.size) s.size (ggmlHash key % s.size)

def ggmlHashContains : Option Bool := do
  let i ← ggmlHashFind s key
  pure (i ≠ hashsetFull && ggmlBitsetGet s.used i)

inductive Stop where
  | fatalError
  | noEnd
  deriving DecidableEq

/-- The loop of the two functions that insert; they differ in what they return for a key that is there. -/
def insertLoop (found : ℕ → ℕ) : ℕ → ℕ → Except Stop (HashSet × ℕ)
  | 0, _ => .error .noEnd
  | fuel + 1, i =>
    if ggmlBitsetGet s.used i = false then .ok (fill s i key, i)
    else if s.keys.getD i 0 = key then .ok (s, found i)
    else if (i + 1) % s.size ≠ h then insertLoop found fuel ((i + 1) % s.size)
    else .error .fatalError

def ggmlHashInsert : Except Stop (HashSet × ℕ) :=
  insertLoop s key (ggmlHash key % s.size) (fun _ => hashsetAlreadyExists) s.size (ggmlHash key % s.size)

def ggmlHashFindOrInsert : Except Stop (HashSet × ℕ) :=
  insertLoop s key (ggmlHash key % s.size) (fun i => i) s.size (ggmlHash key % s.size)

end Loops

end PyannoteCpp.HashSets
