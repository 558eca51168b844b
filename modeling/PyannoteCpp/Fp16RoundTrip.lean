import PyannoteCpp.Fp16Rounding

set_option autoImplicit false

/-!
# Widening is exact

A number of sixteen bits is the same as a float, so narrowing it again gives its
bits back. The brain format needs no arithmetic in either direction.
-/
namespace PyannoteCpp.Fp16
open BinaryFormat BinaryRounding

section Bits

variable (h : UInt16)

def code16 : ℕ := h.toNat % 2 ^ 15

def sign16 : ℕ := h.toNat / 2 ^ 15

theorem sign16_code16 : h.toNat = sign16 h * 2 ^ 15 + code16 h ∧ sign16 h < 2 ∧ code16 h < 2 ^ 15 := by
  have hlt := h.toNat_lt
  unfold sign16 code16
  omega

theorem number_code16 (format : Format) : number format h = format.decode (decide (sign16 h = 1)) (code16 h) := by
  obtain ⟨hword, hsign, hcode⟩ := sign16_code16 h
  exact number_of_toNat hword hsign hcode

theorem shifted_toNat : (h.toUInt32 <<< 16).toNat = sign16 h * 2 ^ 31 + code16 h * 2 ^ 16 := by
  obtain ⟨hword, hsign, hcode⟩ := sign16_code16 h
  have hshift : (16 : UInt32).toNat % 32 = 16 := rfl
  rw [UInt32.toNat_shiftLeft, UInt16.toNat_toUInt32, hshift, Nat.shiftLeft_eq]
  omega

theorem twoW_toNat : (h.toUInt32 <<< 16 + h.toUInt32 <<< 16).toNat = code16 h * 2 ^ 17 := by
  obtain ⟨-, -, hcode⟩ := sign16_code16 h
  rw [twice_toNat, code, shifted_toNat]
  omega

theorem signMask_toNat : (h.toUInt32 <<< 16 &&& 0x80000000).toNat = sign16 h * 2 ^ 31 := by
  obtain ⟨-, hsign, hcode⟩ := sign16_code16 h
  have hmask := toNat_and_mask (h.toUInt32 <<< 16) (m := 0x80000000) 31 1 rfl
  rw [hmask, shifted_toNat]
  omega

theorem number32_or {sign m : UInt32} {s : ℕ} (hsign : sign.toNat = s * 2 ^ 31) :
    code (sign ||| m) = code m ∧ (signBit m = 0 → signBit (sign ||| m) = s) := by
  constructor
  · unfold code
    rw [UInt32.toNat_or, Nat.or_mod_two_pow, hsign, Nat.mul_mod_left, Nat.zero_or]
  · intro hzero
    have hm : m.toNat < 2 ^ 31 := by
      have := signBit_code m
      omega
    have hor := toNat_or_disjoint (w := sign) (m := m) 31 (a := s) (by omega) hm
    unfold signBit
    rw [hor, hsign]
    omega

end Bits

section Widening

variable (p : Processor) (h : UInt16)

theorem denormalized_toNat (hsmall : code16 h < 2 ^ 10) :
    (((h.toUInt32 <<< 16 + h.toUInt32 <<< 16) >>> 17) ||| ((126 : UInt32) <<< 23)).toNat = 126 * 2 ^ 23 + code16 h := by
  have hcode : ((h.toUInt32 <<< 16 + h.toUInt32 <<< 16) >>> 17).toNat = code16 h := by
    have hshift : (17 : UInt32).toNat % 32 = 17 := rfl
    rw [UInt32.toNat_shiftRight, twoW_toNat, hshift, Nat.shiftRight_eq_div_pow]
    omega
  have hmagic : ((126 : UInt32) <<< 23).toNat = 2 ^ 23 * 126 := rfl
  rw [UInt32.toNat_or, Nat.or_comm, ← UInt32.toNat_or, toNat_or_disjoint 23 hmagic (by rw [hcode]; omega), hcode, hmagic]
  omega

theorem normalized_toNat :
    (((h.toUInt32 <<< 16 + h.toUInt32 <<< 16) >>> 4) + ((0xE0 : UInt32) <<< 23)).toNat = 224 * 2 ^ 23 + code16 h * 2 ^ 13 := by
  obtain ⟨-, -, hcode⟩ := sign16_code16 h
  have hshift : (4 : UInt32).toNat % 32 = 4 := rfl
  have hoffset : ((0xE0 : UInt32) <<< 23).toNat = 224 * 2 ^ 23 := rfl
  rw [UInt32.toNat_add, UInt32.toNat_shiftRight, twoW_toNat, hshift, hoffset, Nat.shiftRight_eq_div_pow]
  omega

theorem half_denormal (hsmall : code16 h < 2 ^ 10) : binary16.value (code16 h) = code16 h * 2 ^ (-24 : ℤ) := by
  have hvalue := Format.value_code (f := binary16) (s := 0) (n := code16 h) (by
    rw [show binary16.bits = 10 from rfl]
    omega) (.inl rfl)
  rw [Nat.zero_mul, Nat.zero_add, half_step] at hvalue
  exact hvalue

theorem number32_nonneg {w : UInt32} {k : ℕ} (hw : w.toNat = k) (hk : k < 2 ^ 31) : number32 w = binary32.decode false k := by
  have hcode : code w = k := by
    unfold code
    omega
  have hsign : signBit w = 0 := by
    unfold signBit
    omega
  rw [number32_code, hcode, hsign]
  rfl

theorem denormalized_number (hsmall : code16 h < 2 ^ 10) :
    number32 (p.sub (((h.toUInt32 <<< 16 + h.toUInt32 <<< 16) >>> 17) ||| ((126 : UInt32) <<< 23)) 0x3F000000) =
      .finite false (binary16.value (code16 h)) := by
  have hoperand := number32_nonneg (denormalized_toNat h hsmall) (by omega)
  have hvalue : binary32.value (126 * 2 ^ 23 + code16 h) = 2 ^ (-1 : ℤ) + code16 h * 2 ^ (-24 : ℤ) := by
    have hcode := Format.value_code (f := binary32) (s := 125) (n := 2 ^ 23 + code16 h) (by
      rw [show binary32.bits = 23 from rfl]
      omega) (.inr (Nat.le_add_right _ _))
    rw [show 125 * 2 ^ binary32.bits + (2 ^ 23 + code16 h) = 126 * 2 ^ 23 + code16 h by
      rw [show binary32.bits = 23 from rfl]
      omega] at hcode
    rw [hcode, single_step]
    norm_num
    ring
  have hbias : number32 0x3F000000 = .finite false (2 ^ (-1 : ℤ)) := number32_power (t := 125) rfl (by norm_num)
  have hnonneg : (0 : ℚ) ≤ code16 h * 2 ^ (-24 : ℤ) := by positivity
  have hsmallCast : (code16 h : ℚ) < 2 ^ 10 := by exact_mod_cast hsmall
  rw [Format.decode_lt (by rw [show binary32.infinity = 255 * 2 ^ 23 from rfl]; omega), hvalue] at hoperand
  unfold Processor.sub
  rw [hoperand, hbias, Number.sub_nonneg (by linarith), half_denormal h hsmall, add_sub_cancel_left]
  refine number32_result p ⟨code16 h, 125, ?_, ?_⟩ ?_
  · rw [show binary32.bits = 23 from rfl]
    omega
  · rw [single_step]
    norm_num
  · rw [value_infinity]
    norm_num
    linarith

theorem normalized_number (hnormal : 2 ^ 10 ≤ code16 h) :
    number32 (p.mul (((h.toUInt32 <<< 16 + h.toUInt32 <<< 16) >>> 4) + ((0xE0 : UInt32) <<< 23)) 0x07800000) =
      binary16.decode false (code16 h) := by
  obtain ⟨-, -, hcode⟩ := sign16_code16 h
  have hinf : binary32.infinity = 255 * 2 ^ 23 := rfl
  have hhalf : binary16.infinity = 31 * 2 ^ 10 := rfl
  have hoperand := number32_nonneg (normalized_toNat h) (by omega)
  have hscale : number32 0x07800000 = .finite false (2 ^ (-112 : ℤ)) := number32_power (t := 14) rfl (by norm_num)
  rcases lt_trichotomy (code16 h) binary16.infinity with hfinite | hinfinite | hnan
  · obtain ⟨hsplit, hlt, hlow⟩ := Format.belongs_binade binary16 (code16 h)
    have hhalfValue : binary16.value (code16 h) =
        binary16.significand (code16 h) * 2 ^ (-24 + (binary16.binade (code16 h) : ℤ)) := rfl
    generalize binary16.binade (code16 h) = b at hsplit hlt hlow hhalfValue
    generalize binary16.significand (code16 h) = n at hsplit hlt hlow hhalfValue
    rw [show binary16.bits = 10 from rfl] at hsplit hlt hlow
    have hwide : 224 * 2 ^ 23 + code16 h * 2 ^ 13 = (b + 224) * 2 ^ 23 + n * 2 ^ 13 := by omega
    have hsingle := Format.value_code (f := binary32) (s := b + 224) (n := n * 2 ^ 13) (by
      rw [show binary32.bits = 23 from rfl]
      omega) (.inr (by
      rw [show binary32.bits = 23 from rfl]
      omega))
    rw [show binary32.bits = 23 from rfl, ← hwide, single_step] at hsingle
    have hvalue : binary32.value (224 * 2 ^ 23 + code16 h * 2 ^ 13) * 2 ^ (-112 : ℤ) = binary16.value (code16 h) := by
      have hpower : -24 + (b : ℤ) = 13 + (-149 + ((b + 224 : ℕ) : ℤ)) + -112 := by omega
      have hthirteen : (2 : ℚ) ^ (13 : ℤ) = 2 ^ 13 := by norm_num
      rw [hsingle, hhalfValue, hpower, zpow_add₀ two_ne_zero (13 + _) (-112), zpow_add₀ two_ne_zero 13, hthirteen]
      push_cast
      ring
    have hexact : binary32.Exact (binary16.value (code16 h)) := by
      have hpower : -24 + (b : ℤ) = -149 + ((b + 125 : ℕ) : ℤ) := by omega
      refine ⟨n, b + 125, ?_, by rw [single_step, hhalfValue, hpower]⟩
      rw [show binary32.bits = 23 from rfl]
      omega
    have hbelow : binary16.value (code16 h) < binary32.value binary32.infinity := by
      have hlast := Format.value_strictMono (f := binary16) hfinite
      rw [half_infinity] at hlast
      rw [value_infinity]
      norm_num at hlast ⊢
      linarith
    rw [Format.decode_lt (by omega)] at hoperand
    rw [Format.decode_lt hfinite, mul_exact p hoperand hscale (by rw [hvalue]; exact hexact) (by rw [hvalue]; exact hbelow), hvalue]
  · rw [show 224 * 2 ^ 23 + code16 h * 2 ^ 13 = binary32.infinity by omega, Format.decode_infinity] at hoperand
    rw [hinfinite, Format.decode_infinity]
    exact mul_infinite p hoperand hscale (by norm_num)
  · rw [Format.decode_nan (by omega)] at hoperand
    rw [Format.decode_nan hnan]
    unfold Processor.mul
    rw [hoperand, Number.mul]
    exact number32_nan p

theorem number32_signed {sign m : UInt32} {s k : ℕ} (hsign : sign.toNat = s * 2 ^ 31)
    (hm : number32 m = binary16.decode false k) : number32 (sign ||| m) = binary16.decode (decide (s = 1)) k := by
  obtain ⟨hcode, hbit⟩ := number32_or (m := m) hsign
  rw [number32_code] at hm
  rw [number32_code, hcode]
  rcases Nat.lt_or_ge binary16.infinity k with hnan | hnumber
  · rw [Format.decode_nan hnan] at hm ⊢
    rw [← Format.withSign_decode _ (decide (signBit m = 1)), hm]
    rfl
  · have hpositive := of_decide_eq_false (Format.sign_of_decode hm hnumber)
    have hzero : signBit m = 0 := by
      have hlt := (signBit_code m).2.1
      omega
    rw [hbit hzero, ← Format.withSign_decode _ (decide (signBit m = 1)), hm, Format.withSign_decode]

/-- The float has the value of the sixteen bits. -/
theorem number32_computeFp16ToFp32 : number32 (computeFp16ToFp32 p h) = number binary16 h := by
  obtain ⟨-, hsign, hcode⟩ := sign16_code16 h
  have hcutoff : h.toUInt32 <<< 16 + h.toUInt32 <<< 16 < (1 : UInt32) <<< 27 ↔ code16 h < 2 ^ 10 := by
    have hlimit : ((1 : UInt32) <<< 27).toNat = 2 ^ 27 := rfl
    rw [UInt32.lt_iff_toNat_lt, twoW_toNat, hlimit]
    omega
  unfold computeFp16ToFp32
  dsimp only
  rw [number_code16]
  refine number32_signed (signMask_toNat h) ?_
  by_cases hsmall : code16 h < 2 ^ 10
  · have hfinite : code16 h < binary16.infinity := hsmall.trans (by decide)
    rw [if_pos (hcutoff.mpr hsmall), denormalized_number p h hsmall, Format.decode_lt hfinite]
  · rw [if_neg (fun hlt => hsmall (hcutoff.mp hlt)), normalized_number p h (not_lt.mp hsmall)]

end Widening

section Brain

theorem brain_step (s : ℕ) : brain16.step s = 2 ^ (-133 + (s : ℤ)) := rfl

theorem brain_step_eq (s : ℕ) : brain16.step s = 2 ^ 16 * binary32.step s := by
  have hpower : -133 + (s : ℤ) = 16 + (-149 + (s : ℤ)) := by ring
  rw [brain_step, single_step, hpower, zpow_add₀ two_ne_zero 16]
  norm_num

theorem value_brain (k : ℕ) : binary32.value (k * 2 ^ 16) = brain16.value k := by
  obtain ⟨hk, hlt, hlow⟩ := Format.belongs_binade brain16 k
  have hvalue : brain16.value k = brain16.significand k * brain16.step (brain16.binade k) := rfl
  rw [brain_step_eq] at hvalue
  generalize brain16.binade k = b at hk hlow hvalue
  generalize brain16.significand k = n at hk hlt hlow hvalue
  rw [show brain16.bits = 7 from rfl] at hk hlt hlow
  have hcode : k * 2 ^ 16 = b * 2 ^ 23 + n * 2 ^ 16 := by omega
  have hsingle := Format.value_code (f := binary32) (s := b) (n := n * 2 ^ 16) (by
    rw [show binary32.bits = 23 from rfl]
    omega) (by
    rw [show binary32.bits = 23 from rfl]
    omega)
  rw [show binary32.bits = 23 from rfl, ← hcode] at hsingle
  rw [hsingle, hvalue]
  push_cast
  ring

theorem number32_computeBf16ToFp32 (h : UInt16) : number32 (computeBf16ToFp32 h) = number brain16 h := by
  obtain ⟨-, hsign, hcode⟩ := sign16_code16 h
  have hinf : binary32.infinity = 255 * 2 ^ 23 := rfl
  have hbrain : brain16.infinity = 255 * 2 ^ 7 := rfl
  have hword : code (computeBf16ToFp32 h) = code16 h * 2 ^ 16 ∧ signBit (computeBf16ToFp32 h) = sign16 h := by
    unfold code signBit computeBf16ToFp32
    rw [shifted_toNat]
    omega
  rw [number32_code, number_code16, hword.1, hword.2]
  rcases lt_trichotomy (code16 h) brain16.infinity with hlt | heq | hgt
  · rw [Format.decode_lt hlt, Format.decode_lt (by omega), value_brain]
  · rw [heq, Format.decode_infinity, show brain16.infinity * 2 ^ 16 = binary32.infinity from rfl, Format.decode_infinity]
  · rw [Format.decode_nan hgt, Format.decode_nan (by omega)]

theorem brain_nearest (k : ℕ) : brain16.nearest (binary32.value k) = (k + (0x7FFF + k / 2 ^ 16 % 2)) / 2 ^ 16 := by
  obtain ⟨hk, hlt, hlow⟩ := Format.belongs_binade binary32 k
  have hvalue : binary32.value k = binary32.significand k * binary32.step (binary32.binade k) := rfl
  generalize binary32.binade k = b at hk hlow hvalue
  generalize binary32.significand k = n at hk hlt hlow hvalue
  rw [show binary32.bits = 23 from rfl] at hk hlt hlow
  have hstep := Format.step_pos (f := binary32) b
  have hltCast : (n : ℚ) < 2 ^ 24 := by exact_mod_cast hlt
  have hnearest := Format.nearest_eq (f := brain16) (s := b) (x := binary32.value k) (Format.value_nonneg k) (by
    rw [hvalue, brain_step_eq, show brain16.bits + 1 = 8 from rfl, ← mul_assoc]
    exact mul_lt_mul_of_pos_right (by linarith) hstep) (hlow.imp id (fun hlow => by
    have hlowCast : (2 : ℚ) ^ 23 ≤ n := by exact_mod_cast hlow
    rw [hvalue, brain_step_eq, show brain16.bits = 7 from rfl, ← mul_assoc]
    exact mul_le_mul_of_nonneg_right (by linarith) hstep.le))
  have hquotient : binary32.value k / brain16.step b = (n : ℚ) / (2 * 2 ^ 15 : ℕ) := by
    rw [hvalue, brain_step_eq, mul_div_mul_right _ _ hstep.ne']
    norm_num
  rw [hnearest, hquotient, Format.roundEven_div n (Nat.two_pow_pos 15), show brain16.bits = 7 from rfl]
  omega

theorem isNan_iff (f : UInt32) : f &&& 0x7FFFFFFF > 0x7F800000 ↔ binary32.infinity < code f := by
  have hlimit : (0x7F800000 : UInt32).toNat = 255 * 2 ^ 23 := rfl
  have hinf : binary32.infinity = 255 * 2 ^ 23 := rfl
  have habs : (f &&& 0x7FFFFFFF).toNat = code f := fabsf_toNat f
  rw [gt_iff_lt, UInt32.lt_iff_toNat_lt, habs, hlimit, hinf]

theorem computeFp32ToBf16_toNat (f : UInt32) (hle : code f ≤ binary32.infinity) :
    (computeFp32ToBf16 f).toNat = signBit f * 2 ^ 15 + brain16.round (binary32.value (code f)) := by
  obtain ⟨hword, hsign, hcode⟩ := signBit_code f
  have hinf : binary32.infinity = 255 * 2 ^ 23 := rfl
  have hodd : ((f >>> 16) &&& 1).toNat = code f / 2 ^ 16 % 2 := by
    have hmask := toNat_and_mask (f >>> 16) (m := 1) 0 1 rfl
    have hshift : (16 : UInt32).toNat % 32 = 16 := rfl
    rw [hmask, UInt32.toNat_shiftRight, hshift, Nat.shiftRight_eq_div_pow]
    omega
  have hbias : (0x7FFF : UInt32).toNat = 0x7FFF := rfl
  have hshift : (16 : UInt32).toNat % 32 = 16 := rfl
  unfold computeFp32ToBf16
  dsimp only
  rw [if_neg (fun hnan => not_lt.mpr hle ((isNan_iff f).mp hnan)), UInt32.toNat_toUInt16, UInt32.toNat_shiftRight, hshift,
    Nat.shiftRight_eq_div_pow, UInt32.toNat_add, UInt32.toNat_add, hodd, hbias, Format.round, brain_nearest,
    min_eq_left (by rw [show brain16.infinity = 255 * 2 ^ 7 from rfl]; omega)]
  omega

theorem computeFp32ToBf16_nan (f : UInt32) (hnan : binary32.infinity < code f) :
    number brain16 (computeFp32ToBf16 f) = .nan := by
  obtain ⟨hword, hsign, hcode⟩ := signBit_code f
  have hinf : binary32.infinity = 255 * 2 ^ 23 := rfl
  have hbits : (computeFp32ToBf16 f).toNat = f.toNat / 2 ^ 16 ||| 64 := by
    have hshift : (16 : UInt32).toNat % 32 = 16 := rfl
    have hquiet : (64 : UInt32).toNat = 64 := rfl
    have hroom : f.toNat / 2 ^ 16 ||| 64 < 2 ^ 16 := Nat.or_lt_two_pow (by have := f.toNat_lt; omega) (by norm_num)
    unfold computeFp32ToBf16
    rw [if_pos ((isNan_iff f).mpr hnan), UInt32.toNat_toUInt16, UInt32.toNat_or, UInt32.toNat_shiftRight, hshift,
      Nat.shiftRight_eq_div_pow, hquiet, Nat.mod_eq_of_lt hroom]
  have hcut : code16 (computeFp32ToBf16 f) = code f / 2 ^ 16 ||| 64 := by
    unfold code16
    rw [hbits, Nat.or_mod_two_pow]
    congr 1
    unfold code
    omega
  rw [number_code16, Format.decode_nan]
  rw [hcut, show brain16.infinity = 255 * 2 ^ 7 from rfl]
  rcases Nat.lt_or_ge (255 * 2 ^ 7) (code f / 2 ^ 16) with hlt | hle
  · exact hlt.trans_le Nat.left_le_or
  · have heq : code f / 2 ^ 16 = 255 * 2 ^ 7 := by omega
    rw [heq]
    decide

theorem narrowed_brain (f : UInt32) : Narrowed brain16 (computeFp32ToBf16 f) (number32 f) := by
  have hroom : brain16.infinity < 2 ^ 15 := by decide
  have hnan : binary32.infinity < code f → number brain16 (computeFp32ToBf16 f) = .nan := computeFp32ToBf16_nan f
  apply narrowed_of_toNat hroom hnan
  intro hle
  rw [computeFp32ToBf16_toNat f hle]
  split_ifs with hinf
  · have hwide : binary32.infinity = brain16.infinity * 2 ^ 16 := by
      rw [show binary32.infinity = 255 * 2 ^ 23 from rfl, show brain16.infinity = 255 * 2 ^ 7 from rfl]
      norm_num
    rw [hinf, hwide, value_brain, Format.round_value le_rfl]
  · rfl

/-- The same for the brain format. -/
theorem computeFp32ToBf16_nearest (f : UInt32) : Narrowed brain16 (computeFp32ToBf16 f) (number32 f) :=
  narrowed_brain f

end Brain

section RoundTrip

variable {format : Format} {h : UInt16}

theorem narrowed_self {g : UInt16} (hnumber : number format h ≠ .nan) (hg : Narrowed format g (number format h)) : g = h := by
  obtain ⟨hword, hsign, -⟩ := sign16_code16 h
  obtain ⟨hword', hsign', -⟩ := sign16_code16 g
  apply UInt16.toNat_inj.mp
  rw [number_code16] at hnumber hg
  rcases lt_trichotomy (code16 h) format.infinity with hlt | heq | hgt
  · rw [Format.decode_lt hlt] at hg
    obtain ⟨⟩ | ⟨⟩ | ⟨_, _, n, hnear, hbits⟩ := hg
    rw [hnear.eq, min_eq_left hlt.le] at hbits
    rw [hbits, hword]
    have hcases : sign16 h = 0 ∨ sign16 h = 1 := by omega
    rcases hcases with hzero | hone
    · rw [hzero]
      rfl
    · rw [hone]
      rfl
  · rw [heq, Format.decode_infinity] at hg
    obtain ⟨⟩ | ⟨_, hbits⟩ | ⟨⟩ := hg
    rw [number_code16] at hbits
    have hinfinite : format.decode (decide (sign16 g = 1)) (code16 g) =
        format.decode (decide (sign16 h = 1)) format.infinity := hbits.trans (Format.decode_infinity _).symm
    have hsame := decide_eq_decide.mp (Format.sign_of_decode hinfinite le_rfl)
    have hcode : code16 g = format.infinity := by
      unfold Format.decode at hbits
      split_ifs at hbits with hover hend
      exact hend
    rw [hword', hword, hcode, heq]
    omega
  · exact absurd (Format.decode_nan hgt) hnumber

/-- Both conversions to a float keep the number, and the conversions back return the bits of every number. -/
theorem widened_narrowed (p q : Processor) (h : UInt16) :
    (number32 (computeFp16ToFp32 p h) = number binary16 h ∧
      (number binary16 h ≠ .nan → computeFp32ToFp16 q (computeFp16ToFp32 p h) = h)) ∧
      number32 (computeBf16ToFp32 h) = number brain16 h ∧
        (number brain16 h ≠ .nan → computeFp32ToBf16 (computeBf16ToFp32 h) = h) := by
  have hhalf := number32_computeFp16ToFp32 p h
  have hbrain := number32_computeBf16ToFp32 h
  have hhalfBack := narrowed_half q (computeFp16ToFp32 p h)
  have hbrainBack := narrowed_brain (computeBf16ToFp32 h)
  rw [hhalf] at hhalfBack
  rw [hbrain] at hbrainBack
  constructor
  · constructor
    · exact hhalf
    · intro hnumber
      exact narrowed_self hnumber hhalfBack
  · constructor
    · exact hbrain
    · intro hnumber
      exact narrowed_self hnumber hbrainBack

end RoundTrip

end PyannoteCpp.Fp16
