import PyannoteCpp.BinaryNumber

set_option autoImplicit false

/-!
# Half precision

Floats are their bits. Products and sums are those of the processor, which
rounds to nearest and makes a NaN of its own choice.
-/
namespace PyannoteCpp.Fp16
open BinaryFormat

theorem single_bits_pos : 0 < 23 := by norm_num

theorem half_bits_pos : 0 < 10 := by norm_num

theorem brain_bits_pos : 0 < 7 := by norm_num

def binary32 : Format := ⟨23, -149, 255 * 2 ^ 23, single_bits_pos⟩

def binary16 : Format := ⟨10, -24, 31 * 2 ^ 10, half_bits_pos⟩

def brain16 : Format := ⟨7, -133, 255 * 2 ^ 7, brain_bits_pos⟩

def number32 (w : UInt32) : Number := binary32.decode (2 ^ 31 ≤ w.toNat) (w.toNat % 2 ^ 31)

def number (format : Format) (h : UInt16) : Number := format.decode (2 ^ 15 ≤ h.toNat) (h.toNat % 2 ^ 15)

structure Processor where
  nan : UInt32 → UInt32 → UInt32
  nan_isNan : ∀ a b, number32 (nan a b) = .nan

namespace Processor

variable (p : Processor)

def result (a b : UInt32) (x : Number) : UInt32 :=
  match binary32.encode x with
  | none => p.nan a b
  | some (negative, code) => UInt32.ofNat (if negative then 2 ^ 31 + code else code)

def mul (a b : UInt32) : UInt32 := p.result a b (.mul (number32 a) (number32 b))

def add (a b : UInt32) : UInt32 := p.result a b (.add (number32 a) (number32 b))

def sub (a b : UInt32) : UInt32 := p.result a b (.sub (number32 a) (number32 b))

end Processor

def fabsf (w : UInt32) : UInt32 := w &&& 0x7FFFFFFF

section Conversions

variable (p : Processor)

def computeFp16ToFp32 (h : UInt16) : UInt32 :=
  let w := h.toUInt32 <<< 16
  let sign := w &&& 0x80000000
  let twoW := w + w
  let expOffset  := (0xE0 : UInt32) <<< 23
  -- 0x1.0p-112f
  let expScale : UInt32 := 0x07800000
  let normalizedValue := p.mul ((twoW >>> 4) + expOffset) expScale
  let magicMask  := (126 : UInt32) <<< 23
  -- 0.5f
  let magicBias : UInt32 := 0x3F000000
  let denormalizedValue := p.sub ((twoW >>> 17) ||| magicMask) magicBias
  let denormalizedCutoff  := (1 : UInt32) <<< 27
  sign ||| (if twoW < denormalizedCutoff then denormalizedValue else normalizedValue)

def computeFp32ToFp16 (f : UInt32) : UInt16 :=
  -- 0x1.0p+112f and 0x1.0p-110f
  let scaleToInf : UInt32 := 0x77800000
  let scaleToZero : UInt32 := 0x08800000
  let base := p.mul (p.mul (fabsf f) scaleToInf) scaleToZero
  let w := f
  let shl1W := w + w
  let sign := w &&& 0x80000000
  let bias := shl1W &&& 0xFF000000
  let bias := if bias < 0x71000000 then 0x71000000 else bias
  let base := p.add ((bias >>> 1) + 0x07800000) base
  let bits := base
  let expBits := (bits >>> 13) &&& 0x00007C00
  let mantissaBits := bits &&& 0x00000FFF
  let nonsign := expBits + mantissaBits
  ((sign >>> 16) ||| (if shl1W > 0xFF000000 then 0x7E00 else nonsign)).toUInt16

end Conversions

def computeBf16ToFp32 (h : UInt16) : UInt32 := h.toUInt32 <<< 16

def computeFp32ToBf16 (s : UInt32) : UInt16 :=
  if s &&& 0x7FFFFFFF > 0x7F800000 then ((s >>> 16) ||| 64).toUInt16
  else
    let odd := (s >>> 16) &&& 1
    ((s + (0x7FFF + odd)) >>> 16).toUInt16

end PyannoteCpp.Fp16
