import Mathlib.Data.List.TakeWhile
import PyannoteCpp.ByteStream
import PyannoteCpp.GgmlTensor

set_option autoImplicit false

/-!
# GGUF contexts and the calls that build them

A context is a list of key-value pairs and a list of tensor infos with the
alignment of the data behind them. Strings that pass through a `char` pointer end
at the first zero byte. A failed assertion, an abort, a division by zero and an
exception end the call with a fault; memory is not modelled otherwise.
-/
namespace PyannoteCpp.Gguf

inductive Fault where
  | assertion
  | abort
  | divisionByZero
  | lengthError
  | outOfBounds
  deriving DecidableEq

/-- `std::string::max_size()` of the C++ library. -/
structure CxxLibrary where
  stringMax : ℕ
  large : 2 ^ 62 - 1 ≤ stringMax
  signed : stringMax < 2 ^ 63

/-- `std::vector::max_size()` for elements of a number of bytes. -/
def vectorMax (bytes : ℕ) : ℕ := (2 ^ 63 - 1) / bytes

def sizeofString : ℕ := 32
def sizeofKv : ℕ := 88
def sizeofTensorInfo : ℕ := 344

@[ext]
structure CString where
  bytes : List UInt8
  noNul : 0 ∉ bytes
  deriving DecidableEq

def cStr (s : List UInt8) : CString where
  bytes := s.takeWhile (· ≠ 0)
  noNul h := by simpa using List.mem_takeWhile_imp h

theorem cStr_bytes (s : CString) : cStr s.bytes = s := by
  have hall : ∀ b ∈ s.bytes, (decide (b ≠ 0)) = true := fun b hb =>
    decide_eq_true (fun hzero => s.noNul (hzero ▸ hb))
  exact CString.ext (List.takeWhile_eq_self_iff.mpr hall)

inductive GgufType where
  | uint8 | int8 | uint16 | int16 | uint32 | int32 | float32 | bool | string | array | uint64 | int64 | float64
  deriving DecidableEq

namespace GgufType

def all : List GgufType :=
  [uint8, int8, uint16, int16, uint32, int32, float32, bool, string, array, uint64, int64, float64]

def code : GgufType → ℕ
  | uint8 => 0 | int8 => 1 | uint16 => 2 | int16 => 3 | uint32 => 4 | int32 => 5 | float32 => 6 | bool => 7
  | string => 8 | array => 9 | uint64 => 10 | int64 => 11 | float64 => 12

def ofCode? (n : ℕ) : Option GgufType := all.find? (fun t => t.code = n)

/-- `gguf_type_size`; strings and arrays have no size. -/
def size : GgufType → ℕ
  | uint8 | int8 | bool => 1
  | uint16 | int16 => 2
  | uint32 | int32 | float32 => 4
  | uint64 | int64 | float64 => 8
  | string | array => 0

theorem ofCode?_code (t : GgufType) : ofCode? t.code = some t := by cases t <;> rfl

theorem code_of_ofCode? {n : ℕ} {t : GgufType} (h : ofCode? n = some t) : t.code = n := by
  unfold ofCode? at h
  simpa using List.find?_some h

theorem code_lt (t : GgufType) : t.code < 13 := by cases t <;> decide

theorem size_pos {t : GgufType} (hs : t ≠ string) (ha : t ≠ array) : 0 < t.size := by
  cases t <;> first | contradiction | decide

end GgufType

structure GgufKv where
  key : List UInt8
  isArray : Bool
  type : GgufType
  data : List UInt8
  dataString : List (List UInt8)
  deriving DecidableEq

/-- A name in an array of 64 characters. -/
@[ext]
structure TensorName extends CString where
  short : bytes.length < 64
  deriving DecidableEq

def ggmlSetName (name : List UInt8) : TensorName where
  bytes := (cStr name).bytes.take 63
  noNul h := (cStr name).noNul (List.mem_of_mem_take h)
  short := by
    rw [List.length_take]
    omega

theorem ggmlSetName_bytes (name : TensorName) : ggmlSetName name.bytes = name := by
  have hstr : (cStr name.bytes).bytes = name.bytes := congrArg CString.bytes (cStr_bytes name.toCString)
  have hshort := name.short
  refine TensorName.ext ?_
  change (cStr name.bytes).bytes.take 63 = name.bytes
  rw [hstr, List.take_of_length_le (by omega)]

/-- A tensor whose rows are whole blocks. `data` is what the data pointer points to, in memory or in the
backend's buffer when there is one. -/
structure GgmlTensor where
  name : TensorName
  type : GgmlType
  ne : Dims
  nb : Strides
  data : Option (ℕ → UInt8)
  buffer : Bool
  wholeBlocks : type.blckSize ∣ ne.n0

def GgmlTensor.nbytes (t : GgmlTensor) : ℕ := ggmlNbytes t.type t.ne t.nb

structure TensorInfo where
  t : GgmlTensor
  offset : ℕ

structure GgufContext where
  version : ℕ
  kv : List GgufKv
  info : List TensorInfo
  alignment : ℕ
  offset : ℕ
  size : ℕ
  data : Option (List UInt8)

def ggufVersion : ℕ := 3
def ggufDefaultAlignment : ℕ := 32

def ggufKeyGeneralAlignment : CString where
  bytes := [103, 101, 110, 101, 114, 97, 108, 46, 97, 108, 105, 103, 110, 109, 101, 110, 116]
  noNul := by decide

def ggufInitEmpty : GgufContext := ⟨ggufVersion, [], [], ggufDefaultAlignment, 0, 0, none⟩

def ggufFindKey (kv : List GgufKv) (key : CString) : Option ℕ := kv.findIdx? (fun e => cStr e.key = key)

def ggufRemoveKey (ctx : GgufContext) (key : CString) : GgufContext :=
  match ggufFindKey ctx.kv key with
  | none => ctx
  | some i => { ctx with kv := ctx.kv.eraseIdx i }

/-- The values of the setters of a single value; floating-point numbers are their bits. -/
inductive Scalar where
  | u8 (v : BitVec 8)
  | i8 (v : BitVec 8)
  | u16 (v : BitVec 16)
  | i16 (v : BitVec 16)
  | u32 (v : BitVec 32)
  | i32 (v : BitVec 32)
  | f32 (v : BitVec 32)
  | u64 (v : BitVec 64)
  | i64 (v : BitVec 64)
  | f64 (v : BitVec 64)
  | bool (v : Bool)
  | str (v : List UInt8)

namespace Scalar

def type : Scalar → GgufType
  | u8 _ => .uint8 | i8 _ => .int8 | u16 _ => .uint16 | i16 _ => .int16 | u32 _ => .uint32 | i32 _ => .int32
  | f32 _ => .float32 | u64 _ => .uint64 | i64 _ => .int64 | f64 _ => .float64 | bool _ => .bool | str _ => .string

def data : Scalar → List UInt8
  | u8 v | i8 v => leBytes 1 v.toNat
  | u16 v | i16 v => leBytes 2 v.toNat
  | u32 v | i32 v | f32 v => leBytes 4 v.toNat
  | u64 v | i64 v | f64 v => leBytes 8 v.toNat
  | bool v => [if v then 1 else 0]
  | str _ => []

def dataString : Scalar → List (List UInt8)
  | str v => [v]
  | _ => []

end Scalar

def makeKv (key : List UInt8) (isArray : Bool) (type : GgufType) (data : List UInt8)
    (dataString : List (List UInt8)) : Except Fault GgufKv :=
  if key = [] then .error .assertion else .ok ⟨key, isArray, type, data, dataString⟩

def emplaceBack (ctx : GgufContext) (kv : GgufKv) : Except Fault GgufContext :=
  if ctx.kv.length < vectorMax sizeofKv then .ok { ctx with kv := ctx.kv ++ [kv] } else .error .lengthError

def newString (lib : CxxLibrary) (s : CString) : Except Fault (List UInt8) :=
  if s.bytes.length ≤ lib.stringMax then .ok s.bytes else .error .lengthError

/-- `gguf_check_reserved_keys`; the value is missing for the setters of arrays. -/
def ggufCheckReservedKeys (key : List UInt8) (val : Option Scalar) : Except Fault Unit :=
  if key = ggufKeyGeneralAlignment.bytes then
    match val with
    | some (.u32 v) => if 0 < v.toNat ∧ v &&& (v - 1) = 0 then .ok () else .error .assertion
    | _ => .error .abort
  else .ok ()

section Setters

variable (lib : CxxLibrary) (ctx : GgufContext) (key : CString)

def ggufSetVal (val : Scalar) : Except Fault GgufContext := do
  let k ← newString lib key
  ggufCheckReservedKeys k (some val)
  let kv ← makeKv k false val.type val.data val.dataString
  emplaceBack (ggufRemoveKey ctx key) kv

def ggufSetValU8 (val : BitVec 8) := ggufSetVal lib ctx key (.u8 val)
def ggufSetValI8 (val : BitVec 8) := ggufSetVal lib ctx key (.i8 val)
def ggufSetValU16 (val : BitVec 16) := ggufSetVal lib ctx key (.u16 val)
def ggufSetValI16 (val : BitVec 16) := ggufSetVal lib ctx key (.i16 val)
def ggufSetValU32 (val : BitVec 32) := ggufSetVal lib ctx key (.u32 val)
def ggufSetValI32 (val : BitVec 32) := ggufSetVal lib ctx key (.i32 val)
def ggufSetValF32 (val : BitVec 32) := ggufSetVal lib ctx key (.f32 val)
def ggufSetValU64 (val : BitVec 64) := ggufSetVal lib ctx key (.u64 val)
def ggufSetValI64 (val : BitVec 64) := ggufSetVal lib ctx key (.i64 val)
def ggufSetValF64 (val : BitVec 64) := ggufSetVal lib ctx key (.f64 val)
def ggufSetValBool (val : Bool) := ggufSetVal lib ctx key (.bool val)

def ggufSetValStr (val : CString) : Except Fault GgufContext := do
  let v ← newString lib val
  ggufSetVal lib ctx key (.str v)

/-- `data` is the memory behind the pointer. -/
def ggufSetArrData (type : GgufType) (data : ℕ → UInt8) (n : ℕ) : Except Fault GgufContext := do
  let k ← newString lib key
  ggufCheckReservedKeys k none
  let nbytes := wrap64 (n * type.size)
  if vectorMax 1 < nbytes then throw .lengthError
  else do
    let kv ← makeKv k true type ((List.range nbytes).map data) []
    -- the cast takes the length modulo the size of the type
    if type.size = 0 then throw .divisionByZero
    else if nbytes % type.size ≠ 0 then throw .assertion
    else emplaceBack (ggufRemoveKey ctx key) kv

def ggufSetArrStr (data : List CString) : Except Fault GgufContext := do
  let k ← newString lib key
  ggufCheckReservedKeys k none
  if vectorMax sizeofString < data.length then throw .lengthError
  else do
    let tmp ← data.mapM (newString lib)
    let kv ← makeKv k true .string [] tmp
    emplaceBack (ggufRemoveKey ctx key) kv

end Setters

def GgufKv.getNe (kv : GgufKv) : Except Fault ℕ :=
  if kv.type = .string then
    if kv.isArray ∨ kv.dataString.length = 1 then .ok kv.dataString.length else .error .assertion
  else if kv.type.size = 0 then .error .divisionByZero
  else if kv.data.length % kv.type.size ≠ 0 then .error .assertion
  else if kv.isArray ∨ kv.data.length / kv.type.size = 1 then .ok (kv.data.length / kv.type.size)
  else .error .assertion

/-- `get_val` at an index, for the type the pair has; the bytes of the value. -/
def GgufKv.getVal (kv : GgufKv) (i : ℕ) : Except Fault (List UInt8) :=
  if kv.type = .string then
    if i + 1 ≤ kv.dataString.length then .ok (kv.dataString.getD i []) else .error .assertion
  else if kv.type.size = 0 then .error .divisionByZero
  else if kv.data.length % kv.type.size ≠ 0 then .error .assertion
  else if (i + 1) * kv.type.size ≤ kv.data.length then .ok ((kv.data.drop (i * kv.type.size)).take kv.type.size)
  else .error .assertion

/-- The value that `gguf_set_kv` hands to the setter of the type; strings have a setter of their own. -/
def Scalar.ofBytes? (type : GgufType) (bytes : List UInt8) : Option Scalar :=
  match type with
  | .uint8 => some (.u8 (.ofNat 8 (leValue bytes)))
  | .int8 => some (.i8 (.ofNat 8 (leValue bytes)))
  | .uint16 => some (.u16 (.ofNat 16 (leValue bytes)))
  | .int16 => some (.i16 (.ofNat 16 (leValue bytes)))
  | .uint32 => some (.u32 (.ofNat 32 (leValue bytes)))
  | .int32 => some (.i32 (.ofNat 32 (leValue bytes)))
  | .float32 => some (.f32 (.ofNat 32 (leValue bytes)))
  | .uint64 => some (.u64 (.ofNat 64 (leValue bytes)))
  | .int64 => some (.i64 (.ofNat 64 (leValue bytes)))
  | .float64 => some (.f64 (.ofNat 64 (leValue bytes)))
  | .bool => some (.bool (leValue bytes ≠ 0))
  | .string | .array => none

def ggufSetOne (lib : CxxLibrary) (ctx : GgufContext) (kv : GgufKv) : Except Fault GgufContext :=
  if kv.isArray then do
    let ne ← kv.getNe
    if kv.type = .string then ggufSetArrStr lib ctx (cStr kv.key) (kv.dataString.map cStr)
    else if kv.type = .array then throw .abort
    else ggufSetArrData lib ctx (cStr kv.key) kv.type (kv.data.getD · 0) ne
  else if kv.type = .array then throw .abort
  else do
    let value ← kv.getVal 0
    if kv.type = .string then ggufSetValStr lib ctx (cStr kv.key) (cStr value)
    else match Scalar.ofBytes? kv.type value with
      | some val => ggufSetVal lib ctx (cStr kv.key) val
      | none => throw .abort

def ggufSetKv (lib : CxxLibrary) (ctx src : GgufContext) : Except Fault GgufContext :=
  src.kv.foldlM (ggufSetOne lib) ctx

def ggufFindTensor (info : List TensorInfo) (name : CString) : Option ℕ :=
  info.findIdx? (fun ti => ti.t.name.toCString = name)

def TensorInfo.next (alignment : ℕ) (ti : TensorInfo) : ℕ := wrap64 (ti.offset + ggmlPad ti.t.nbytes alignment)

def ggufAddTensor (ctx : GgufContext) (tensor : GgmlTensor) : Except Fault GgufContext :=
  if (ggufFindTensor ctx.info tensor.name.toCString).isSome then .error .abort
  else if ctx.info.length < vectorMax sizeofTensorInfo then
    let offset := match ctx.info.getLast? with
      | none => 0
      | some back => back.next ctx.alignment
    .ok { ctx with info := ctx.info ++ [⟨tensor, offset⟩] }
  else .error .lengthError

/-- The loop that updates the offsets after a tensor that has changed. -/
def updateOffsets (alignment : ℕ) : TensorInfo → List TensorInfo → List TensorInfo
  | _, [] => []
  | prev, ti :: rest =>
    let ti' : TensorInfo := { ti with offset := prev.next alignment }
    ti' :: updateOffsets alignment ti' rest

def ggufSetTensorType (ctx : GgufContext) (name : CString) (type : GgmlType) : Except Fault GgufContext :=
  match ggufFindTensor ctx.info name with
  | none => .error .abort
  | some i =>
    match ctx.info[i]? with
    | none => .error .outOfBounds
    | some ti =>
      if h : type.blckSize ∣ ti.t.ne.n0 then
        let ti' : TensorInfo := { ti with t := { ti.t with type := type, nb := rowStrides type ti.t.ne, wholeBlocks := h } }
        .ok { ctx with info := ctx.info.take i ++ ti' :: updateOffsets ctx.alignment ti' (ctx.info.drop (i + 1)) }
      else .error .assertion

def ggufSetTensorData (ctx : GgufContext) (name : CString) (data : Option (ℕ → UInt8)) : Except Fault GgufContext :=
  match ggufFindTensor ctx.info name with
  | none => .error .abort
  | some i => .ok { ctx with info := ctx.info.modify i (fun ti => { ti with t := { ti.t with data := data } }) }

end PyannoteCpp.Gguf
