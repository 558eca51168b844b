import PyannoteCpp.GgufContext
import PyannoteCpp.PrefixGrammar

set_option autoImplicit false

/-!
# Reading a GGUF file

A read that comes up short and a failed check end the call without a context.
The vectors of the context grow up to `max_size`; memory is not exhausted before.
The data pointer and the buffer of a tensor info are not set by the reader.
-/
namespace PyannoteCpp.Gguf
open PrefixGrammar

/-- Why there is no context. -/
inductive Rejection where
  | magic
  | header
  | keyValue
  | alignment
  | tensorInfo
  | seek
  | offset
  | sizeOverflow
  | blob
  deriving DecidableEq

inductive Stop where
  | rejected (reason : Rejection)
  | fault (f : Fault)
  deriving DecidableEq

structure InitParams where
  noAlloc : Bool
  ctx : Bool

structure Header where
  version : ℕ
  nTensors : ℕ
  nKv : ℕ

/-- What the members of a tensor info hold that are not set. -/
structure TensorLocals where
  data : Option (ℕ → UInt8)
  buffer : Bool

def ggufMagic : List UInt8 := [71, 71, 85, 70]

def int64Max : ℕ := 2 ^ 63 - 1

def readHeader : Reader UInt8 Stop Header := do
  let magic ← readBytes (.rejected .magic) 4
  require (magic = ggufMagic) (.rejected .magic)
  let version ← readUInt (.rejected .header) 4
  -- a file of the other byte order has its version in the upper half
  require (version ≠ 0 ∧ version % 2 ^ 16 ≠ 0 ∧ version ≠ 1 ∧ version ≤ ggufVersion) (.rejected .header)
  let nTensors ← readUInt (.rejected .header) 8
  require (nTensors ≤ int64Max ∧ nTensors ≤ (2 ^ 64 - 1) / sizeofTensorInfo) (.rejected .header)
  let nKv ← readUInt (.rejected .header) 8
  require (nKv ≤ int64Max ∧ nKv ≤ (2 ^ 64 - 1) / sizeofKv) (.rejected .header)
  pure ⟨version, nTensors, nKv⟩

section Pairs

variable (lib : CxxLibrary)

/-- A length of eight bytes and the characters; the length may be more than a string can have. -/
def readString (short tooLong : Stop) : Reader UInt8 Stop (List UInt8) := do
  let size ← readUInt short 8
  require (size ≤ lib.stringMax) tooLong
  readBytes short size

structure ValueType where
  isArray : Bool
  type : GgufType
  n : ℕ

def elementType (code : ℕ) : Reader UInt8 Stop GgufType :=
  match GgufType.ofCode? code with
  | some .array | none => throw (.rejected .keyValue)
  | some type => pure type

def readType : Reader UInt8 Stop ValueType := do
  let code ← readUInt (.rejected .keyValue) 4
  if code = GgufType.array.code then do
    let code ← readUInt (.rejected .keyValue) 4
    let n ← readUInt (.rejected .keyValue) 8
    let type ← elementType code
    pure ⟨true, type, n⟩
  else do
    let type ← elementType code
    pure ⟨false, type, 1⟩

/-- A byte other than zero is read as true. -/
def normaliseBool (type : GgufType) (raw : List UInt8) : List UInt8 :=
  if type = .bool then raw.map (fun b => if b = 0 then 0 else 1) else raw

def readStrings (n : ℕ) : Reader UInt8 Stop (List (List UInt8)) :=
  turns (fun value => do
    let s ← readString lib (.rejected .keyValue) (.rejected .keyValue)
    pure (value ++ [s])) n []

def readValue (vt : ValueType) : Reader UInt8 Stop (List UInt8 × List (List UInt8)) :=
  if vt.type = .string then
    if vt.isArray then do
      require (vt.n ≤ vectorMax sizeofString) (.rejected .keyValue)
      let value ← readStrings lib vt.n
      pure ([], value)
    else do
      -- this read is not inside the try block
      let value ← readString lib (.rejected .keyValue) (.fault .lengthError)
      pure ([], [value])
  else do
    require (vt.n ≤ vectorMax vt.type.size) (.rejected .keyValue)
    let raw ← readBytes (.rejected .keyValue) (vt.n * vt.type.size)
    pure (normaliseBool vt.type raw, [])

def readKv (kvs : List GgufKv) : Reader UInt8 Stop (List GgufKv) := do
  let key ← readString lib (.rejected .keyValue) (.rejected .keyValue)
  require (∀ kv ∈ kvs, key ≠ kv.key) (.rejected .keyValue)
  let vt ← readType
  let value ← readValue lib vt
  require (kvs.length < vectorMax sizeofKv) (.fault .lengthError)
  require (key ≠ []) (.fault .assertion)
  pure (kvs ++ [⟨key, vt.isArray, vt.type, value.1, value.2⟩])

end Pairs

def ggufGetValU32 (kv : GgufKv) : Except Fault ℕ := do
  let ne ← kv.getNe
  if ne ≠ 1 then throw .assertion
  if kv.type ≠ .uint32 then throw .assertion
  let bytes ← kv.getVal 0
  pure (leValue bytes)

/-- An index stored in a variable of type `int`. -/
def toInt32 (n : ℕ) : ℤ := Int.bmod n (2 ^ 32)

def kvAlignment (kvs : List GgufKv) : Except Fault ℕ :=
  match ggufFindKey kvs ggufKeyGeneralAlignment with
  | none => .ok ggufDefaultAlignment
  | some i =>
    if toInt32 i = -1 then .ok ggufDefaultAlignment
    else if toInt32 i < 0 then .error .assertion
    else match kvs[(toInt32 i).toNat]? with
      | none => .error .assertion
      | some kv => ggufGetValU32 kv

def isPowerOfTwo (n : ℕ) : Prop := n ≠ 0 ∧ n &&& (n - 1) = 0

instance (n : ℕ) : Decidable (isPowerOfTwo n) := inferInstanceAs (Decidable (_ ∧ _))

def readAlignment (kvs : List GgufKv) : Except Stop ℕ :=
  match kvAlignment kvs with
  | .error f => .error (.fault f)
  | .ok alignment => if isPowerOfTwo alignment then .ok alignment else .error (.rejected .alignment)

section Tensors

/-- A dimension that the file has, or 1. -/
def readDim (present : Bool) : Reader UInt8 Stop ℕ :=
  if present then do
    let n ← readUInt (.rejected .tensorInfo) 8
    require (n ≤ int64Max) (.rejected .tensorInfo)
    pure n
  else pure 1

def readDims : Reader UInt8 Stop Dims := do
  let nDims ← readUInt (.rejected .tensorInfo) 4
  require (nDims ≤ 4) (.rejected .tensorInfo)
  let n0 ← readDim (0 < nDims)
  let n1 ← readDim (1 < nDims)
  let n2 ← readDim (2 < nDims)
  let n3 ← readDim (3 < nDims)
  pure ⟨n0, n1, n2, n3⟩

/-- The number of elements so far times the next dimension must stay below the largest number. -/
def checkQuotient (n elements : ℕ) : Reader UInt8 Stop Unit := do
  require (n ≠ 0) (.fault .divisionByZero)
  require (elements < int64Max / n) (.rejected .tensorInfo)

def checkElements (ne : Dims) : Reader UInt8 Stop Unit := do
  checkQuotient ne.n1 ne.n0
  checkQuotient ne.n2 (ne.n0 * ne.n1)
  checkQuotient ne.n3 (ne.n0 * ne.n1 * ne.n2)

def readTensorName (lib : CxxLibrary) (infos : List TensorInfo) : Reader UInt8 Stop TensorName := do
  let name ← readString lib (.rejected .tensorInfo) (.rejected .tensorInfo)
  require (name.length < 64) (.rejected .tensorInfo)
  require (∀ ti ∈ infos, ggmlSetName name ≠ ti.t.name) (.rejected .tensorInfo)
  pure (ggmlSetName name)

/-- The type, which has a block size that divides the row. -/
def readTensorType (n0 : ℕ) : Reader UInt8 Stop { type : GgmlType // type.blckSize ∣ n0 } := do
  let code ← readUInt (.rejected .tensorInfo) 4
  match GgmlType.ofCode? code with
  | none => throw (.rejected .tensorInfo)
  | some type => if h : type.blckSize ∣ n0 then pure ⟨type, h⟩ else throw (.rejected .tensorInfo)

def readTensorInfo (lib : CxxLibrary) (locals : ℕ → TensorLocals) (infos : List TensorInfo) :
    Reader UInt8 Stop (List TensorInfo) := do
  let name ← readTensorName lib infos
  let ne ← readDims
  checkElements ne
  let type ← readTensorType ne.n0
  -- the info is pushed even when its offset is missing
  require (infos.length < vectorMax sizeofTensorInfo) (.fault .lengthError)
  let offset ← readUInt (.rejected .tensorInfo) 8
  let t : GgmlTensor :=
    { name := name, type := type.1, ne := ne, nb := rowStrides type.1 ne, data := (locals infos.length).data
      buffer := (locals infos.length).buffer, wholeBlocks := type.2 }
  pure (infos ++ [⟨t, offset⟩])

end Tensors

/-- The size of the data section, from the offset that the next tensor must have. -/
def dataSize (alignment : ℕ) : ℕ → List TensorInfo → Except Stop ℕ
  | size, [] => .ok size
  | size, ti :: infos =>
    if ti.offset ≠ size then .error (.rejected .offset)
    else
      let paddedSize := ggmlPad ti.t.nbytes alignment
      if 2 ^ 64 - 1 - size < paddedSize then .error (.rejected .sizeOverflow)
      else dataSize alignment (size + paddedSize) infos

section Loading

def ggmlMemAlign : ℕ := 16
def ggmlObjectSize : ℕ := 32
def ggmlTensorSize : ℕ := 336
def ggmlTensorOverhead : ℕ := ggmlObjectSize + ggmlTensorSize

structure GgmlPool where
  memSize : ℕ
  curEnd : ℕ

/-- A pool of no bytes is not allocated. -/
def ggmlInit (memSize : ℕ) : Except Stop GgmlPool :=
  let padded := ggmlPad (if memSize = 0 then ggmlMemAlign else memSize) ggmlMemAlign
  if padded = 0 then .error (.fault .assertion) else .ok ⟨padded, 0⟩

/-- A new tensor with `dataSize` bytes of data in the pool. -/
def ggmlNewTensor (pool : GgmlPool) (dataSize : ℕ) : Except Stop GgmlPool :=
  let sizeNeeded := ggmlPad (wrap64 (ggmlTensorSize + dataSize)) ggmlMemAlign
  if pool.memSize < wrap64 (pool.curEnd + sizeNeeded + ggmlObjectSize) then .error (.fault .assertion)
  -- the object and the tensor are written to
  else if pool.memSize < pool.curEnd + ggmlTensorOverhead then .error (.fault .outOfBounds)
  else .ok { pool with curEnd := pool.curEnd + ggmlObjectSize + sizeNeeded }

def readBlob (pool : GgmlPool) (size : ℕ) (rest : List UInt8) : Except Stop (List UInt8) :=
  if pool.memSize < ggmlTensorOverhead + min size rest.length then .error (.fault .outOfBounds)
  else if rest.length < size then .error (.rejected .blob)
  else .ok (rest.take size)

structure LoadedTensor where
  name : TensorName
  type : GgmlType
  ne : Dims
  nb : Strides
  /-- Where its data is in the blob. -/
  dataOffset : Option ℕ
  deriving DecidableEq

structure InitResult where
  ctx : GgufContext
  tensors : Option (List LoadedTensor)

/-- The tensors without data, one object after another. -/
def newTensors (pool : GgmlPool) : ℕ → Except Stop GgmlPool
  | 0 => .ok pool
  | n + 1 => do
    let pool ← ggmlNewTensor pool 0
    newTensors pool n

def loadedTensor (loaded : Bool) (ti : TensorInfo) : LoadedTensor :=
  ⟨ti.t.name, ti.t.type, ti.t.ne, rowStrides ti.t.type ti.t.ne, if loaded then some ti.offset else none⟩

/-- The ggml context of the tensors; `rest` is the file from the data section on. -/
def loadTensors (noAlloc : Bool) (ctx : GgufContext) (rest : List UInt8) : Except Stop InitResult :=
  let n := ctx.info.length
  if noAlloc then do
    let pool ← ggmlInit (wrap64 (n * ggmlTensorOverhead))
    let _ ← newTensors pool n
    pure ⟨ctx, some (ctx.info.map (loadedTensor false))⟩
  else do
    let pool ← ggmlInit (wrap64 ((n + 1) * ggmlTensorOverhead + ctx.size))
    let pool ← ggmlNewTensor pool ctx.size
    let blob ← readBlob pool ctx.size rest
    let _ ← newTensors pool n
    pure ⟨{ ctx with data := some blob }, some (ctx.info.map (loadedTensor true))⟩

end Loading

/-- The header, the pairs, the alignment they ask for and the tensor infos. -/
def readMeta (lib : CxxLibrary) (locals : ℕ → TensorLocals) :
    Reader UInt8 Stop (Header × List GgufKv × ℕ × List TensorInfo) := do
  let header ← readHeader
  let kvs ← turns (readKv lib) header.nKv []
  let alignment ← (readAlignment kvs : Except Stop ℕ)
  let infos ← turns (readTensorInfo lib locals) header.nTensors []
  pure (header, kvs, alignment, infos)

/-- The context whose data section starts at the next multiple of the alignment. -/
def makeContext (parsed : Header × List GgufKv × ℕ × List TensorInfo) (position : ℕ) :
    Except Stop GgufContext := do
  let (header, kvs, alignment, infos) := parsed
  if int64Max < ggmlPad position alignment then throw (.rejected .seek)
  let size ← dataSize alignment 0 infos
  pure ⟨header.version, kvs, infos, alignment, ggmlPad position alignment, size, none⟩

def ggufInitFromFileImpl (lib : CxxLibrary) (locals : ℕ → TensorLocals) (params : InitParams)
    (content : List UInt8) : Except Stop InitResult := do
  let (parsed, rest) ← (readMeta lib locals).run content
  let ctx ← makeContext parsed (content.length - rest.length)
  if params.ctx then loadTensors params.noAlloc ctx (content.drop ctx.offset) else pure ⟨ctx, none⟩

end PyannoteCpp.Gguf
