import PyannoteCpp.GgufReader

set_option autoImplicit false

/-!
# Writing a GGUF file

The buffer is a vector, so it cannot grow past `max_size`.
-/
namespace PyannoteCpp.Gguf

def writeString (s : List UInt8) : List UInt8 := leBytes 8 s.length ++ s

/-- The values of a pair; booleans and strings go one by one, the other arrays as they are. -/
def writeValues (kv : GgufKv) (ne : ℕ) : Except Fault (List UInt8) :=
  match kv.type with
  | .bool => do
    let values ← (List.range ne).mapM kv.getVal
    pure (values.map (fun v => if leValue v = 0 then 0 else 1))
  | .string => do
    let values ← (List.range ne).mapM kv.getVal
    pure (values.flatMap writeString)
  | .array => .error .abort
  | _ => .ok kv.data

def writeKv (kv : GgufKv) : Except Fault (List UInt8) := do
  let ne ← kv.getNe
  let head := if kv.isArray then leBytes 4 GgufType.array.code ++ leBytes 4 kv.type.code ++ leBytes 8 ne
    else leBytes 4 kv.type.code
  let values ← writeValues kv ne
  pure (writeString kv.key ++ head ++ values)

def Dims.written (ne : Dims) : List ℕ := [ne.n0, ne.n1, ne.n2, ne.n3].take (ggmlNDims ne)

def writeTensorMeta (ti : TensorInfo) : List UInt8 :=
  writeString ti.t.name.bytes ++ leBytes 4 (ggmlNDims ti.t.ne) ++ (Dims.written ti.t.ne).flatMap (leBytes 8) ++
    leBytes 4 ti.t.type.code ++ leBytes 8 ti.offset

def padBuf (buf : List UInt8) (alignment : ℕ) : List UInt8 :=
  buf ++ List.replicate ((alignment - buf.length % alignment) % alignment) 0

def writeTensorData (offsetData alignment : ℕ) (buf : List UInt8) (ti : TensorInfo) : Except Fault (List UInt8) :=
  if buf.length - offsetData ≠ ti.offset then .error .assertion
  else if ggmlIsContiguous ti.t.type ti.t.ne ti.t.nb = false then .error .assertion
  else match ti.t.data with
    -- the backend's buffer is only asked when there is something to copy
    | none => if ti.t.buffer ∧ ti.t.nbytes = 0 then .ok (padBuf buf alignment) else .error .assertion
    | some data => .ok (padBuf (buf ++ (List.range ti.t.nbytes).map data) alignment)

def writeMeta (ctx : GgufContext) : Except Fault (List UInt8) := do
  let kvs ← ctx.kv.mapM writeKv
  let buf := ggufMagic ++ leBytes 4 ctx.version ++ leBytes 8 ctx.info.length ++ leBytes 8 ctx.kv.length ++
    kvs.flatten ++ ctx.info.flatMap writeTensorMeta
  pure (padBuf buf ctx.alignment)

/-- The data of the tensors, unless only the metadata is asked for. -/
def writeData (ctx : GgufContext) (onlyMeta : Bool) (buf : List UInt8) : Except Fault (List UInt8) :=
  if onlyMeta then .ok buf else ctx.info.foldlM (writeTensorData buf.length ctx.alignment) buf

def ggufWriteToBuf (ctx : GgufContext) (onlyMeta : Bool) : Except Fault (List UInt8) := do
  let buf ← writeMeta ctx
  let buf ← writeData ctx onlyMeta buf
  if vectorMax 1 < buf.length then .error .lengthError else .ok buf

end PyannoteCpp.Gguf
