import PyannoteCpp.GgufCalls

set_option autoImplicit false

/-!
# Contexts built from nothing

A context that never had an alignment of its own is written and read with the
default alignment, and comes back as it was.
-/
namespace PyannoteCpp.Gguf
open PrefixGrammar

/-- A call that does not set the alignment, and gives booleans as 0 and 1. -/
def Call.Plain : Call → Prop
  | .setVal key _ _ => key ≠ ggufKeyGeneralAlignment
  | .setValStr key _ => key ≠ ggufKeyGeneralAlignment
  | .setArrData key type data n =>
    key ≠ ggufKeyGeneralAlignment ∧ (type = .bool → ∀ i < n, data i = 0 ∨ data i = 1)
  | .setArrStr key _ => key ≠ ggufKeyGeneralAlignment
  | .setKv _ => False
  | .removeKey _ | .addTensor _ | .setTensorType _ _ | .setTensorData _ _ => True

/-- What plain calls keep on top. -/
structure Built (lib : CxxLibrary) (ctx : GgufContext) : Prop where
  kept : Kept lib ctx
  alignment : ctx.alignment = ggufDefaultAlignment
  unreserved : ∀ kv ∈ ctx.kv, kv.key ≠ ggufKeyGeneralAlignment.bytes
  normal : ∀ kv ∈ ctx.kv, kv.normal = kv

variable {lib : CxxLibrary} {ctx ctx' : GgufContext}

theorem normal_of {kv : GgufKv} (h : kv.type = .bool → ∀ b ∈ kv.data, b = 0 ∨ b = 1) : kv.normal = kv := by
  have hdata : normaliseBool kv.type kv.data = kv.data := by
    unfold normaliseBool
    split
    · rename_i hbool
      refine (List.map_congr_left fun b hb => ?_).trans (List.map_id kv.data)
      rcases h hbool b hb with rfl | rfl <;> rfl
    · rfl
  exact congrArg (fun data => { kv with data := data }) hdata

theorem Scalar.normal (key : CString) (val : Scalar) :
    GgufKv.normal ⟨key.bytes, false, val.type, val.data, val.dataString⟩ =
      ⟨key.bytes, false, val.type, val.data, val.dataString⟩ := by
  refine normal_of fun hbool b hb => ?_
  cases val with
  | bool v =>
    have hb := List.mem_singleton.mp hb
    cases v with
    | false => exact .inl hb
    | true => exact .inr hb
  | _ => cases hbool

theorem Built.ofSets {key : CString} {kv : GgufKv} (h : Built lib ctx) (hs : Sets lib ctx key kv ctx')
    (hkey : key ≠ ggufKeyGeneralAlignment) (hnormal : kv.normal = kv) : Built lib ctx' := by
  have hremoved := @ggufRemoveKey_subset ctx key
  refine ⟨h.kept.ofSets hs, hs.info.2.1.trans h.alignment, ?_, ?_⟩
  · rw [hs.result]
    refine List.forall_mem_append.mpr ⟨fun e he => h.unreserved e (hremoved e he), List.forall_mem_singleton.mpr ?_⟩
    rw [hs.named]
    exact fun hsame => hkey (CString.ext hsame)
  · rw [hs.result]
    exact List.forall_mem_append.mpr ⟨fun e he => h.normal e (hremoved e he), List.forall_mem_singleton.mpr hnormal⟩

theorem Built.ofTensors (h : Built lib ctx) (hkept : Kept lib ctx') (hkv : ctx'.kv = ctx.kv)
    (halign : ctx'.alignment = ctx.alignment) : Built lib ctx' :=
  ⟨hkept, halign.trans h.alignment, hkv ▸ h.unreserved, hkv ▸ h.normal⟩

theorem Built.step {c : Call} (h : Built lib ctx) (hc : c.Plain) (hcall : c.apply lib ctx = .ok ctx') : Built lib ctx' := by
  have hkept := h.kept.step hcall
  cases c with
  | setVal key val single => exact h.ofSets (ggufSetVal_sets (.inl single) hcall) hc (Scalar.normal key val)
  | setValStr key val => exact h.ofSets (ggufSetValStr_sets hcall) hc (Scalar.normal key (.str val.bytes))
  | setArrData key type data n =>
    refine h.ofSets (ggufSetArrData_sets hcall) hc.1 (normal_of fun hbool b hb => ?_)
    obtain ⟨i, hi, rfl⟩ := List.mem_map.mp hb
    have hsize : type.size = 1 := by rw [show type = .bool from hbool]; rfl
    have hlt := List.mem_range.mp hi
    rw [hsize, Nat.mul_one] at hlt
    exact hc.2 hbool i (hlt.trans_le (Nat.mod_le _ _))
  | setArrStr key data => exact h.ofSets (ggufSetArrStr_sets hcall) hc (normal_of fun hbool => nomatch hbool)
  | setKv src => exact hc.elim
  | removeKey key =>
    cases hcall
    have hsub := @ggufRemoveKey_subset ctx key
    refine ⟨hkept, ?_, fun e he => h.unreserved e (hsub e he), fun e he => h.normal e (hsub e he)⟩
    rw [ggufRemoveKey_frame]
    exact h.alignment
  | addTensor t =>
    obtain ⟨offset, rfl, -, -⟩ := ggufAddTensor_spec hcall
    exact h.ofTensors hkept rfl rfl
  | setTensorType name type =>
    obtain ⟨hframe, -, -⟩ := ggufSetTensorType_spec hcall
    exact h.ofTensors hkept (by rw [hframe]) (by rw [hframe])
  | setTensorData name data =>
    obtain ⟨hframe, -, -⟩ := ggufSetTensorData_spec hcall
    exact h.ofTensors hkept (by rw [hframe]) (by rw [hframe])

theorem Built.empty (lib : CxxLibrary) : Built lib ggufInitEmpty :=
  ⟨Kept.empty lib, rfl, fun _ he => (nomatch he), fun _ he => (nomatch he)⟩

theorem Built.normal_map (h : Built lib ctx) : ctx.kv.map GgufKv.normal = ctx.kv :=
  (List.map_congr_left h.normal).trans (List.map_id ctx.kv)

theorem Built.readAlignment (h : Built lib ctx) : readAlignment (ctx.kv.map GgufKv.normal) = .ok ctx.alignment := by
  have hnone : ggufFindKey ctx.kv ggufKeyGeneralAlignment = none := by
    unfold ggufFindKey
    refine List.findIdx?_eq_none_iff.mpr fun e he => decide_eq_false fun hkey => ?_
    exact h.unreserved e he ((CString.noNul_eq (h.kept.pairs.noNul e he)).mp hkey)
  rw [h.normal_map, h.alignment]
  unfold Gguf.readAlignment kvAlignment
  rw [hnone]
  rfl

/-- What is built by plain calls and written is read back as it was. -/
theorem built_readsBack {lib : CxxLibrary} {calls : List Call} {ctx : GgufContext} {bytes : List UInt8}
    (hrun : runCalls lib ggufInitEmpty calls = .ok ctx) (hcalls : ∀ c ∈ calls, c.Plain)
    (htensors : ∀ ti ∈ ctx.info, TensorOk ti.t) (hwrite : ggufWriteToBuf ctx false = .ok bytes)
    (locals : ℕ → TensorLocals) (params : InitParams) :
    ∃ r, ggufInitFromFileImpl lib locals params bytes = .ok r ∧ ReadsBack params ctx bytes r ∧ r.ctx.kv = ctx.kv := by
  have hbuilt : Built lib ctx := runCalls_induct hrun (Built.empty lib) fun hc hbuilt hcall =>
    hbuilt.step (hcalls _ hc) hcall
  obtain ⟨r, hr, hback⟩ := written_readsBack (hbuilt.kept.writable htensors hbuilt.readAlignment) hwrite locals params
  exact ⟨r, hr, hback, hback.pairs.trans hbuilt.normal_map⟩

def zeroTensor (name : List UInt8) (type : GgmlType) (ne : Dims) (nb : Strides) (whole : type.blckSize ∣ ne.n0) :
    GgmlTensor :=
  ⟨ggmlSetName name, type, ne, nb, some fun _ => 0, false, whole⟩

def smallTensor : GgmlTensor := zeroTensor [116] .f32 ⟨3, 1, 1, 1⟩ (rowStrides .f32 ⟨3, 1, 1, 1⟩) (by decide)

/-- A number, a string, an array of booleans and a tensor of three numbers. -/
def smallCalls : List Call :=
  [.setVal (cStr [97]) (.u16 7) nofun, .setValStr (cStr [98]) (cStr [120, 121]),
    .setArrData (cStr [99]) .bool (fun _ => 1) 2, .addTensor smallTensor]

def smallContext : GgufContext where
  version := 3
  kv := [⟨[97], false, .uint16, [7, 0], []⟩, ⟨[98], false, .string, [], [[120, 121]]⟩, ⟨[99], true, .bool, [1, 1], []⟩]
  info := [⟨smallTensor, 0⟩]
  alignment := 32
  offset := 0
  size := 0
  data := none

theorem smallCalls_plain : ∀ c ∈ smallCalls, c.Plain := by
  simp [smallCalls, Call.Plain, ggufKeyGeneralAlignment, CString.ext_iff, cStr]

theorem smallContext_ok : ∀ ti ∈ smallContext.info, TensorOk ti.t :=
  List.forall_mem_singleton.mpr ⟨by unfold ElementsFit; decide +kernel, .inl rfl⟩

set_option maxRecDepth 20000 in
theorem built_readsBack_small :
    ∃ bytes r, ggufWriteToBuf smallContext false = .ok bytes ∧
      ggufInitFromFileImpl libstdcxx zeroLocals ⟨false, true⟩ bytes = .ok r ∧
      ReadsBack ⟨false, true⟩ smallContext bytes r ∧ r.ctx.kv = smallContext.kv := by
  have hrun : runCalls libstdcxx ggufInitEmpty smallCalls = .ok smallContext := rfl
  have hwrite : ggufWriteToBuf smallContext false = .ok _ := rfl
  obtain ⟨r, hback⟩ := built_readsBack hrun smallCalls_plain smallContext_ok hwrite zeroLocals ⟨false, true⟩
  exact ⟨_, r, hwrite, hback⟩

/-- What `ggml_permute` makes of 32 rows of 64 elements: its blocks of 18 bytes are 36 bytes apart. -/
def permutedTensor : GgmlTensor := zeroTensor [112] .q4_0 ⟨32, 64, 1, 1⟩ ⟨36, 18, 1152, 1152⟩ (by decide)

def wideTensor : GgmlTensor :=
  zeroTensor [119] .i8 ⟨256, 2 ^ 55 - 1, 1, 1⟩ (rowStrides .i8 ⟨256, 2 ^ 55 - 1, 1, 1⟩) (by decide)

def wideContext : GgufContext := ⟨3, [], [⟨wideTensor, 0⟩], 32, 0, 0, none⟩

def wideFront : List UInt8 :=
  headerBytes 1 0 ++ (writeString [119] ++ (leBytes 4 2 ++ [256, 2 ^ 55 - 1].flatMap (leBytes 8)))

theorem wideContext_written : ∃ bytes, ggufWriteToBuf wideContext false = .ok bytes ∧ wideFront <+: bytes := by
  obtain ⟨start, hset⟩ : ∃ start, start = padBuf (headerBytes 1 0 ++ writeTensorMeta ⟨wideTensor, 0⟩) 32 := ⟨_, rfl⟩
  have hstart : writeMeta wideContext = .ok start := by
    rw [hset]
    rfl
  have hlength : start.length = 96 := by
    rw [hset]
    rfl
  have hbytes : wideTensor.nbytes = 2 ^ 63 - 256 := by decide
  have hdata : writeData wideContext false start =
      .ok (padBuf (start ++ (List.range wideTensor.nbytes).map fun _ => 0) 32) := by
    change (writeTensorData start.length 32 start ⟨wideTensor, 0⟩ >>= fun buf => .ok buf) = _
    unfold writeTensorData
    rw [if_neg (not_not.mpr (Nat.sub_self _)), if_neg (by decide)]
    rfl
  have hmax : vectorMax 1 = 2 ^ 63 - 1 := by decide
  have hpadded : (padBuf (start ++ (List.range wideTensor.nbytes).map fun _ => 0) 32).length = 2 ^ 63 - 160 := by
    rw [padBuf_length _ (by decide), List.length_append, List.length_map, List.length_range, hlength, hbytes]
    decide
  have hfits : ¬vectorMax 1 < (padBuf (start ++ (List.range wideTensor.nbytes).map fun _ => 0) 32).length := by
    rw [hpadded, hmax]
    decide
  have hwrite : ggufWriteToBuf wideContext false = .ok _ :=
    except_bind_ok.mpr ⟨start, hstart, except_bind_ok.mpr ⟨_, hdata, if_neg hfits⟩⟩
  have hmeta : writeTensorMeta ⟨wideTensor, 0⟩ = writeString [119] ++ (leBytes 4 2 ++
      [256, 2 ^ 55 - 1].flatMap (leBytes 8)) ++ leBytes 4 GgmlType.i8.code ++ leBytes 8 0 := by
    have hname : wideTensor.name.bytes = [119] := rfl
    have hdims : Dims.written wideTensor.ne = [256, 2 ^ 55 - 1] := rfl
    have hndims : ggmlNDims wideTensor.ne = 2 := rfl
    unfold writeTensorMeta
    rw [hname, hdims, hndims, List.append_assoc (writeString [119])]
    rfl
  have hfront : wideFront <+: headerBytes 1 0 ++ writeTensorMeta ⟨wideTensor, 0⟩ := by
    refine ⟨leBytes 4 GgmlType.i8.code ++ leBytes 8 0, ?_⟩
    rw [hmeta]
    unfold wideFront
    simp only [List.append_assoc]
  have hpad : headerBytes 1 0 ++ writeTensorMeta ⟨wideTensor, 0⟩ <+: start := hset ▸ List.prefix_append _ _
  exact ⟨_, hwrite, (hfront.trans hpad).trans ((List.prefix_append start _).trans (List.prefix_append _ _))⟩

theorem wide_refused {bytes : List UInt8} (h : wideFront <+: bytes) :
    ggufInitFromFileImpl libstdcxx zeroLocals ⟨false, true⟩ bytes = .error (.rejected .tensorInfo) := by
  obtain ⟨tail, rfl⟩ := h
  unfold wideFront
  rw [List.append_assoc, List.append_assoc]
  have hheader : HeaderFront ⟨3, 1, 0⟩ (headerBytes 1 0) := ⟨.inr rfl, by decide, by decide, rfl⟩
  have hname : NameFront libstdcxx [] (ggmlSetName [119]) (writeString [119]) :=
    ⟨[119], by decide, by decide, fun _ hti => (nomatch hti), rfl, rfl⟩
  have hdims : DimsFront ⟨256, 2 ^ 55 - 1, 1, 1⟩ (leBytes 4 2 ++ [256, 2 ^ 55 - 1].flatMap (leBytes 8)) :=
    ⟨2, by decide, by decide, by decide, rfl⟩
  refine except_bind_error.mpr (.inl ?_)
  refine run_bind_error.mpr (.inr ⟨⟨3, 1, 0⟩, _, (accepts_readHeader _ _ _).mpr ⟨_, hheader, rfl⟩, ?_⟩)
  refine run_bind_error.mpr (.inr ⟨[], _, rfl, ?_⟩)
  refine run_bind_error.mpr (.inr ⟨32, _, rfl, ?_⟩)
  refine run_bind_error.mpr (.inl (run_bind_error.mpr (.inl ?_)))
  refine run_bind_error.mpr (.inr ⟨_, _, (accepts_readTensorName libstdcxx [] _ _ _).mpr ⟨_, hname, rfl⟩, ?_⟩)
  refine run_bind_error.mpr (.inr ⟨_, _, (accepts_readDims _ _ _).mpr ⟨_, hdims, rfl⟩, ?_⟩)
  exact run_bind_error.mpr (.inl rfl)

set_option maxRecDepth 20000 in
/-- Neither a tensor that is contiguous to the program with its blocks apart, nor one with a few elements less than
`2 ^ 63`, comes back. -/
theorem contiguous_refused :
    (∀ t ∈ [permutedTensor, smallTensor, wideTensor], ggmlIsContiguous t.type t.ne t.nb = true ∧
      (0 < t.ne.n0 ∧ 0 < t.ne.n1 ∧ 0 < t.ne.n2 ∧ 0 < t.ne.n3) ∧
      t.ne.n0 * t.ne.n1 * t.ne.n2 * t.ne.n3 < 2 ^ 63 ∧ exactBytes t.type t.ne < 2 ^ 63 ∧ t.nbytes < 2 ^ 63) ∧
    (∃ ctx bytes, runCalls libstdcxx ggufInitEmpty [.addTensor permutedTensor, .addTensor smallTensor] = .ok ctx ∧
      ggufWriteToBuf ctx false = .ok bytes ∧
      ggufInitFromFileImpl libstdcxx zeroLocals ⟨false, true⟩ bytes = .error (.rejected .offset)) ∧
    ∃ ctx bytes, runCalls libstdcxx ggufInitEmpty [.addTensor wideTensor] = .ok ctx ∧
      ggufWriteToBuf ctx false = .ok bytes ∧
      ggufInitFromFileImpl libstdcxx zeroLocals ⟨false, true⟩ bytes = .error (.rejected .tensorInfo) := by
  refine ⟨by decide, ⟨_, _, rfl, rfl, rfl⟩, wideContext, ?_⟩
  obtain ⟨bytes, hwrite, hfront⟩ := wideContext_written
  exact ⟨bytes, rfl, hwrite, wide_refused hfront⟩

end PyannoteCpp.Gguf
