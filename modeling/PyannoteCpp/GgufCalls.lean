import PyannoteCpp.GgufRoundTrip

set_option autoImplicit false

/-!
# Runs of calls on a GGUF context

Every call that sets a pair first removes the pair that has its key, so keys stay
distinct, and every call that changes tensors keeps their names.
-/
namespace PyannoteCpp.Gguf
open PrefixGrammar

inductive Call where
  | setVal (key : CString) (val : Scalar) (single : val.type ≠ .string)
  | setValStr (key : CString) (val : CString)
  | setArrData (key : CString) (type : GgufType) (data : ℕ → UInt8) (n : ℕ)
  | setArrStr (key : CString) (data : List CString)
  | setKv (src : GgufContext)
  | removeKey (key : CString)
  | addTensor (tensor : GgmlTensor)
  | setTensorType (name : CString) (type : GgmlType)
  | setTensorData (name : CString) (data : Option (ℕ → UInt8))

def Call.apply (lib : CxxLibrary) (ctx : GgufContext) : Call → Except Fault GgufContext
  | .setVal key val _ => ggufSetVal lib ctx key val
  | .setValStr key val => ggufSetValStr lib ctx key val
  | .setArrData key type data n => ggufSetArrData lib ctx key type data n
  | .setArrStr key data => ggufSetArrStr lib ctx key data
  | .setKv src => ggufSetKv lib ctx src
  | .removeKey key => .ok (ggufRemoveKey ctx key)
  | .addTensor tensor => ggufAddTensor ctx tensor
  | .setTensorType name type => ggufSetTensorType ctx name type
  | .setTensorData name data => ggufSetTensorData ctx name data

def runCalls (lib : CxxLibrary) (ctx : GgufContext) (calls : List Call) : Except Fault GgufContext :=
  calls.foldlM (Call.apply lib) ctx

section Pairs

variable {lib : CxxLibrary} {ctx ctx' : GgufContext} {key : CString}

theorem CString.noNul_eq {s : List UInt8} {c : CString} (hs : 0 ∉ s) : cStr s = c ↔ s = c.bytes := by
  have hself : cStr s = ⟨s, hs⟩ := cStr_bytes ⟨s, hs⟩
  rw [hself]
  exact CString.ext_iff

structure PairsKept (lib : CxxLibrary) (kv : List GgufKv) : Prop where
  proper : ∀ e ∈ kv, KvOk lib e
  noNul : ∀ e ∈ kv, 0 ∉ e.key
  distinct : kv.Pairwise fun a b => a.key ≠ b.key
  fit : kv.length ≤ vectorMax sizeofKv

/-- A call that sets a pair: the pair of the key is replaced by a proper one at the end. -/
structure Sets (lib : CxxLibrary) (ctx : GgufContext) (key : CString) (kv : GgufKv) (ctx' : GgufContext) : Prop where
  named : kv.key = key.bytes
  proper : KvOk lib kv
  reserved : key = ggufKeyGeneralAlignment → ∃ v : BitVec 32, isPowerOfTwo v.toNat ∧
    kv = ⟨key.bytes, false, .uint32, leBytes 4 v.toNat, []⟩
  room : (ggufRemoveKey ctx key).kv.length < vectorMax sizeofKv
  result : ctx' = { ctx with kv := (ggufRemoveKey ctx key).kv ++ [kv] }

theorem newString_ok {s : CString} {v : List UInt8} (h : newString lib s = .ok v) :
    v = s.bytes ∧ s.bytes.length ≤ lib.stringMax := by
  unfold newString at h
  split at h
  · cases h
    exact ⟨rfl, ‹_›⟩
  · cases h

theorem makeKv_ok {k data : List UInt8} {isArray : Bool} {type : GgufType} {dataString : List (List UInt8)}
    {kv : GgufKv} (h : makeKv k isArray type data dataString = .ok kv) :
    k ≠ [] ∧ kv = ⟨k, isArray, type, data, dataString⟩ := by
  unfold makeKv at h
  split at h
  · cases h
  · cases h
    exact ⟨‹_›, rfl⟩

theorem ggufRemoveKey_frame (ctx : GgufContext) (key : CString) :
    ggufRemoveKey ctx key = { ctx with kv := (ggufRemoveKey ctx key).kv } := by
  unfold ggufRemoveKey
  split <;> rfl

theorem emplaceBack_ok {kv : GgufKv} (h : emplaceBack (ggufRemoveKey ctx key) kv = .ok ctx') :
    (ggufRemoveKey ctx key).kv.length < vectorMax sizeofKv ∧
      ctx' = { ctx with kv := (ggufRemoveKey ctx key).kv ++ [kv] } := by
  unfold emplaceBack at h
  split at h
  · cases h
    refine ⟨‹_›, ?_⟩
    rw [ggufRemoveKey_frame]
  · cases h

theorem reserved_ok {val : Option Scalar} {k : List UInt8} {u : Unit} (h : ggufCheckReservedKeys k val = .ok u)
    (hk : k = ggufKeyGeneralAlignment.bytes) : ∃ v : BitVec 32, val = some (.u32 v) ∧ isPowerOfTwo v.toNat := by
  unfold ggufCheckReservedKeys at h
  rw [if_pos hk] at h
  split at h
  · rename_i v
    split at h
    · rename_i hpower
      refine ⟨v, rfl, by omega, ?_⟩
      have hand := congrArg BitVec.toNat hpower.2
      have hpred : (v - 1).toNat = v.toNat - 1 := BitVec.toNat_sub_of_le (by
        rw [BitVec.le_def]
        exact hpower.1)
      rw [BitVec.toNat_and, hpred] at hand
      exact hand
    · cases h
  · cases h

theorem Scalar.data_length (val : Scalar) (h : val.type ≠ .string) :
    val.type ≠ .array ∧ val.dataString = [] ∧ val.data.length = val.type.size := by
  cases val <;> first | contradiction | exact ⟨nofun, rfl, by simp [Scalar.data, Scalar.type, GgufType.size, leBytes_length]⟩

theorem vectorMax_pos {n : ℕ} (h : n ≤ 8) (hpos : 0 < n) : 1 ≤ vectorMax n := by
  unfold vectorMax
  rw [Nat.one_le_div_iff hpos]
  omega

theorem GgufType.size_le (t : GgufType) : t.size ≤ 8 := by cases t <;> decide

theorem ggufSetVal_sets {val : Scalar} (hval : val.type ≠ .string ∨ ∃ s, val = .str s ∧ s.length ≤ lib.stringMax)
    (h : ggufSetVal lib ctx key val = .ok ctx') :
    Sets lib ctx key ⟨key.bytes, false, val.type, val.data, val.dataString⟩ ctx' := by
  obtain ⟨k, hk, h⟩ := except_bind_ok.mp h
  obtain ⟨u, hreserved, h⟩ := except_bind_ok.mp h
  obtain ⟨kv, hkv, h⟩ := except_bind_ok.mp h
  obtain ⟨rfl, hfits⟩ := newString_ok hk
  obtain ⟨hne, rfl⟩ := makeKv_ok hkv
  obtain ⟨hroom, hresult⟩ := emplaceBack_ok h
  refine ⟨rfl, ⟨hne, hfits, ?_, ?_⟩, ?_, hroom, hresult⟩
  · intro htype
    rcases hval with hval | ⟨s, rfl, hs⟩
    · exact absurd htype hval
    · exact ⟨rfl, by simpa [Scalar.dataString] using hs, rfl⟩
  · intro htype
    obtain ⟨harray, hstring, hlength⟩ := val.data_length htype
    have hmax := vectorMax_pos val.type.size_le (GgufType.size_pos htype harray)
    exact ⟨harray, hstring, 1, by rw [Nat.one_mul]; exact hlength, hmax, fun _ => rfl⟩
  · intro hkey
    obtain ⟨v, hv, hpower⟩ := reserved_ok hreserved (congrArg CString.bytes hkey)
    cases hv
    exact ⟨v, hpower, rfl⟩

theorem ggufSetValStr_sets {val : CString} (h : ggufSetValStr lib ctx key val = .ok ctx') :
    Sets lib ctx key ⟨key.bytes, false, .string, [], [val.bytes]⟩ ctx' := by
  obtain ⟨v, hv, h⟩ := except_bind_ok.mp h
  obtain ⟨rfl, hfits⟩ := newString_ok hv
  exact ggufSetVal_sets (.inr ⟨_, rfl, hfits⟩) h

theorem ggufSetArrData_sets {type : GgufType} {data : ℕ → UInt8} {n : ℕ}
    (h : ggufSetArrData lib ctx key type data n = .ok ctx') :
    Sets lib ctx key ⟨key.bytes, true, type, (List.range (wrap64 (n * type.size))).map data, []⟩ ctx' := by
  obtain ⟨k, hk, h⟩ := except_bind_ok.mp h
  obtain ⟨u, hreserved, h⟩ := except_bind_ok.mp h
  dsimp only at h
  split at h
  · cases h
  rename_i hmax
  obtain ⟨kv, hkv, h⟩ := except_bind_ok.mp h
  split at h
  · cases h
  rename_i hsize
  split at h
  · cases h
  rename_i hwhole
  obtain ⟨rfl, hfits⟩ := newString_ok hk
  obtain ⟨hne, rfl⟩ := makeKv_ok hkv
  obtain ⟨hroom, hresult⟩ := emplaceBack_ok h
  have hkind : type ≠ .string ∧ type ≠ .array := by
    constructor <;> rintro rfl <;> exact hsize rfl
  refine ⟨rfl, ⟨hne, hfits, fun htype => absurd htype hkind.1, fun _ => ?_⟩, ?_, hroom, hresult⟩
  · refine ⟨hkind.2, rfl, wrap64 (n * type.size) / type.size, ?_, ?_, fun h => nomatch h⟩
    · dsimp only
      rw [List.length_map, List.length_range, Nat.div_mul_cancel (Nat.dvd_of_mod_eq_zero (not_not.mp hwhole))]
    · have hone : vectorMax 1 = 2 ^ 63 - 1 := by decide
      exact Nat.div_le_div_right (by omega)
  · intro hkey
    obtain ⟨v, hv, -⟩ := reserved_ok hreserved (congrArg CString.bytes hkey)
    cases hv

theorem mapM_newString {data : List CString} {tmp : List (List UInt8)} (h : data.mapM (newString lib) = .ok tmp) :
    tmp = data.map CString.bytes ∧ ∀ s ∈ tmp, s.length ≤ lib.stringMax := by
  induction data generalizing tmp with
  | nil =>
    cases h
    exact ⟨rfl, fun s hs => nomatch hs⟩
  | cons s data ih =>
    rw [List.mapM_cons] at h
    obtain ⟨v, hv, h⟩ := except_bind_ok.mp h
    obtain ⟨rest, hrest, h⟩ := except_bind_ok.mp h
    cases h
    obtain ⟨rfl, hfits⟩ := newString_ok hv
    obtain ⟨rfl, hall⟩ := ih hrest
    exact ⟨rfl, List.forall_mem_cons.mpr ⟨hfits, hall⟩⟩

theorem ggufSetArrStr_sets {data : List CString} (h : ggufSetArrStr lib ctx key data = .ok ctx') :
    Sets lib ctx key ⟨key.bytes, true, .string, [], data.map CString.bytes⟩ ctx' := by
  obtain ⟨k, hk, h⟩ := except_bind_ok.mp h
  obtain ⟨u, hreserved, h⟩ := except_bind_ok.mp h
  split at h
  · cases h
  rename_i hmax
  obtain ⟨tmp, htmp, h⟩ := except_bind_ok.mp h
  obtain ⟨kv, hkv, h⟩ := except_bind_ok.mp h
  obtain ⟨rfl, hfits⟩ := newString_ok hk
  obtain ⟨rfl, hstrings⟩ := mapM_newString htmp
  obtain ⟨hne, rfl⟩ := makeKv_ok hkv
  obtain ⟨hroom, hresult⟩ := emplaceBack_ok h
  refine ⟨rfl, ⟨hne, hfits, fun _ => ⟨rfl, hstrings, ?_⟩, fun htype => absurd rfl htype⟩, ?_, hroom, hresult⟩
  · rw [if_pos rfl]
    dsimp only
    rw [List.length_map]
    omega
  · intro hkey
    obtain ⟨v, hv, -⟩ := reserved_ok hreserved (congrArg CString.bytes hkey)
    cases hv

theorem PairsKept.remove (h : PairsKept lib ctx.kv) (key : CString) :
    PairsKept lib (ggufRemoveKey ctx key).kv ∧ ∀ e ∈ (ggufRemoveKey ctx key).kv, e.key ≠ key.bytes := by
  unfold ggufRemoveKey ggufFindKey
  split
  · rename_i hnone
    refine ⟨h, fun e he hkey => ?_⟩
    have hother := List.findIdx?_eq_none_iff.mp hnone e he
    simp [(CString.noNul_eq (h.noNul e he)).mpr hkey] at hother
  · rename_i i hi
    obtain ⟨hlt, hfound, -⟩ := List.findIdx?_eq_some_iff_getElem.mp hi
    have hkey : (ctx.kv[i]).key = key.bytes :=
      (CString.noNul_eq (h.noNul _ (List.getElem_mem hlt))).mp (by simpa using hfound)
    have hsub : (ctx.kv.eraseIdx i).Sublist ctx.kv := List.eraseIdx_sublist _ _
    refine ⟨⟨fun e he => h.proper e (hsub.subset he), fun e he => h.noNul e (hsub.subset he), h.distinct.sublist hsub,
      hsub.length_le.trans h.fit⟩, fun e he hsame => ?_⟩
    obtain ⟨j, hj, hget⟩ := List.mem_eraseIdx_iff_getElem?.mp he
    obtain ⟨hjlt, rfl⟩ := List.getElem?_eq_some_iff.mp hget
    have hdistinct := List.pairwise_iff_getElem.mp h.distinct
    rcases Nat.lt_or_gt_of_ne hj with hless | hmore
    · exact hdistinct j i hjlt hlt hless (hsame.trans hkey.symm)
    · exact hdistinct i j hlt hjlt hmore (hkey.trans hsame.symm)

theorem mem_ggufRemoveKey {key : CString} {e : GgufKv} (h : PairsKept lib ctx.kv) (he : e ∈ ctx.kv)
    (hkey : e.key ≠ key.bytes) : e ∈ (ggufRemoveKey ctx key).kv := by
  unfold ggufRemoveKey ggufFindKey
  split
  · exact he
  · rename_i i hi
    obtain ⟨hlt, hfound, -⟩ := List.findIdx?_eq_some_iff_getElem.mp hi
    obtain ⟨j, hj, rfl⟩ := List.mem_iff_getElem.mp he
    refine List.mem_eraseIdx_iff_getElem?.mpr ⟨j, ?_, List.getElem?_eq_getElem hj⟩
    rintro rfl
    exact hkey ((CString.noNul_eq (h.noNul _ (List.getElem_mem hlt))).mp (by simpa using hfound))

theorem ggufRemoveKey_subset (key : CString) : ∀ e ∈ (ggufRemoveKey ctx key).kv, e ∈ ctx.kv := by
  unfold ggufRemoveKey
  split
  · exact fun e he => he
  · exact fun e he => List.mem_of_mem_eraseIdx he

theorem ggufRemoveKey_length (key : CString) : (ggufRemoveKey ctx key).kv.length ≤ ctx.kv.length := by
  unfold ggufRemoveKey
  split
  · exact le_rfl
  · exact (List.eraseIdx_sublist _ _).length_le

theorem Sets.kept {kv : GgufKv} (hs : Sets lib ctx key kv ctx') (h : PairsKept lib ctx.kv) : PairsKept lib ctx'.kv := by
  obtain ⟨hkept, hnew⟩ := h.remove key
  have hroom := hs.room
  rw [hs.result]
  refine ⟨List.forall_mem_append.mpr ⟨hkept.proper, List.forall_mem_singleton.mpr hs.proper⟩,
    List.forall_mem_append.mpr ⟨hkept.noNul, List.forall_mem_singleton.mpr ?_⟩,
    List.pairwise_append.mpr ⟨hkept.distinct, List.pairwise_singleton _ _, fun e he other hother => ?_⟩, ?_⟩
  · rw [hs.named]
    exact key.noNul
  · rw [List.mem_singleton.mp hother, hs.named]
    exact hnew e he
  · rw [List.length_append, List.length_singleton]
    omega

theorem Sets.info {kv : GgufKv} (hs : Sets lib ctx key kv ctx') :
    ctx'.info = ctx.info ∧ ctx'.alignment = ctx.alignment ∧ ctx'.version = ctx.version := by
  rw [hs.result]
  exact ⟨rfl, rfl, rfl⟩

theorem ofBytes_u32 {type : GgufType} {value : List UInt8} {v : BitVec 32}
    (h : Scalar.ofBytes? type value = some (.u32 v)) : type = .uint32 ∧ v = .ofNat 32 (leValue value) := by
  cases type <;> simp [Scalar.ofBytes?] at h
  exact ⟨rfl, h.symm⟩

theorem ofBytes_single {type : GgufType} {value : List UInt8} {val : Scalar}
    (h : Scalar.ofBytes? type value = some val) : val.type ≠ .string := by
  cases type <;> simp [Scalar.ofBytes?] at h <;> subst h <;> nofun

theorem ggufSetOne_cases {e : GgufKv} (h : ggufSetOne lib ctx e = .ok ctx') :
    (e.isArray = true ∧ e.type = .string ∧ ggufSetArrStr lib ctx (cStr e.key) (e.dataString.map cStr) = .ok ctx') ∨
    (e.isArray = true ∧ e.type ≠ .string ∧ ∃ ne, e.getNe = .ok ne ∧
      ggufSetArrData lib ctx (cStr e.key) e.type (e.data.getD · 0) ne = .ok ctx') ∨
    (e.isArray = false ∧ e.type = .string ∧ ∃ value, e.getVal 0 = .ok value ∧
      ggufSetValStr lib ctx (cStr e.key) (cStr value) = .ok ctx') ∨
    (e.isArray = false ∧ e.type ≠ .string ∧ ∃ value val, e.getVal 0 = .ok value ∧
      Scalar.ofBytes? e.type value = some val ∧ ggufSetVal lib ctx (cStr e.key) val = .ok ctx') := by
  unfold ggufSetOne at h
  split at h
  · rename_i harray
    obtain ⟨ne, hne, h⟩ := except_bind_ok.mp h
    split at h
    · exact .inl ⟨harray, ‹_›, h⟩
    · split at h
      · cases h
      · exact .inr (.inl ⟨harray, ‹_›, ne, hne, h⟩)
  · rename_i hsingle
    have hsingle : e.isArray = false := by simpa using hsingle
    split at h
    · cases h
    · obtain ⟨value, hvalue, h⟩ := except_bind_ok.mp h
      split at h
      · exact .inr (.inr (.inl ⟨hsingle, ‹_›, value, hvalue, h⟩))
      · split at h
        · exact .inr (.inr (.inr ⟨hsingle, ‹_›, value, _, hvalue, ‹_›, h⟩))
        · cases h

theorem ggufSetOne_sets {e : GgufKv} (h : ggufSetOne lib ctx e = .ok ctx') :
    ∃ kv, Sets lib ctx (cStr e.key) kv ctx' ∧
      ∀ a, cStr e.key = ggufKeyGeneralAlignment → ggufGetValU32 e = .ok a → leValue kv.data = a := by
  obtain ⟨-, -, h⟩ | ⟨-, -, ne, -, h⟩ | ⟨-, -, value, -, h⟩ | ⟨-, -, value, val, hvalue, hval, h⟩ := ggufSetOne_cases h
  · have hs := ggufSetArrStr_sets h
    refine ⟨_, hs, fun a hkey _ => ?_⟩
    obtain ⟨v, -, hv⟩ := hs.reserved hkey
    cases hv
  · have hs := ggufSetArrData_sets h
    refine ⟨_, hs, fun a hkey _ => ?_⟩
    obtain ⟨v, -, hv⟩ := hs.reserved hkey
    cases hv
  · have hs := ggufSetValStr_sets h
    refine ⟨_, hs, fun a hkey _ => ?_⟩
    obtain ⟨v, -, hv⟩ := hs.reserved hkey
    cases hv
  · have hs := ggufSetVal_sets (.inl (ofBytes_single hval)) h
    refine ⟨_, hs, fun a hkey ha => ?_⟩
    obtain ⟨k, hk, hset⟩ := except_bind_ok.mp h
    obtain ⟨u, hreserved, -⟩ := except_bind_ok.mp hset
    obtain ⟨v, hsome, -⟩ := reserved_ok hreserved ((newString_ok hk).1.trans (congrArg CString.bytes hkey))
    cases hsome
    obtain ⟨htype, rfl⟩ := ofBytes_u32 hval
    have hlength : e.data.length = 4 := by
      by_contra hother
      obtain ⟨f, hf⟩ := @ggufGetValU32_error e fun both => hother both.2
      cases hf.symm.trans ha
    have hlt := leValue_lt e.data
    rw [ggufGetValU32_ok htype hlength] at ha
    cases ha
    have hall : value = e.data := by
      unfold GgufKv.getVal at hvalue
      have hsize : GgufType.size .uint32 = 4 := rfl
      simp [htype, hsize, hlength, List.take_of_length_le] at hvalue
      exact hvalue.symm
    rw [hlength] at hlt
    change leValue (leBytes 4 (BitVec.ofNat 32 (leValue value)).toNat) = _
    rw [hall, BitVec.toNat_ofNat, Nat.mod_eq_of_lt (by omega), leValue_leBytes 4 _ hlt]

end Pairs

section Tensors

variable {lib : CxxLibrary} {ctx ctx' : GgufContext}

def tensorNames (ctx : GgufContext) : List TensorName := ctx.info.map (·.t.name)

structure NamesKept (ctx : GgufContext) : Prop where
  distinct : (tensorNames ctx).Nodup
  fit : ctx.info.length ≤ vectorMax sizeofTensorInfo

/-- A tensor that can be read again: its shape passes the reader's check, and its blocks follow each other. -/
def TensorOk (t : GgmlTensor) : Prop := ElementsFit t.ne ∧ (t.type.blckSize = 1 ∨ t.nb.b0 = t.type.typeSize)

theorem updateOffsets_map {α : Type} (f : GgmlTensor → α) (alignment : ℕ) (before : TensorInfo) (infos : List TensorInfo) :
    (updateOffsets alignment before infos).map (fun ti => f ti.t) = infos.map fun ti => f ti.t := by
  induction infos generalizing before with
  | nil => rfl
  | cons ti infos ih => exact congrArg (f ti.t :: ·) (ih _)

theorem ggufAddTensor_spec {t : GgmlTensor} (h : ggufAddTensor ctx t = .ok ctx') :
    ∃ offset, ctx' = { ctx with info := ctx.info ++ [⟨t, offset⟩] } ∧ t.name ∉ tensorNames ctx ∧
      ctx.info.length < vectorMax sizeofTensorInfo := by
  unfold ggufAddTensor at h
  split at h
  · cases h
  rename_i hfind
  split at h
  · cases h
    refine ⟨_, rfl, fun hmem => hfind ?_, ‹_›⟩
    obtain ⟨ti, hti, hname⟩ := List.mem_map.mp hmem
    rw [ggufFindTensor, List.findIdx?_isSome]
    exact List.any_eq_true.mpr ⟨ti, hti, by simp [hname]⟩
  · cases h

theorem ggufSetTensorType_spec {name : CString} {type : GgmlType} (h : ggufSetTensorType ctx name type = .ok ctx') :
    ctx' = { ctx with info := ctx'.info } ∧ tensorNames ctx' = tensorNames ctx ∧
      ((∀ ti ∈ ctx.info, TensorOk ti.t) → ∀ ti ∈ ctx'.info, TensorOk ti.t) := by
  unfold ggufSetTensorType at h
  split at h
  · cases h
  rename_i i hi
  split at h
  · cases h
  rename_i ti hti
  split at h
  · rename_i hwhole
    obtain ⟨hlt, rfl⟩ := List.getElem?_eq_some_iff.mp hti
    have hsplit : ctx.info = ctx.info.take i ++ ctx.info[i] :: ctx.info.drop (i + 1) := by
      rw [List.getElem_cons_drop, List.take_append_drop]
    cases h
    refine ⟨rfl, ?_, fun hok ti hmem => ?_⟩
    · unfold tensorNames
      conv_rhs => rw [hsplit]
      simp only [List.map_append, List.map_cons]
      rw [updateOffsets_map (·.name)]
    · rcases List.mem_append.mp hmem with hbefore | hrest
      · exact hok ti (List.mem_of_mem_take hbefore)
      · rcases List.mem_cons.mp hrest with rfl | hafter
        · exact ⟨(hok _ (List.getElem_mem hlt)).1, .inr rfl⟩
        · have htensor : ti.t ∈ (ctx.info.drop (i + 1)).map (·.t) := by
            rw [← updateOffsets_map (fun t => t)]
            exact List.mem_map_of_mem hafter
          obtain ⟨original, horiginal, hsame⟩ := List.mem_map.mp htensor
          rw [← hsame]
          exact hok original (List.mem_of_mem_drop horiginal)
  · cases h

theorem ggufSetTensorData_spec {name : CString} {data : Option (ℕ → UInt8)}
    (h : ggufSetTensorData ctx name data = .ok ctx') :
    ctx' = { ctx with info := ctx'.info } ∧ tensorNames ctx' = tensorNames ctx ∧
      ((∀ ti ∈ ctx.info, TensorOk ti.t) → ∀ ti ∈ ctx'.info, TensorOk ti.t) := by
  unfold ggufSetTensorData at h
  split at h
  · cases h
  · cases h
    refine ⟨rfl, ?_, fun hok ti hmem => ?_⟩
    · unfold tensorNames
      apply List.ext_getElem
      · simp
      · intro i h₁ h₂
        simp only [List.getElem_map, List.getElem_modify]
        split <;> rfl
    · obtain ⟨i, hi, rfl⟩ := List.mem_iff_getElem.mp hmem
      simp only [List.getElem_modify]
      rw [List.length_modify] at hi
      have hunchanged := hok _ (List.getElem_mem hi)
      split
      · exact hunchanged
      · exact hunchanged

end Tensors

section Runs

variable {lib : CxxLibrary} {ctx ctx' : GgufContext}

structure Kept (lib : CxxLibrary) (ctx : GgufContext) : Prop where
  version : ctx.version = 2 ∨ ctx.version = 3
  pairs : PairsKept lib ctx.kv
  names : NamesKept ctx

theorem setKv_induct {src : GgufContext} {I : GgufContext → Prop} (hrun : ggufSetKv lib ctx src = .ok ctx') (hstart : I ctx)
    (hstep : ∀ {ctx ctx' e}, e ∈ src.kv → I ctx → ggufSetOne lib ctx e = .ok ctx' → I ctx') : I ctx' := by
  unfold ggufSetKv at hrun
  generalize hkvs : src.kv = kvs at hrun
  have hsub : ∀ e ∈ kvs, e ∈ src.kv := fun e he => hkvs ▸ he
  clear hkvs
  induction kvs generalizing ctx with
  | nil =>
    cases hrun
    exact hstart
  | cons e kvs ih =>
    obtain ⟨mid, hfirst, hrest⟩ := except_bind_ok.mp hrun
    obtain ⟨he, hsub⟩ := List.forall_mem_cons.mp hsub
    exact ih (hstep he hstart hfirst) hrest hsub

theorem Kept.ofPairs (h : Kept lib ctx) (hpairs : PairsKept lib ctx'.kv) (hinfo : ctx'.info = ctx.info)
    (hversion : ctx'.version = ctx.version) : Kept lib ctx' := by
  refine ⟨hversion ▸ h.version, hpairs, ?_, ?_⟩
  · unfold tensorNames
    rw [hinfo]
    exact h.names.distinct
  · rw [hinfo]
    exact h.names.fit

theorem Kept.ofSets {key : CString} {kv : GgufKv} (h : Kept lib ctx) (hs : Sets lib ctx key kv ctx') : Kept lib ctx' :=
  h.ofPairs (hs.kept h.pairs) hs.info.1 hs.info.2.2

theorem Kept.ofTensors (h : Kept lib ctx) (hframe : ctx' = { ctx with info := ctx'.info })
    (hnames : tensorNames ctx' = tensorNames ctx) : Kept lib ctx' := by
  have hlength := congrArg List.length hnames
  unfold tensorNames at hlength
  rw [List.length_map, List.length_map] at hlength
  refine ⟨?_, ?_, hnames ▸ h.names.distinct, hlength ▸ h.names.fit⟩
  · rw [hframe]
    exact h.version
  · rw [hframe]
    exact h.pairs

theorem Kept.addTensor {t : GgmlTensor} (h : Kept lib ctx) (hadd : ggufAddTensor ctx t = .ok ctx') : Kept lib ctx' := by
  obtain ⟨offset, rfl, hnew, hroom⟩ := ggufAddTensor_spec hadd
  refine ⟨h.version, h.pairs, ?_, ?_⟩
  · unfold tensorNames
    rw [List.map_append, List.map_singleton]
    exact List.nodup_append.mpr ⟨h.names.distinct, List.nodup_singleton _, fun a ha b hb hab => by
      rw [List.mem_singleton.mp hb] at hab
      exact hnew (hab ▸ ha)⟩
  · rw [List.length_append, List.length_singleton]
    omega

theorem Kept.step {c : Call} (h : Kept lib ctx) (hcall : c.apply lib ctx = .ok ctx') : Kept lib ctx' := by
  cases c with
  | setVal key val single => exact h.ofSets (ggufSetVal_sets (.inl single) hcall)
  | setValStr key val => exact h.ofSets (ggufSetValStr_sets hcall)
  | setArrData key type data n => exact h.ofSets (ggufSetArrData_sets hcall)
  | setArrStr key data => exact h.ofSets (ggufSetArrStr_sets hcall)
  | setKv src =>
    refine setKv_induct hcall h fun he hkept hone => ?_
    obtain ⟨kv, hs, -⟩ := ggufSetOne_sets hone
    exact hkept.ofSets hs
  | removeKey key =>
    cases hcall
    rw [ggufRemoveKey_frame]
    exact h.ofPairs (h.pairs.remove key).1 rfl rfl
  | addTensor t => exact h.addTensor hcall
  | setTensorType name type =>
    obtain ⟨hframe, hnames, -⟩ := ggufSetTensorType_spec hcall
    exact h.ofTensors hframe hnames
  | setTensorData name data =>
    obtain ⟨hframe, hnames, -⟩ := ggufSetTensorData_spec hcall
    exact h.ofTensors hframe hnames

theorem Kept.empty (lib : CxxLibrary) : Kept lib ggufInitEmpty :=
  ⟨.inr rfl, ⟨fun _ he => (nomatch he), fun _ he => (nomatch he), List.Pairwise.nil, Nat.zero_le _⟩, List.nodup_nil,
    Nat.zero_le _⟩

/-- What each call keeps, a run of calls keeps. -/
theorem runCalls_induct {calls : List Call} {I : GgufContext → Prop} (hrun : runCalls lib ctx calls = .ok ctx')
    (hstart : I ctx) (hstep : ∀ {ctx ctx' c}, c ∈ calls → I ctx → c.apply lib ctx = .ok ctx' → I ctx') : I ctx' := by
  unfold runCalls at hrun
  induction calls generalizing ctx with
  | nil =>
    cases hrun
    exact hstart
  | cons c calls ih =>
    obtain ⟨mid, hfirst, hrest⟩ := except_bind_ok.mp hrun
    exact ih hrest (hstep List.mem_cons_self hstart hfirst) fun hc => hstep (List.mem_cons_of_mem _ hc)

theorem Kept.writable (h : Kept lib ctx) (htensors : ∀ ti ∈ ctx.info, TensorOk ti.t)
    (halign : readAlignment (ctx.kv.map GgufKv.normal) = .ok ctx.alignment) : Writable lib ctx where
  version := h.version
  pairs := h.pairs.proper
  keys := h.pairs.distinct
  pairsFit := h.pairs.fit
  shapes ti hti := (htensors ti hti).1
  blocks ti hti := (htensors ti hti).2
  names := List.pairwise_map.mp h.names.distinct
  infosFit := h.names.fit
  alignment := halign

end Runs

end PyannoteCpp.Gguf
