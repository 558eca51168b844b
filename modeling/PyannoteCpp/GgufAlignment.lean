import PyannoteCpp.GgufBuilt
import PyannoteCpp.ReachableStates

set_option autoImplicit false

/-!
# The two alignments of a GGUF context

The field is set when a file is read and never again, while the pair can be set and
removed by the calls. They agree for as long as the calls leave the value of the pair
as it is.
-/
namespace PyannoteCpp.Gguf
open PrefixGrammar ReachableStates

section Lookup

variable {lib : CxxLibrary} {kvs : List GgufKv}

theorem toInt32_small {i : ℕ} (h : i < 2 ^ 31) : toInt32 i = i := by
  exact Int.bmod_eq_of_le (by omega) (by omega)

theorem kvAlignment_of_mem (h : PairsKept lib kvs) (hfew : kvs.length < 2 ^ 31) {e : GgufKv} (he : e ∈ kvs)
    (hkey : e.key = ggufKeyGeneralAlignment.bytes) : kvAlignment kvs = ggufGetValU32 e := by
  have hmatch : ∀ other ∈ kvs, cStr other.key = ggufKeyGeneralAlignment ↔ other.key = e.key := fun other hother =>
    (CString.noNul_eq (h.noNul other hother)).trans (by rw [hkey])
  unfold kvAlignment
  cases hfind : ggufFindKey kvs ggufKeyGeneralAlignment with
  | none =>
    have hother := List.findIdx?_eq_none_iff.mp hfind e he
    simp [(hmatch e he).mpr rfl] at hother
  | some i =>
    obtain ⟨hlt, hfound, -⟩ := List.findIdx?_eq_some_iff_getElem.mp hfind
    have hsame : kvs[i] = e := by
      have hkeys : (kvs[i]).key = e.key := (hmatch _ (List.getElem_mem hlt)).mp (by simpa using hfound)
      obtain ⟨j, hj, rfl⟩ := List.mem_iff_getElem.mp he
      have hdistinct := List.pairwise_iff_getElem.mp h.distinct
      rcases Nat.lt_trichotomy i j with hless | rfl | hmore
      · exact absurd hkeys (hdistinct i j hlt hj hless)
      · rfl
      · exact absurd hkeys.symm (hdistinct j i hj hlt hmore)
    have hindex : toInt32 i = i := toInt32_small (by omega)
    dsimp only
    rw [hindex, if_neg (by omega), if_neg (by omega), Int.toNat_natCast, List.getElem?_eq_getElem hlt, hsame]

theorem kvAlignment_of_absent (h : PairsKept lib kvs) (habsent : ∀ e ∈ kvs, e.key ≠ ggufKeyGeneralAlignment.bytes) :
    kvAlignment kvs = .ok ggufDefaultAlignment := by
  have hnone : ggufFindKey kvs ggufKeyGeneralAlignment = none :=
    List.findIdx?_eq_none_iff.mpr fun e he => decide_eq_false fun hkey =>
      habsent e he ((CString.noNul_eq (h.noNul e he)).mp hkey)
  unfold kvAlignment
  rw [hnone]

theorem ggufGetValU32_normal {e : GgufKv} {a : ℕ} (h : ggufGetValU32 e = .ok a) : ggufGetValU32 e.normal = .ok a := by
  by_cases hvalue : e.type = .uint32 ∧ e.data.length = 4
  · have hnormal : e.normal = e := normal_of fun hbool => by rw [hvalue.1] at hbool; cases hbool
    rw [hnormal]
    exact h
  · obtain ⟨f, hf⟩ := ggufGetValU32_error hvalue
    cases hf.symm.trans h

theorem kvAlignment_normal {a : ℕ} (h : kvAlignment kvs = .ok a) : kvAlignment (kvs.map GgufKv.normal) = .ok a := by
  have hfind : ggufFindKey (kvs.map GgufKv.normal) ggufKeyGeneralAlignment = ggufFindKey kvs ggufKeyGeneralAlignment := by
    unfold ggufFindKey
    rw [List.findIdx?_map]
    rfl
  unfold kvAlignment at h ⊢
  rw [hfind]
  split at h
  · exact h
  · split_ifs at h ⊢
    · exact h
    · rw [List.getElem?_map]
      split at h
      · cases h
      · rename_i hget
        rw [hget]
        exact ggufGetValU32_normal h

end Lookup

section Runs

variable (lib : CxxLibrary)

/-- The alignment that a reader of the written file uses is the one that the file is padded with. -/
def AlignmentAgrees (ctx : GgufContext) : Prop := kvAlignment ctx.kv = .ok ctx.alignment

/-- Whatever is written is accepted again, in every mode. -/
def AcceptedAgain (ctx : GgufContext) : Prop :=
  ∀ bytes, ggufWriteToBuf ctx false = .ok bytes → ∀ locals params,
    ∃ r, ggufInitFromFileImpl lib locals params bytes = .ok r

/-- An empty context, or one that has been read from a file. -/
inductive Start : GgufContext → Prop where
  | empty : Start ggufInitEmpty
  | file {locals : ℕ → TensorLocals} {params : InitParams} {content : List UInt8} {r : InitResult}
      (h : ggufInitFromFileImpl lib locals params content = .ok r) : Start r.ctx

/-- No key of the file has a zero byte, and the index of a pair fits an `int`. -/
def StartOk (ctx : GgufContext) : Prop := (∀ kv ∈ ctx.kv, 0 ∉ kv.key) ∧ ctx.kv.length < 2 ^ 31

/-- A call that leaves the value of the pair for the alignment as the field has it, and adds only tensors that can be
read again. -/
def KeepsAlignment (ctx : GgufContext) : Call → Prop
  | .setVal key val _ => ctx.kv.length + 1 < 2 ^ 31 ∧
      (key = ggufKeyGeneralAlignment → ∀ v, val = .u32 v → v.toNat = ctx.alignment)
  | .setValStr _ _ | .setArrData _ _ _ _ | .setArrStr _ _ => ctx.kv.length + 1 < 2 ^ 31
  | .setKv src => ctx.kv.length + src.kv.length < 2 ^ 31 ∧
      ∀ e ∈ src.kv, cStr e.key = ggufKeyGeneralAlignment → ggufGetValU32 e = .ok ctx.alignment
  | .removeKey key => key = ggufKeyGeneralAlignment → ctx.alignment = ggufDefaultAlignment
  | .addTensor tensor => TensorOk tensor
  | .setTensorType _ _ | .setTensorData _ _ => True

structure Agreed (ctx : GgufContext) : Prop where
  kept : Kept lib ctx
  few : ctx.kv.length < 2 ^ 31
  tensors : ∀ ti ∈ ctx.info, TensorOk ti.t
  agrees : AlignmentAgrees ctx
  power : isPowerOfTwo ctx.alignment

variable {lib} {ctx ctx' : GgufContext}

theorem Agreed.acceptedAgain (h : Agreed lib ctx) : AcceptedAgain lib ctx := by
  intro bytes hwrite locals params
  have halign : readAlignment (ctx.kv.map GgufKv.normal) = .ok ctx.alignment := by
    unfold readAlignment
    rw [kvAlignment_normal h.agrees]
    exact if_pos h.power
  obtain ⟨r, hr, -⟩ := written_readsBack (h.kept.writable h.tensors halign) hwrite locals params
  exact ⟨r, hr⟩

theorem AlignmentAgrees.transfer {kvs kvs' : List GgufKv} {a : ℕ} (h : PairsKept lib kvs) (hfew : kvs.length < 2 ^ 31)
    (h' : PairsKept lib kvs') (hfew' : kvs'.length < 2 ^ 31)
    (same : ∀ e, e.key = ggufKeyGeneralAlignment.bytes → (e ∈ kvs ↔ e ∈ kvs')) (hagrees : kvAlignment kvs = .ok a) :
    kvAlignment kvs' = .ok a := by
  by_cases hpresent : ∃ e ∈ kvs, e.key = ggufKeyGeneralAlignment.bytes
  · obtain ⟨e, he, hkey⟩ := hpresent
    rw [kvAlignment_of_mem h' hfew' ((same e hkey).mp he) hkey, ← kvAlignment_of_mem h hfew he hkey]
    exact hagrees
  · push Not at hpresent
    rw [kvAlignment_of_absent h hpresent] at hagrees
    rw [kvAlignment_of_absent h' fun e he hkey => hpresent e ((same e hkey).mpr he) hkey]
    exact hagrees

theorem Agreed.ofSets {key : CString} {kv : GgufKv} (h : Agreed lib ctx) (hs : Sets lib ctx key kv ctx')
    (hfew : ctx.kv.length + 1 < 2 ^ 31) (hvalue : key = ggufKeyGeneralAlignment → leValue kv.data = ctx.alignment) :
    Agreed lib ctx' := by
  have hkept := h.kept.ofSets hs
  have hlength : ctx'.kv.length < 2 ^ 31 := by
    have hremoved := @ggufRemoveKey_length ctx key
    rw [hs.result]
    rw [List.length_append, List.length_singleton]
    omega
  obtain ⟨hinfo, halign, -⟩ := hs.info
  have hmem : ∀ e, e ∈ ctx'.kv ↔ e ∈ (ggufRemoveKey ctx key).kv ∨ e = kv := fun e => by
    rw [hs.result, List.mem_append, List.mem_singleton]
  refine ⟨hkept, hlength, hinfo ▸ h.tensors, ?_, halign ▸ h.power⟩
  unfold AlignmentAgrees
  rw [halign]
  by_cases hkey : key = ggufKeyGeneralAlignment
  · obtain ⟨v, -, hkv⟩ := hs.reserved hkey
    have hnamed : kv.key = ggufKeyGeneralAlignment.bytes := hs.named.trans (congrArg CString.bytes hkey)
    rw [kvAlignment_of_mem hkept.pairs hlength ((hmem kv).mpr (.inr rfl)) hnamed, ← hvalue hkey, hkv]
    exact ggufGetValU32_ok rfl (leBytes_length 4 _)
  · refine AlignmentAgrees.transfer h.kept.pairs h.few hkept.pairs hlength (fun e he => ?_) h.agrees
    have hother : e.key ≠ key.bytes := fun hsame => hkey (CString.ext (hsame.symm.trans he))
    rw [hmem]
    constructor
    · exact fun hin => .inl (mem_ggufRemoveKey h.kept.pairs hin hother)
    · rintro (hin | rfl)
      · exact ggufRemoveKey_subset key e hin
      · exact absurd hs.named hother

theorem Agreed.removeKey {key : CString} (h : Agreed lib ctx)
    (hvalue : key = ggufKeyGeneralAlignment → ctx.alignment = ggufDefaultAlignment) :
    Agreed lib (ggufRemoveKey ctx key) := by
  obtain ⟨hpairs, hgone⟩ := h.kept.pairs.remove key
  have hlength : (ggufRemoveKey ctx key).kv.length < 2 ^ 31 := (ggufRemoveKey_length key).trans_lt h.few
  have hframe := ggufRemoveKey_frame ctx key
  have halign : (ggufRemoveKey ctx key).alignment = ctx.alignment := by rw [hframe]
  have hinfo : (ggufRemoveKey ctx key).info = ctx.info := by rw [hframe]
  refine ⟨h.kept.ofPairs hpairs hinfo (by rw [hframe]), hlength, hinfo ▸ h.tensors, ?_, halign ▸ h.power⟩
  unfold AlignmentAgrees
  rw [halign]
  by_cases hkey : key = ggufKeyGeneralAlignment
  · rw [hvalue hkey]
    exact kvAlignment_of_absent hpairs fun e he => hkey ▸ hgone e he
  · refine AlignmentAgrees.transfer h.kept.pairs h.few hpairs hlength (fun e he => ⟨fun hin => ?_, fun hin => ?_⟩) h.agrees
    · exact mem_ggufRemoveKey h.kept.pairs hin fun hsame => hkey (CString.ext (hsame.symm.trans he))
    · exact ggufRemoveKey_subset key e hin

/-- The pairs of the source one after another; each adds at most one. -/
theorem Agreed.setKv {src : GgufContext} (h : Agreed lib ctx) (hfew : ctx.kv.length + src.kv.length < 2 ^ 31)
    (hvalue : ∀ e ∈ src.kv, cStr e.key = ggufKeyGeneralAlignment → ggufGetValU32 e = .ok ctx.alignment)
    (hrun : ggufSetKv lib ctx src = .ok ctx') : Agreed lib ctx' := by
  unfold ggufSetKv at hrun
  generalize src.kv = kvs at hrun hfew hvalue
  induction kvs generalizing ctx with
  | nil =>
    cases hrun
    exact h
  | cons e kvs ih =>
    obtain ⟨mid, hfirst, hrest⟩ := except_bind_ok.mp hrun
    obtain ⟨he, hvalue⟩ := List.forall_mem_cons.mp hvalue
    obtain ⟨kv, hs, hkv⟩ := ggufSetOne_sets hfirst
    rw [List.length_cons] at hfew
    have hmid := h.ofSets hs (by omega) fun hkey => hkv _ hkey (he hkey)
    have halign := hs.info.2.1
    have hlength : mid.kv.length ≤ ctx.kv.length + 1 := by
      have hremoved := @ggufRemoveKey_length ctx (cStr e.key)
      rw [hs.result, List.length_append, List.length_singleton]
      omega
    rw [← halign] at hvalue
    exact ih hmid hrest (by omega) hvalue

theorem Agreed.step {c : Call} (h : Agreed lib ctx) (hc : KeepsAlignment ctx c) (hcall : c.apply lib ctx = .ok ctx') :
    Agreed lib ctx' := by
  have hkept := h.kept.step hcall
  cases c with
  | setVal key val single =>
    have hs := ggufSetVal_sets (.inl single) hcall
    refine h.ofSets hs hc.1 fun hkey => ?_
    obtain ⟨v, -, hv⟩ := hs.reserved hkey
    have hval : val = .u32 v := by
      have htype : val.type = .uint32 := congrArg GgufKv.type hv
      have hdata : val.data = leBytes 4 v.toNat := congrArg GgufKv.data hv
      cases val with
      | u32 w =>
        have hback := congrArg leValue (show leBytes 4 w.toNat = leBytes 4 v.toNat from hdata)
        rw [leValue_leBytes 4 _ w.isLt, leValue_leBytes 4 _ v.isLt] at hback
        rw [BitVec.eq_of_toNat_eq hback]
      | _ => cases htype
    have hvalue := hc.2 hkey v hval
    rw [hv, ← hvalue]
    exact leValue_leBytes 4 _ v.isLt
  | setValStr key val =>
    have hs := ggufSetValStr_sets hcall
    refine h.ofSets hs hc fun hkey => ?_
    obtain ⟨v, -, hv⟩ := hs.reserved hkey
    cases hv
  | setArrData key type data n =>
    have hs := ggufSetArrData_sets hcall
    refine h.ofSets hs hc fun hkey => ?_
    obtain ⟨v, -, hv⟩ := hs.reserved hkey
    cases hv
  | setArrStr key data =>
    have hs := ggufSetArrStr_sets hcall
    refine h.ofSets hs hc fun hkey => ?_
    obtain ⟨v, -, hv⟩ := hs.reserved hkey
    cases hv
  | setKv src => exact h.setKv hc.1 hc.2 hcall
  | removeKey key =>
    cases hcall
    exact h.removeKey hc
  | addTensor t =>
    obtain ⟨offset, rfl, -, -⟩ := ggufAddTensor_spec hcall
    exact ⟨hkept, h.few, List.forall_mem_append.mpr ⟨h.tensors, List.forall_mem_singleton.mpr hc⟩, h.agrees, h.power⟩
  | setTensorType name type =>
    obtain ⟨hframe, -, htensors⟩ := ggufSetTensorType_spec hcall
    have hok := htensors h.tensors
    rw [hframe] at hkept hok ⊢
    exact ⟨hkept, h.few, hok, h.agrees, h.power⟩
  | setTensorData name data =>
    obtain ⟨hframe, -, htensors⟩ := ggufSetTensorData_spec hcall
    have hok := htensors h.tensors
    rw [hframe] at hkept hok ⊢
    exact ⟨hkept, h.few, hok, h.agrees, h.power⟩

theorem KvFront.ok {kvs kvs' : List GgufKv} {front : List UInt8} (h : KvFront lib kvs kvs' front) :
    ∃ kv, kvs' = kvs ++ [kv] ∧ KvOk lib kv ∧ (∀ other ∈ kvs, kv.key ≠ other.key) ∧ kvs.length < vectorMax sizeofKv := by
  obtain ⟨key, vt, value, head, values, ⟨hkey, hnew, typeFront, ⟨harray, htype⟩, -⟩, hvalue, hroom, hne, rfl, -⟩ := h
  refine ⟨_, rfl, ⟨hne, hkey, fun hstring => ?_, fun hnumber => ?_⟩, hnew, hroom⟩
  · unfold ValueFront at hvalue
    rw [if_pos hstring] at hvalue
    obtain ⟨hdata, hstrings, -, hcount⟩ := hvalue
    refine ⟨hdata, hstrings, ?_⟩
    dsimp only
    split at hcount
    · rw [if_pos ‹_›, hcount.1]
      exact hcount.2
    · rw [if_neg ‹_›]
      exact hcount
  · unfold ValueFront at hvalue
    rw [if_neg hnumber] at hvalue
    obtain ⟨hstring, hdata, hlength, hmax⟩ := hvalue
    refine ⟨harray, hstring, vt.n, ?_, hmax, fun hsingle => ?_⟩
    · dsimp only
      rw [hdata, normaliseBool_length, hlength]
    · rw [show vt.isArray = false from hsingle] at htype
      exact htype.1

theorem kvs_kept {n : ℕ} {kvs : List GgufKv} {front : List UInt8} (h : Turns (KvFront lib) n [] kvs front) :
    (∀ kv ∈ kvs, KvOk lib kv) ∧ (kvs.Pairwise fun a b => a.key ≠ b.key) ∧ kvs.length ≤ vectorMax sizeofKv := by
  refine h.invariant (m := 0) (I := fun _ kvs => (∀ kv ∈ kvs, KvOk lib kv) ∧ (kvs.Pairwise fun a b => a.key ≠ b.key) ∧
    kvs.length ≤ vectorMax sizeofKv) ⟨fun _ he => (nomatch he), List.Pairwise.nil, Nat.zero_le _⟩ ?_
  rintro m s t front ⟨hok, hdistinct, -⟩ hstep
  obtain ⟨kv, rfl, hkv, hnew, hroom⟩ := KvFront.ok hstep
  refine ⟨List.forall_mem_append.mpr ⟨hok, List.forall_mem_singleton.mpr hkv⟩,
    List.pairwise_append.mpr ⟨hdistinct, List.pairwise_singleton _ _, fun e he other hother => ?_⟩, ?_⟩
  · rw [List.mem_singleton.mp hother]
    exact (hnew e he).symm
  · rw [List.length_append, List.length_singleton]
    omega

theorem infos_names {locals : ℕ → TensorLocals} {n : ℕ} {infos : List TensorInfo} {front : List UInt8}
    (h : Turns (InfoFront lib locals) n [] infos front) : (infos.map (·.t.name)).Nodup := by
  refine h.invariant (m := 0) (I := fun _ infos => (infos.map (·.t.name)).Nodup) List.nodup_nil ?_
  intro m s t front hs hstep
  obtain ⟨name, ne, type, offset, _, _, ⟨_, -, -, hnew, -, -⟩, -, -, -, -, rfl, -⟩ := hstep
  rw [List.map_append, List.map_singleton]
  refine List.nodup_append.mpr ⟨hs, List.nodup_singleton _, fun a ha b hb hab => ?_⟩
  obtain ⟨ti, hti, rfl⟩ := List.mem_map.mp ha
  rw [List.mem_singleton.mp hb] at hab
  exact hnew ti hti hab.symm

theorem Agreed.empty (lib : CxxLibrary) : Agreed lib ggufInitEmpty :=
  ⟨Kept.empty lib, by decide, fun _ hti => (nomatch hti), rfl, by decide⟩

theorem Agreed.file {locals : ℕ → TensorLocals} {params : InitParams} {content : List UInt8} {r : InitResult}
    (h : ggufInitFromFileImpl lib locals params content = .ok r) (hok : StartOk r.ctx) : Agreed lib r.ctx := by
  obtain ⟨parsed, front, rest, size, hfront, -, -, hctx⟩ := accepted h
  obtain ⟨_, _, _, hheader, hkvs, halign, hinfos, -⟩ := hfront
  obtain ⟨hpairs, hdistinct, hfit⟩ := kvs_kept hkvs
  obtain ⟨hagrees, hpower⟩ := readAlignment_spec halign
  rw [hctx] at hok ⊢
  refine ⟨⟨hheader.1, ⟨hpairs, hok.1, hdistinct, hfit⟩, infos_names hinfos, (infos_length lib locals hinfos).2⟩, hok.2,
    fun ti hti => ?_, hagrees, hpower⟩
  obtain ⟨hstrides, hshape⟩ := infos_checked hinfos ti hti
  exact ⟨hshape, .inr (by rw [hstrides]; rfl)⟩

/-- The machine of calls: a call that faults ends the program. -/
def Step (lib : CxxLibrary) (ctx : GgufContext) (c : Call) (ctx' : GgufContext) : Prop := c.apply lib ctx = .ok ctx'

/-- As long as every call keeps the alignment, field and pair agree, and what is written is accepted again. -/
theorem alignment_agrees (lib : CxxLibrary) {ctx : GgufContext}
    (h : Reachable (fun ctx => Start lib ctx ∧ StartOk ctx) (Admitted KeepsAlignment (Step lib)) ctx) :
    AlignmentAgrees ctx ∧ AcceptedAgain lib ctx := by
  have hagreed : Agreed lib ctx := by
    refine Reachable.invariant (Agreed lib) ?_ (fun s c u hs hstep => hs.step hstep.1 hstep.2) h
    rintro s ⟨hstart, hok⟩
    cases hstart with
    | empty => exact Agreed.empty lib
    | file hread => exact Agreed.file hread hok
  exact ⟨hagreed.agrees, hagreed.acceptedAgain⟩

theorem alignment_agrees_number :
    ∃ ctx, Call.apply libstdcxx ggufInitEmpty (.setVal ggufKeyGeneralAlignment (.u32 32) nofun) = .ok ctx ∧
      AlignmentAgrees ctx ∧ AcceptedAgain libstdcxx ctx := by
  have hkeeps : KeepsAlignment ggufInitEmpty (.setVal ggufKeyGeneralAlignment (.u32 32) nofun) := by
    refine ⟨by decide, fun _ v hv => ?_⟩
    cases hv
    rfl
  exact ⟨_, rfl, alignment_agrees libstdcxx (.step (.start ⟨.empty, fun _ he => (nomatch he), by decide⟩) ⟨hkeeps, rfl⟩)⟩

def otherTensor : GgmlTensor := zeroTensor [117] .f32 ⟨1, 1, 1, 1⟩ (rowStrides .f32 ⟨1, 1, 1, 1⟩) (by decide)

set_option maxRecDepth 20000 in
/-- Padded to 32 bytes and read with 64. -/
theorem set_alignment_refused :
    ∃ ctx bytes, runCalls libstdcxx ggufInitEmpty
        [.setVal ggufKeyGeneralAlignment (.u32 64) nofun, .addTensor smallTensor, .addTensor otherTensor] = .ok ctx ∧
      ¬AlignmentAgrees ctx ∧ ggufWriteToBuf ctx false = .ok bytes ∧
      ggufInitFromFileImpl libstdcxx zeroLocals ⟨false, true⟩ bytes = .error (.rejected .offset) := by
  refine ⟨_, _, rfl, fun hagrees => ?_, rfl, rfl⟩
  have hvalue : (64 : ℕ) = 32 := Except.ok.inj hagrees
  omega

end Runs

end PyannoteCpp.Gguf
