import PyannoteCpp.GgufAlignment
import PyannoteCpp.InsertionOrder

set_option autoImplicit false

/-!
# The pairs of a GGUF context as an insertion-ordered map

Setting a key takes its pair out and puts the new one at the back. Copying the pairs of
another context hands keys and strings over as `char` pointers and sets every type
through its own setter.
-/
namespace PyannoteCpp.Gguf
open PrefixGrammar ReachableStates InsertionOrder

def KeysZeroFree (ctx : GgufContext) : Prop := ∀ e ∈ ctx.kv, 0 ∉ e.key

/-- Contexts that begin empty or with a file without zero bytes in its keys. -/
def Known (lib : CxxLibrary) : GgufContext → Prop := Reachable (fun ctx => Start lib ctx ∧ KeysZeroFree ctx) (Step lib)

/-- What a call is to do with the map. -/
def Call.change : Call → Change GgufKv (List UInt8)
  | .setVal key val _ => put GgufKv.key ⟨key.bytes, false, val.type, val.data, val.dataString⟩
  | .setValStr key val => put GgufKv.key ⟨key.bytes, false, .string, [], [val.bytes]⟩
  | .setArrData key type data n => put GgufKv.key ⟨key.bytes, true, type, (List.range (n * type.size)).map data, []⟩
  | .setArrStr key data => put GgufKv.key ⟨key.bytes, true, .string, [], data.map CString.bytes⟩
  | .setKv src => puts GgufKv.key src.kv
  | .removeKey key => remove key.bytes
  | .addTensor _ | .setTensorType _ _ | .setTensorData _ _ => keep

/-- An array of numbers whose bytes can be counted, and pairs of a context without zero bytes in keys and strings. -/
def Call.Whole (lib : CxxLibrary) : Call → Prop
  | .setArrData _ type _ n => n * type.size < 2 ^ 64
  | .setKv src => Known lib src ∧ ∀ e ∈ src.kv, ∀ s ∈ e.dataString, 0 ∉ s
  | _ => True

/-- The laws of an insertion-ordered map after a run of calls. -/
structure MapLaws (start : List GgufKv) (calls : List Call) (kv : List GgufKv) : Prop where
  unique : (kv.map GgufKv.key).Nodup
  find : ∀ key i, ggufFindKey kv key = some i ↔ (kv[i]?).map GgufKv.key = some key.bytes
  lastWrite : ∀ e, e ∈ kv ↔ lastWrite GgufKv.key (calls.map Call.change) start e.key = some e
  order : kv = run GgufKv.key (calls.map Call.change) start

section Copies

variable {lib : CxxLibrary} {ctx ctx' : GgufContext} {e : GgufKv}

/-- A single boolean is 0 or 1. -/
def FlagKept (e : GgufKv) : Prop := e.isArray = false → e.normal = e

theorem ggufSetOne_flag (h : ggufSetOne lib ctx e = .ok ctx') : ∃ kv, Sets lib ctx (cStr e.key) kv ctx' ∧ FlagKept kv := by
  obtain ⟨-, -, h⟩ | ⟨-, -, ne, -, h⟩ | ⟨-, -, value, -, h⟩ | ⟨-, -, value, val, -, hval, h⟩ := ggufSetOne_cases h
  · exact ⟨_, ggufSetArrStr_sets h, nofun⟩
  · exact ⟨_, ggufSetArrData_sets h, nofun⟩
  · exact ⟨_, ggufSetValStr_sets h, fun _ => Scalar.normal _ (.str _)⟩
  · exact ⟨_, ggufSetVal_sets (.inl (ofBytes_single hval)) h, fun _ => Scalar.normal _ val⟩

theorem map_cStr_bytes {strings : List (List UInt8)} (h : ∀ s ∈ strings, 0 ∉ s) :
    (strings.map cStr).map CString.bytes = strings := by
  rw [List.map_map]
  exact (List.map_congr_left fun s hs => ((CString.noNul_eq (h s hs)).mp rfl).symm).trans (List.map_id strings)

theorem leBytes_ofNat {n : ℕ} {bytes : List UInt8} (h : bytes.length = n) :
    leBytes n (BitVec.ofNat (8 * n) (leValue bytes)).toNat = bytes := by
  have hlt := leValue_lt bytes
  rw [h, show (256 : ℕ) = 2 ^ 8 from rfl, ← pow_mul] at hlt
  rw [BitVec.toNat_ofNat, Nat.mod_eq_of_lt hlt, ← h, leBytes_leValue]

theorem ofBytes_data {type : GgufType} {bytes : List UInt8} {val : Scalar} (h : Scalar.ofBytes? type bytes = some val)
    (hlength : bytes.length = type.size) (hnormal : normaliseBool type bytes = bytes) :
    val.type = type ∧ val.data = bytes ∧ val.dataString = [] := by
  cases type with
  | bool =>
    cases h
    obtain ⟨b, rfl⟩ := List.length_eq_one_iff.mp hlength
    have hb : (if b = 0 then 0 else 1 : UInt8) = b := List.singleton_inj.mp hnormal
    refine ⟨rfl, ?_, rfl⟩
    by_cases hzero : b = 0
    · subst hzero
      rfl
    · rw [if_neg hzero] at hb
      subst hb
      rfl
  | string => cases h
  | array => cases h
  | _ =>
    cases h
    exact ⟨rfl, leBytes_ofNat hlength, rfl⟩

/-- A proper pair without zero bytes is copied as it is. -/
theorem ggufSetOne_copies (hok : KvOk lib e) (hkey : 0 ∉ e.key) (hstrings : ∀ s ∈ e.dataString, 0 ∉ s)
    (hflag : FlagKept e) (h : ggufSetOne lib ctx e = .ok ctx') : Sets lib ctx (cStr e.key) e ctx' := by
  have hname : (cStr e.key).bytes = e.key := ((CString.noNul_eq hkey).mp rfl).symm
  obtain ⟨harray, htype, h⟩ | ⟨harray, htype, ne, hne, h⟩ | ⟨harray, htype, value, hvalue, h⟩ |
    ⟨harray, htype, value, val, hvalue, hval, h⟩ := ggufSetOne_cases h
  · have hs := ggufSetArrStr_sets h
    rw [hname, map_cStr_bytes hstrings, ← harray, ← htype, ← (hok.strings htype).1] at hs
    exact hs
  · obtain ⟨hlength, hmax, -⟩ := hok.length_eq htype
    have hbound : e.data.length < 2 ^ 64 := by
      have hle := Nat.mul_le_of_le_div _ _ _ hmax
      omega
    have hs := ggufSetArrData_sets h
    rw [Except.ok.inj (hne.symm.trans hok.getNe), ← hlength, wrap64_of_lt hbound, range_getD, hname, ← harray,
      ← (hok.numbers htype).2.1] at hs
    exact hs
  · obtain ⟨hdata, -, hone⟩ := hok.strings htype
    rw [harray, if_neg Bool.false_ne_true] at hone
    obtain ⟨s, hstring⟩ := List.length_eq_one_iff.mp hone
    rw [getVal_string htype (by omega)] at hvalue
    have hsame : value = s := by
      cases hvalue
      rw [hstring]
      rfl
    have hzero : 0 ∉ s := hstrings s (by rw [hstring]; exact List.mem_singleton_self s)
    have hbytes : (cStr s).bytes = s := ((CString.noNul_eq hzero).mp rfl).symm
    have hs := ggufSetValStr_sets h
    rw [hsame, hbytes, hname, ← hstring, ← hdata, ← harray, ← htype] at hs
    exact hs
  · obtain ⟨hlength, -, hone⟩ := hok.length_eq htype
    rw [hone harray, Nat.one_mul] at hlength
    have hall : value = e.data := by
      unfold GgufKv.getVal at hvalue
      rw [if_neg htype, if_neg (hok.size_pos htype).ne', hlength, Nat.mod_self, if_neg (not_not.mpr rfl), Nat.zero_add,
        Nat.one_mul, if_pos le_rfl, Nat.zero_mul, List.drop_zero, List.take_of_length_le hlength.le] at hvalue
      exact (Except.ok.inj hvalue).symm
    have hnormal : normaliseBool e.type e.data = e.data := congrArg GgufKv.data (hflag harray)
    rw [hall] at hval
    obtain ⟨hsameType, hsameData, hnoStrings⟩ := ofBytes_data hval hlength hnormal
    have hs := ggufSetVal_sets (.inl (hsameType ▸ htype)) h
    rw [hsameType, hsameData, hnoStrings, hname, ← harray, ← (hok.numbers htype).2.1] at hs
    exact hs

end Copies

section Stores

variable {lib : CxxLibrary} {ctx ctx' : GgufContext}

/-- The pairs of a context that the program can have. -/
structure StoreKept (lib : CxxLibrary) (kv : List GgufKv) : Prop where
  pairs : PairsKept lib kv
  flags : ∀ e ∈ kv, FlagKept e

theorem StoreKept.ofSets {key : CString} {kv : GgufKv} (h : StoreKept lib ctx.kv) (hs : Sets lib ctx key kv ctx')
    (hkv : FlagKept kv) : StoreKept lib ctx'.kv := by
  refine ⟨hs.kept h.pairs, ?_⟩
  rw [hs.result]
  exact List.forall_mem_append.mpr ⟨fun e he => h.flags e (ggufRemoveKey_subset key e he),
    List.forall_mem_singleton.mpr hkv⟩

theorem StoreKept.step {c : Call} (h : StoreKept lib ctx.kv) (hcall : c.apply lib ctx = .ok ctx') :
    StoreKept lib ctx'.kv := by
  cases c with
  | setVal key val single => exact h.ofSets (ggufSetVal_sets (.inl single) hcall) fun _ => Scalar.normal key val
  | setValStr key val => exact h.ofSets (ggufSetValStr_sets hcall) fun _ => Scalar.normal key (.str val.bytes)
  | setArrData key type data n => exact h.ofSets (ggufSetArrData_sets hcall) nofun
  | setArrStr key data => exact h.ofSets (ggufSetArrStr_sets hcall) nofun
  | setKv src =>
    refine setKv_induct (I := fun ctx => StoreKept lib ctx.kv) hcall h fun _ hkept hone => ?_
    obtain ⟨kv, hs, hkv⟩ := ggufSetOne_flag hone
    exact hkept.ofSets hs hkv
  | removeKey key =>
    cases hcall
    exact ⟨(h.pairs.remove key).1, fun e he => h.flags e (ggufRemoveKey_subset key e he)⟩
  | addTensor t =>
    obtain ⟨offset, rfl, -, -⟩ := ggufAddTensor_spec hcall
    exact h
  | setTensorType name type =>
    rw [(ggufSetTensorType_spec hcall).1]
    exact h
  | setTensorData name data =>
    rw [(ggufSetTensorData_spec hcall).1]
    exact h

theorem kvs_normal {n : ℕ} {kvs : List GgufKv} {front : List UInt8} (h : Turns (KvFront lib) n [] kvs front) :
    ∀ e ∈ kvs, e.normal = e := by
  refine h.invariant (m := 0) (I := fun _ kvs => ∀ e ∈ kvs, GgufKv.normal e = e) (fun _ he => nomatch he) ?_
  rintro m s t front hs ⟨key, vt, value, head, values, -, hvalue, -, -, rfl, -⟩
  refine List.forall_mem_append.mpr ⟨hs, List.forall_mem_singleton.mpr ?_⟩
  have hdata : normaliseBool vt.type value.1 = value.1 := by
    unfold ValueFront at hvalue
    split at hvalue
    · rw [hvalue.1]
      unfold normaliseBool
      split <;> rfl
    · rw [hvalue.2.1, normaliseBool_idem]
  exact congrArg (fun data => (⟨key, vt.isArray, vt.type, data, value.2⟩ : GgufKv)) hdata

theorem StoreKept.start (hstart : Start lib ctx) (hzero : KeysZeroFree ctx) : StoreKept lib ctx.kv := by
  cases hstart with
  | empty => exact ⟨(Kept.empty lib).pairs, fun _ he => nomatch he⟩
  | @file locals params content r hread =>
    obtain ⟨parsed, front, rest, size, hfront, -, -, hctx⟩ := accepted hread
    obtain ⟨_, _, _, -, hkvs, -⟩ := hfront
    obtain ⟨hpairs, hdistinct, hfit⟩ := kvs_kept hkvs
    have hkv : r.ctx.kv = parsed.2.1 := by
      rw [hctx]
      rfl
    unfold KeysZeroFree at hzero
    rw [hkv] at hzero ⊢
    exact ⟨⟨hpairs, hzero, hdistinct, hfit⟩, fun e he _ => kvs_normal hkvs e he⟩

theorem Known.kept (h : Known lib ctx) : StoreKept lib ctx.kv := by
  refine Reachable.invariant (fun ctx => StoreKept lib ctx.kv) ?_ (fun _ _ _ hs hstep => hs.step hstep) h
  exact fun _ hs => StoreKept.start hs.1 hs.2

theorem PairsKept.nodup {kv : List GgufKv} (h : PairsKept lib kv) : (kv.map GgufKv.key).Nodup :=
  List.pairwise_map.mpr h.distinct

theorem remove_apply (h : PairsKept lib ctx.kv) (key : CString) :
    (ggufRemoveKey ctx key).kv = (remove key.bytes : Change GgufKv (List UInt8)).apply GgufKv.key ctx.kv := by
  unfold ggufRemoveKey
  cases hfind : ggufFindKey ctx.kv key with
  | none =>
    refine (remove_absent fun e he hkey => ?_).symm
    have hother := List.findIdx?_eq_none_iff.mp hfind e he
    simp [(CString.noNul_eq (h.noNul e he)).mpr hkey] at hother
  | some i =>
    obtain ⟨hlt, hfound, -⟩ := List.findIdx?_eq_some_iff_getElem.mp hfind
    have hkey : (ctx.kv[i]).key = key.bytes :=
      (CString.noNul_eq (h.noNul _ (List.getElem_mem hlt))).mp (by simpa using hfound)
    have hsplit : ctx.kv.take i ++ ctx.kv[i] :: ctx.kv.drop (i + 1) = ctx.kv := by
      rw [List.getElem_cons_drop, List.take_append_drop]
    have hnodup := h.nodup
    rw [← hsplit] at hnodup
    have hgone := remove_entry hnodup
    rw [hsplit, hkey] at hgone
    exact (List.eraseIdx_eq_take_drop_succ ctx.kv i).trans hgone.symm

theorem Sets.apply {key : CString} {kv : GgufKv} (hs : Sets lib ctx key kv ctx') (h : PairsKept lib ctx.kv) :
    ctx'.kv = (put GgufKv.key kv).apply GgufKv.key ctx.kv := by
  rw [hs.result]
  unfold put puts Change.apply
  rw [List.map_singleton, hs.named]
  exact congrArg (· ++ [kv]) ((remove_apply h key).trans (List.append_nil _))

theorem setKv_apply {src : GgufContext} (h : StoreKept lib ctx.kv) (hsrc : StoreKept lib src.kv)
    (hstrings : ∀ e ∈ src.kv, ∀ s ∈ e.dataString, 0 ∉ s) (hcall : ggufSetKv lib ctx src = .ok ctx') : ctx'.kv = (puts GgufKv.key src.kv).apply GgufKv.key ctx.kv := by
  rw [← foldl_put hsrc.pairs.nodup]
  unfold ggufSetKv at hcall
  obtain ⟨⟨hproper, hzero, -, -⟩, hflags⟩ := hsrc
  generalize src.kv = kvs at hcall hproper hzero hstrings hflags ⊢
  induction kvs generalizing ctx with
  | nil =>
    cases hcall
    rfl
  | cons e kvs ih =>
    obtain ⟨hok, hproper⟩ := List.forall_mem_cons.mp hproper
    obtain ⟨hkey, hzero⟩ := List.forall_mem_cons.mp hzero
    obtain ⟨hstring, hstrings⟩ := List.forall_mem_cons.mp hstrings
    obtain ⟨hflag, hflags⟩ := List.forall_mem_cons.mp hflags
    obtain ⟨mid, hone, hrest⟩ := except_bind_ok.mp hcall
    have hs := ggufSetOne_copies hok hkey hstring hflag hone
    rw [List.foldl_cons, ← hs.apply h.pairs]
    exact ih (h.ofSets hs hflag) hrest hproper hzero hstrings hflags

/-- One call is one change of the map. -/
theorem Call.apply_change {c : Call} (h : StoreKept lib ctx.kv) (hc : c.Whole lib) (hcall : c.apply lib ctx = .ok ctx') :
    ctx'.kv = c.change.apply GgufKv.key ctx.kv := by
  cases c with
  | setVal key val single => exact (ggufSetVal_sets (.inl single) hcall).apply h.pairs
  | setValStr key val => exact (ggufSetValStr_sets hcall).apply h.pairs
  | setArrData key type data n =>
    have hs := ggufSetArrData_sets hcall
    rw [wrap64_of_lt hc] at hs
    exact hs.apply h.pairs
  | setArrStr key data => exact (ggufSetArrStr_sets hcall).apply h.pairs
  | setKv src => exact setKv_apply h hc.1.kept hc.2 hcall
  | removeKey key =>
    cases hcall
    exact remove_apply h.pairs key
  | addTensor t =>
    obtain ⟨offset, rfl, -, -⟩ := ggufAddTensor_spec hcall
    exact (keep_apply _).symm
  | setTensorType name type =>
    rw [(ggufSetTensorType_spec hcall).1]
    exact (keep_apply _).symm
  | setTensorData name data =>
    rw [(ggufSetTensorData_spec hcall).1]
    exact (keep_apply _).symm

theorem Call.change_proper {c : Call} (hc : c.Whole lib) : c.change.Proper GgufKv.key := by
  cases c with
  | setKv src => exact puts_proper hc.1.kept.pairs.nodup
  | removeKey key => exact remove_proper _
  | addTensor t => exact keep_proper
  | setTensorType name type => exact keep_proper
  | setTensorData name data => exact keep_proper
  | _ => exact put_proper _

theorem ggufFindKey_iff {kv : List GgufKv} (h : PairsKept lib kv) (key : CString) (i : ℕ) :
    ggufFindKey kv key = some i ↔ (kv[i]?).map GgufKv.key = some key.bytes := by
  have hmatch : ∀ j (hj : j < kv.length), decide (cStr (kv[j]).key = key) = true ↔ (kv[j]).key = key.bytes := fun j hj =>
    decide_eq_true_iff.trans (CString.noNul_eq (h.noNul _ (List.getElem_mem hj)))
  unfold ggufFindKey
  rw [List.findIdx?_eq_some_iff_getElem]
  constructor
  · rintro ⟨hlt, hfound, -⟩
    rw [List.getElem?_eq_getElem hlt, Option.map_some, (hmatch i hlt).mp hfound]
  · intro hget
    obtain ⟨e, he, hkey⟩ := Option.map_eq_some_iff.mp hget
    obtain ⟨hlt, rfl⟩ := List.getElem?_eq_some_iff.mp he
    refine ⟨hlt, (hmatch i hlt).mpr hkey, fun j hj hfound => ?_⟩
    exact List.pairwise_iff_getElem.mp h.distinct j i (hj.trans hlt) hlt hj (((hmatch j (hj.trans hlt)).mp hfound).trans hkey.symm)

theorem runCalls_change {calls : List Call} (h : StoreKept lib ctx.kv) (hcalls : ∀ c ∈ calls, c.Whole lib)
    (hrun : runCalls lib ctx calls = .ok ctx') :
    StoreKept lib ctx'.kv ∧ ctx'.kv = run GgufKv.key (calls.map Call.change) ctx.kv := by
  unfold runCalls at hrun
  induction calls generalizing ctx with
  | nil =>
    cases hrun
    exact ⟨h, rfl⟩
  | cons c calls ih =>
    obtain ⟨hc, hcalls⟩ := List.forall_mem_cons.mp hcalls
    obtain ⟨mid, hfirst, hrest⟩ := except_bind_ok.mp hrun
    obtain ⟨hkept, hsame⟩ := ih (h.step hfirst) hcalls hrest
    refine ⟨hkept, hsame.trans ?_⟩
    rw [Call.apply_change h hc hfirst]
    rfl

/-- Without zero bytes in keys and in copied strings, and with arrays whose bytes can be counted, the pairs are an insertion-ordered map after
every run of calls. -/
theorem store_is_map (lib : CxxLibrary) {start ctx : GgufContext} {calls : List Call} (hstart : Known lib start)
    (hcalls : ∀ c ∈ calls, c.Whole lib) (hrun : runCalls lib start calls = .ok ctx) :
    MapLaws start.kv calls ctx.kv := by
  obtain ⟨hkept, hsame⟩ := runCalls_change hstart.kept hcalls hrun
  have hproper : ∀ c ∈ calls.map Call.change, c.Proper GgufKv.key := by
    intro c hc
    obtain ⟨call, hcall, rfl⟩ := List.mem_map.mp hc
    exact Call.change_proper (hcalls call hcall)
  refine ⟨hkept.pairs.nodup, ggufFindKey_iff hkept.pairs, fun e => ?_, hsame⟩
  rw [hsame]
  exact mem_run_iff hproper hstart.kept.pairs.nodup e

end Stores

section Cases

theorem u16_single (n : BitVec 16) : (Scalar.u16 n).type ≠ .string := nofun

/-- A number and a string under other keys, the number overwritten. -/
def secondCalls (src : GgufContext) : List Call :=
  [.setVal (cStr [97]) (.u16 7) (u16_single 7), .setValStr (cStr [98]) (cStr [120, 121]), .setKv src]

theorem store_is_map_copied :
    ∃ src ctx, runCalls libstdcxx ggufInitEmpty [.setVal (cStr [97]) (.u8 1) nofun] = .ok src ∧
      runCalls libstdcxx ggufInitEmpty (secondCalls src) = .ok ctx ∧ ctx.kv.map GgufKv.key = [[98], [97]] ∧
      MapLaws [] (secondCalls src) ctx.kv := by
  have hempty : Known libstdcxx ggufInitEmpty := .start ⟨.empty, fun _ he => (nomatch he)⟩
  refine ⟨_, _, rfl, rfl, rfl, store_is_map libstdcxx hempty ?_ rfl⟩
  refine List.forall_mem_cons.mpr ⟨trivial, List.forall_mem_cons.mpr ⟨trivial, List.forall_mem_singleton.mpr ?_⟩⟩
  exact ⟨hempty.step (i := .setVal (cStr [97]) (.u8 1) nofun) rfl, by decide⟩

/-- Two bytes under keys that differ behind a zero byte, and a string of three characters with a zero byte. -/
def zeroBytesFile : List UInt8 :=
  headerBytes 0 3 ++ (writeString [97, 0, 98] ++ leBytes 4 GgufType.uint8.code ++ [1]) ++
    (writeString [97, 0, 99] ++ leBytes 4 GgufType.uint8.code ++ [2]) ++
    (writeString [107] ++ leBytes 4 GgufType.string.code ++ writeString [120, 0, 121])

set_option maxRecDepth 20000 in
/-- Of three pairs two are left, and the string ends at its zero byte. -/
theorem not_store_is_map :
    ∃ r ctx, ggufInitFromFileImpl libstdcxx zeroLocals ⟨true, false⟩ zeroBytesFile = .ok r ∧ r.ctx.kv.length = 3 ∧
      runCalls libstdcxx ggufInitEmpty [.setKv r.ctx] = .ok ctx ∧
      ctx.kv = [⟨[97], false, .uint8, [2], []⟩, ⟨[107], false, .string, [], [[120]]⟩] ∧
      ¬MapLaws [] [.setKv r.ctx] ctx.kv := by
  refine ⟨_, _, rfl, rfl, rfl, rfl, fun laws => ?_⟩
  have hlength := congrArg List.length laws.order
  exact absurd hlength (by decide)

end Cases

end PyannoteCpp.Gguf
