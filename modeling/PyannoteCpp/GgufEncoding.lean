import PyannoteCpp.GgufFaults
import PyannoteCpp.GgufWriter

set_option autoImplicit false

/-!
# What the GGUF writer writes is in the reader's grammar

Pairs with a proper key and tensor infos with distinct names come back as they are,
up to the bytes of booleans and the strides of tensors.
-/
namespace PyannoteCpp.Gguf
open PrefixGrammar

section Pairs

variable (lib : CxxLibrary)

/-- A pair that the reader takes once it is written. -/
structure KvOk (kv : GgufKv) : Prop where
  named : kv.key ≠ []
  keyFits : kv.key.length ≤ lib.stringMax
  strings : kv.type = .string → kv.data = [] ∧ (∀ s ∈ kv.dataString, s.length ≤ lib.stringMax) ∧
    if kv.isArray then kv.dataString.length ≤ vectorMax sizeofString else kv.dataString.length = 1
  numbers : kv.type ≠ .string → kv.type ≠ .array ∧ kv.dataString = [] ∧
    ∃ n, kv.data.length = n * kv.type.size ∧ n ≤ vectorMax kv.type.size ∧ (kv.isArray = false → n = 1)

def GgufKv.normal (kv : GgufKv) : GgufKv := { kv with data := normaliseBool kv.type kv.data }

variable {lib} {kv : GgufKv}

theorem mapM_ok {ε α β : Type} {f : α → Except ε β} {g : α → β} (l : List α) (h : ∀ a ∈ l, f a = .ok (g a)) :
    l.mapM f = .ok (l.map g) := by
  induction l with
  | nil => rfl
  | cons a l ih =>
    obtain ⟨ha, hl⟩ := List.forall_mem_cons.mp h
    rw [List.mapM_cons, ha, ih hl]
    rfl

theorem range_getD {α : Type} (l : List α) (d : α) : (List.range l.length).map (l.getD · d) = l := by
  apply List.ext_getElem
  · simp
  · intro i h₁ h₂
    simp [h₂]

theorem getVal_string (htype : kv.type = .string) {i : ℕ} (hi : i < kv.dataString.length) :
    kv.getVal i = .ok (kv.dataString.getD i []) := by
  unfold GgufKv.getVal
  rw [if_pos htype, if_pos (by omega)]

theorem getVal_bool (htype : kv.type = .bool) {i : ℕ} (hi : i < kv.data.length) :
    kv.getVal i = .ok [kv.data.getD i 0] := by
  have hsize : GgufType.size .bool = 1 := rfl
  have hslice : (kv.data.drop i).take 1 = [kv.data.getD i 0] := by
    rw [List.drop_eq_getElem_cons hi, List.take_succ_cons, List.take_zero, List.getD_eq_getElem _ _ hi]
  unfold GgufKv.getVal
  rw [htype, if_neg (by decide), hsize, if_neg (by decide), if_neg (by omega), if_pos (by omega), Nat.mul_one, hslice]

def GgufKv.count (kv : GgufKv) : ℕ :=
  if kv.type = .string then kv.dataString.length else kv.data.length / kv.type.size

theorem KvOk.size_pos (h : KvOk lib kv) (htype : kv.type ≠ .string) : 0 < kv.type.size :=
  GgufType.size_pos htype (h.numbers htype).1

theorem KvOk.length_eq (h : KvOk lib kv) (htype : kv.type ≠ .string) :
    kv.data.length = kv.count * kv.type.size ∧ kv.count ≤ vectorMax kv.type.size ∧ (kv.isArray = false → kv.count = 1) := by
  obtain ⟨-, -, n, hlen, hmax, hone⟩ := h.numbers htype
  have hcount : kv.count = n := by
    unfold GgufKv.count
    rw [if_neg htype, hlen, Nat.mul_div_cancel _ (h.size_pos htype)]
  rw [hcount]
  exact ⟨hlen, hmax, hone⟩

theorem KvOk.getNe (h : KvOk lib kv) : kv.getNe = .ok kv.count := by
  by_cases htype : kv.type = .string
  · obtain ⟨-, -, hcount⟩ := h.strings htype
    have hproper : kv.isArray = true ∨ kv.dataString.length = 1 := by
      split at hcount
      · exact .inl ‹_›
      · exact .inr hcount
    unfold GgufKv.getNe GgufKv.count
    rw [if_pos htype, if_pos hproper, if_pos htype]
  · obtain ⟨hlen, -, hone⟩ := h.length_eq htype
    have hpos := h.size_pos htype
    have hdiv : kv.data.length / kv.type.size = kv.count := by rw [hlen, Nat.mul_div_cancel _ hpos]
    have hproper : kv.isArray = true ∨ kv.count = 1 := by
      cases harray : kv.isArray with
      | true => exact .inl rfl
      | false => exact .inr (hone harray)
    have hmod : ¬kv.data.length % kv.type.size ≠ 0 := by rw [hlen, Nat.mul_mod_left]; exact not_not.mpr rfl
    unfold GgufKv.getNe
    rw [if_neg htype, if_neg hpos.ne', if_neg hmod, hdiv, if_pos hproper]

def GgufKv.values (kv : GgufKv) : List UInt8 :=
  if kv.type = .string then kv.dataString.flatMap writeString else normaliseBool kv.type kv.data

theorem writeValues_ok (h : KvOk lib kv) : writeValues kv kv.count = .ok kv.values := by
  by_cases htype : kv.type = .string
  · have hvalues := mapM_ok (f := kv.getVal) (g := (kv.dataString.getD · [])) (List.range kv.dataString.length)
      (fun i hi => getVal_string htype (List.mem_range.mp hi))
    have hcount : kv.count = kv.dataString.length := if_pos htype
    unfold writeValues GgufKv.values
    rw [htype, if_pos rfl, hcount]
    change (List.range kv.dataString.length).mapM kv.getVal >>= _ = _
    rw [hvalues, range_getD]
    rfl
  · by_cases hbool : kv.type = .bool
    · have hsize : GgufType.size .bool = 1 := rfl
      have hvalues := mapM_ok (f := kv.getVal) (g := fun i => [kv.data.getD i 0]) (List.range kv.data.length)
        (fun i hi => getVal_bool hbool (List.mem_range.mp hi))
      have hcount : kv.count = kv.data.length := by
        unfold GgufKv.count
        rw [if_neg htype, hbool, hsize, Nat.div_one]
      have hbyte : ∀ b : UInt8, (if leValue [b] = 0 then 0 else 1 : UInt8) = if b = 0 then 0 else 1 := by
        intro b
        simp [leValue, ← UInt8.toNat_inj]
      unfold writeValues GgufKv.values normaliseBool
      rw [hbool, if_neg (by decide), if_pos rfl, hcount]
      change (List.range kv.data.length).mapM kv.getVal >>= _ = _
      rw [hvalues]
      change Except.ok (((List.range kv.data.length).map fun i => [kv.data.getD i 0]).map _) = _
      rw [List.map_map]
      conv_rhs => rw [← range_getD kv.data 0, List.map_map]
      exact congrArg Except.ok (List.map_congr_left fun i _ => hbyte _)
    · have hraw : kv.values = kv.data := by
        unfold GgufKv.values normaliseBool
        rw [if_neg htype, if_neg hbool]
      have harray := (h.numbers htype).1
      rw [hraw]
      unfold writeValues
      cases hkind : kv.type <;> first | rfl | contradiction

def GgufKv.typeBytes (kv : GgufKv) : List UInt8 :=
  if kv.isArray then leBytes 4 GgufType.array.code ++ leBytes 4 kv.type.code ++ leBytes 8 kv.count
  else leBytes 4 kv.type.code

theorem writeKv_ok (h : KvOk lib kv) : writeKv kv = .ok (writeString kv.key ++ kv.typeBytes ++ kv.values) := by
  unfold writeKv
  rw [h.getNe]
  change writeValues kv kv.count >>= _ = _
  rw [writeValues_ok h]
  rfl

theorem normaliseBool_length (type : GgufType) (raw : List UInt8) : (normaliseBool type raw).length = raw.length := by
  unfold normaliseBool
  split
  · exact List.length_map _
  · rfl

theorem normaliseBool_idem (type : GgufType) (raw : List UInt8) :
    normaliseBool type (normaliseBool type raw) = normaliseBool type raw := by
  unfold normaliseBool
  split
  · rw [List.map_map]
    refine List.map_congr_left fun b _ => ?_
    change (if (if b = 0 then 0 else 1 : UInt8) = 0 then 0 else 1 : UInt8) = if b = 0 then 0 else 1
    split_ifs <;> first | rfl | contradiction
  · rfl

/-- A written pair is one that the reader takes. -/
theorem writeKv_front (h : KvOk lib kv) {kvs : List GgufKv} (hnew : ∀ other ∈ kvs, kv.key ≠ other.key)
    (hroom : kvs.length < vectorMax sizeofKv) :
    KvFront lib kvs (kvs ++ [kv.normal]) (writeString kv.key ++ kv.typeBytes ++ kv.values) := by
  have hcount : kv.count < 2 ^ 64 := by
    have hmax : ∀ n, vectorMax n < 2 ^ 64 := fun n => (Nat.div_le_self _ _).trans_lt (by decide)
    by_cases htype : kv.type = .string
    · obtain ⟨-, -, hcount⟩ := h.strings htype
      have hstring := hmax sizeofString
      unfold GgufKv.count
      rw [if_pos htype]
      split at hcount
      · omega
      · omega
    · exact (h.length_eq htype).2.1.trans_lt (hmax _)
  have harray : kv.type ≠ .array := by
    by_cases htype : kv.type = .string
    · rw [htype]
      decide
    · exact (h.numbers htype).1
  have hone : kv.isArray = false → kv.count = 1 := fun hsingle => by
    by_cases htype : kv.type = .string
    · have hlength := (h.strings htype).2.2
      rw [hsingle] at hlength
      exact (if_pos htype).trans hlength
    · exact (h.length_eq htype).2.2 hsingle
  refine ⟨kv.key, ⟨kv.isArray, kv.type, kv.count⟩, (normaliseBool kv.type kv.data, kv.dataString), _, kv.values,
    ⟨h.keyFits, hnew, kv.typeBytes, ⟨harray, ?_⟩, rfl⟩, ?_, hroom, h.named, rfl, rfl⟩
  · unfold GgufKv.typeBytes
    cases hkind : kv.isArray with
    | true => exact ⟨hcount, List.append_assoc _ _ _⟩
    | false => exact ⟨hone hkind, rfl⟩
  · unfold ValueFront GgufKv.values
    by_cases htype : kv.type = .string
    · obtain ⟨hdata, hstrings, hlength⟩ := h.strings htype
      have hempty : normaliseBool kv.type kv.data = [] := List.eq_nil_of_length_eq_zero (by
        rw [normaliseBool_length, hdata]
        rfl)
      have hcountEq : kv.count = kv.dataString.length := if_pos htype
      dsimp only
      rw [if_pos htype, if_pos htype, hcountEq]
      refine ⟨hempty, hstrings, rfl, ?_⟩
      split at hlength
      · rw [if_pos ‹_›]
        exact ⟨rfl, hlength⟩
      · rw [if_neg ‹_›]
        exact hlength
    · obtain ⟨-, hstring, -⟩ := h.numbers htype
      obtain ⟨hlen, hmax, -⟩ := h.length_eq htype
      dsimp only
      rw [if_neg htype, if_neg htype, normaliseBool_idem, normaliseBool_length]
      exact ⟨hstring, rfl, hlen, hmax⟩

theorem writeKvs_turns {kvs : List GgufKv} (before : List GgufKv) (hok : ∀ kv ∈ kvs, KvOk lib kv)
    (hnew : ∀ kv ∈ kvs, ∀ other ∈ before, kv.key ≠ other.key) (hdistinct : kvs.Pairwise fun a b => a.key ≠ b.key)
    (hroom : before.length + kvs.length ≤ vectorMax sizeofKv) :
    ∃ fronts, kvs.mapM writeKv = .ok fronts ∧
      Turns (KvFront lib) kvs.length (before.map GgufKv.normal) ((before ++ kvs).map GgufKv.normal) fronts.flatten := by
  induction kvs generalizing before with
  | nil => exact ⟨[], rfl, by simpa using Turns.done _⟩
  | cons kv kvs ih =>
    obtain ⟨hkv, hok⟩ := List.forall_mem_cons.mp hok
    obtain ⟨hfresh, hnew⟩ := List.forall_mem_cons.mp hnew
    obtain ⟨hfirst, hdistinct⟩ := List.pairwise_cons.mp hdistinct
    rw [List.length_cons] at hroom
    have hnext : ∀ other ∈ kvs, ∀ earlier ∈ before ++ [kv], other.key ≠ earlier.key := by
      intro other hother
      exact List.forall_mem_append.mpr ⟨hnew other hother, List.forall_mem_singleton.mpr (hfirst other hother).symm⟩
    obtain ⟨fronts, hwrite, hturns⟩ := ih (before ++ [kv]) hok hnext hdistinct (by simp; omega)
    have hmapped : ∀ other ∈ before.map GgufKv.normal, kv.key ≠ other.key := by
      intro other hother
      obtain ⟨o, ho, rfl⟩ := List.mem_map.mp hother
      exact hfresh o ho
    have hhead := writeKv_front hkv hmapped (by simp; omega)
    refine ⟨(writeString kv.key ++ kv.typeBytes ++ kv.values) :: fronts, ?_, ?_⟩
    · rw [List.mapM_cons, writeKv_ok hkv, hwrite]
      rfl
    · rw [List.map_append, List.map_singleton, List.append_assoc] at hturns
      exact .next hhead hturns

end Pairs

section Infos

variable (lib : CxxLibrary) (locals : ℕ → TensorLocals)

/-- The infos as they come back. -/
def reread (infos : List TensorInfo) : List TensorInfo :=
  infos.mapIdx fun i ti => readInfo locals i ti.t.name ti.t.ne ⟨ti.t.type, ti.t.wholeBlocks⟩ ti.offset

theorem reread_append (infos : List TensorInfo) (ti : TensorInfo) :
    reread locals (infos ++ [ti]) = reread locals infos ++
      [readInfo locals infos.length ti.t.name ti.t.ne ⟨ti.t.type, ti.t.wholeBlocks⟩ ti.offset] := List.mapIdx_concat

theorem reread_length (infos : List TensorInfo) : (reread locals infos).length = infos.length := List.length_mapIdx

theorem mem_reread {infos : List TensorInfo} {ti : TensorInfo} (h : ti ∈ reread locals infos) :
    ∃ i, ∃ original ∈ infos, ti =
      readInfo locals i original.t.name original.t.ne ⟨original.t.type, original.t.wholeBlocks⟩ original.offset := by
  obtain ⟨i, hi, rfl⟩ := List.mem_mapIdx.mp h
  exact ⟨i, _, List.getElem_mem _, rfl⟩

/-- Whatever is computed from what the file holds of an info is computed from the info that comes back. -/
theorem reread_map {α : Type} {f g : TensorInfo → α} {infos : List TensorInfo}
    (same : ∀ i, ∀ ti ∈ infos,
      f (readInfo locals i ti.t.name ti.t.ne ⟨ti.t.type, ti.t.wholeBlocks⟩ ti.offset) = g ti) :
    (reread locals infos).map f = infos.map g := by
  unfold reread
  apply List.ext_getElem
  · simp
  · intro i h₁ h₂
    rw [List.length_map] at h₂
    simp [same i _ (List.getElem_mem h₂)]

theorem ElementsFit.le_max {ne : Dims} (h : ElementsFit ne) : ∀ n ∈ Dims.toList ne, n ≤ int64Max := by
  obtain ⟨p1, p2, p3⟩ := h.pos
  have hmax : ∀ {n elements : ℕ}, elements < int64Max / n → n ≤ int64Max := fun {n elements} hlt => by
    by_contra hover
    rw [Nat.div_eq_of_lt (by omega)] at hlt
    exact absurd hlt (Nat.not_lt_zero _)
  have hfirst : ne.n0 ≤ int64Max := (h.1.trans_le (Nat.div_le_self _ _)).le
  have h1 := hmax h.1
  have h2 := hmax h.2.1
  have h3 := hmax h.2.2
  simp [Dims.toList, *]

theorem dims_front {ne : Dims} (h : ElementsFit ne) :
    DimsFront ne (leBytes 4 (ggmlNDims ne) ++ (Dims.written ne).flatMap (leBytes 8)) := by
  obtain ⟨p1, p2, p3⟩ := h.pos
  refine ⟨ggmlNDims ne, ?_, fun n hn => h.le_max n (List.mem_of_mem_take hn), ?_, rfl⟩
  · unfold ggmlNDims
    split_ifs <;> decide
  · unfold ggmlNDims
    split_ifs <;> simp [Dims.toList] <;> omega

theorem writeTensorMeta_front {infos : List TensorInfo} {ti : TensorInfo} (hfit : ElementsFit ti.t.ne)
    (hoffset : ti.offset < 2 ^ 64) (hnew : ∀ other ∈ infos, ti.t.name ≠ other.t.name)
    (hroom : infos.length < vectorMax sizeofTensorInfo) :
    InfoFront lib locals infos
      (infos ++ [readInfo locals infos.length ti.t.name ti.t.ne ⟨ti.t.type, ti.t.wholeBlocks⟩ ti.offset])
      (writeTensorMeta ti) := by
  have hshort := ti.t.name.short
  have hlarge := lib.large
  have hname : NameFront lib infos ti.t.name (writeString ti.t.name.bytes) :=
    ⟨ti.t.name.bytes, by omega, hshort, hnew, (ggmlSetName_bytes ti.t.name).symm, rfl⟩
  refine ⟨ti.t.name, ti.t.ne, ⟨ti.t.type, ti.t.wholeBlocks⟩, ti.offset, _, _, hname, dims_front hfit, hfit, hroom,
    hoffset, rfl, ?_⟩
  unfold writeTensorMeta
  rw [List.append_assoc (writeString ti.t.name.bytes)]

theorem writeInfos_turns {infos : List TensorInfo} (before : List TensorInfo)
    (hok : ∀ ti ∈ infos, ElementsFit ti.t.ne ∧ ti.offset < 2 ^ 64)
    (hnew : ∀ ti ∈ infos, ∀ other ∈ before, ti.t.name ≠ other.t.name)
    (hdistinct : infos.Pairwise fun a b => a.t.name ≠ b.t.name)
    (hroom : before.length + infos.length ≤ vectorMax sizeofTensorInfo) :
    Turns (InfoFront lib locals) infos.length (reread locals before) (reread locals (before ++ infos))
      (infos.flatMap writeTensorMeta) := by
  induction infos generalizing before with
  | nil => simpa using Turns.done _
  | cons ti infos ih =>
    obtain ⟨⟨hfit, hoffset⟩, hok⟩ := List.forall_mem_cons.mp hok
    obtain ⟨hfresh, hnew⟩ := List.forall_mem_cons.mp hnew
    obtain ⟨hfirst, hdistinct⟩ := List.pairwise_cons.mp hdistinct
    rw [List.length_cons] at hroom
    have hnext : ∀ other ∈ infos, ∀ earlier ∈ before ++ [ti], other.t.name ≠ earlier.t.name := by
      intro other hother
      exact List.forall_mem_append.mpr ⟨hnew other hother, List.forall_mem_singleton.mpr (hfirst other hother).symm⟩
    have hturns := ih (before ++ [ti]) hok hnext hdistinct (by simp; omega)
    have hreread : ∀ other ∈ reread locals before, ti.t.name ≠ other.t.name := by
      intro other hother
      obtain ⟨_, original, horiginal, rfl⟩ := mem_reread locals hother
      exact hfresh original horiginal
    have hhead := writeTensorMeta_front lib locals hfit hoffset hreread (by rw [reread_length]; omega)
    rw [reread_length, ← reread_append] at hhead
    rw [List.append_assoc] at hturns
    exact .next hhead hturns

end Infos

end PyannoteCpp.Gguf
