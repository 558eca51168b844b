import PyannoteCpp.GgufBuilt
import PyannoteCpp.GgufTable

set_option autoImplicit false

/-!
# The layout of the tensor data

Every call keeps the offsets in step with the sizes, modulo `2 ^ 64`. They are
consecutive as long as the data before the last tensor can be counted.
-/
namespace PyannoteCpp.Gguf
open PrefixGrammar

/-- Each offset is what the program computes from the tensor before. -/
def Follows (alignment : ℕ) : ℕ → List TensorInfo → Prop
  | _, [] => True
  | size, ti :: infos => ti.offset = size ∧ Follows alignment (ti.next alignment) infos

def TensorInfo.padded (alignment : ℕ) (ti : TensorInfo) : ℕ := exactPad ti.t.nbytes alignment

def TensorInfo.extent (ti : TensorInfo) : Set ℕ := Set.Ico ti.offset (ti.offset + ti.t.nbytes)

structure Consecutive (ctx : GgufContext) : Prop where
  first : ∀ ti ∈ ctx.info.head?, ti.offset = 0
  next : ∀ i a b, ctx.info[i]? = some a → ctx.info[i + 1]? = some b → b.offset = a.offset + a.padded ctx.alignment
  aligned : ∀ ti ∈ ctx.info, ctx.alignment ∣ ti.offset
  disjoint : ctx.info.Pairwise (fun a b => Disjoint a.extent b.extent)

/-- The assertion on the offset holds for every tensor that the writer comes to with a vector of a size it can have. -/
def OffsetsAsserted (ctx : GgufContext) : Prop :=
  ∀ start i buf ti, writeMeta ctx = .ok start →
    (ctx.info.take i).foldlM (writeTensorData start.length ctx.alignment) start = .ok buf → buf.length ≤ vectorMax 1 →
    ctx.info[i]? = some ti → buf.length - start.length = ti.offset

/-- The data before the last tensor is less than `2 ^ 64` bytes. -/
def DataFits (ctx : GgufContext) : Prop := (ctx.info.dropLast.map (TensorInfo.padded ctx.alignment)).sum < 2 ^ 64

/-- A new context, or the one of a file that was read. -/
def Opened (ctx : GgufContext) : Prop :=
  ctx = ggufInitEmpty ∨ ∃ lib locals params content r, ggufInitFromFileImpl lib locals params content = .ok r ∧ ctx = r.ctx

variable {alignment size total : ℕ} {infos infos' : List TensorInfo} {ti before : TensorInfo} {ctx ctx' : GgufContext}
  {lib : CxxLibrary}

section Offsets

theorem follows_append : Follows alignment size (infos ++ infos') ↔ Follows alignment size infos ∧
    Follows alignment (infos.getLast?.elim size (TensorInfo.next alignment)) infos' := by
  induction infos generalizing size with
  | nil => exact ⟨fun h => ⟨trivial, h⟩, And.right⟩
  | cons ti infos ih =>
    have hlast : (ti :: infos).getLast?.elim size (TensorInfo.next alignment) =
        infos.getLast?.elim (ti.next alignment) (TensorInfo.next alignment) := by
      cases infos with
      | nil => rfl
      | cons ti' infos => rw [List.getLast?_cons_cons]; rfl
    rw [hlast, List.cons_append, Follows, Follows, ih, and_assoc]

theorem follows_updateOffsets (infos : List TensorInfo) : ∀ before : TensorInfo,
    Follows alignment (before.next alignment) (updateOffsets alignment before infos) := by
  induction infos with
  | nil => exact fun _ => trivial
  | cons ti infos ih => exact fun before => ⟨rfl, ih _⟩

theorem Follows.congr (h : Follows alignment size infos)
    (same : infos'.map (fun ti => (ti.offset, ti.t.nbytes)) = infos.map (fun ti => (ti.offset, ti.t.nbytes))) :
    Follows alignment size infos' := by
  induction infos generalizing size infos' with
  | nil =>
    rw [List.map_nil, List.map_eq_nil_iff] at same
    exact same ▸ trivial
  | cons ti infos ih =>
    cases infos' with
    | nil => cases same
    | cons ti' infos' =>
      obtain ⟨hhead, htail⟩ := List.cons.inj same
      obtain ⟨hoffset, hbytes⟩ := Prod.mk.inj hhead
      have hnext : ti'.next alignment = ti.next alignment := by rw [TensorInfo.next, hoffset, hbytes, TensorInfo.next]
      exact ⟨hoffset.trans h.1, hnext ▸ ih h.2 htail⟩

theorem LaidOut.follows (h : LaidOut alignment size infos total) : Follows alignment size infos := by
  induction infos generalizing size with
  | nil => trivial
  | cons ti infos ih =>
    obtain ⟨hoffset, hlt, hrest⟩ := h
    have hnext : ti.next alignment = size + ggmlPad ti.t.nbytes alignment := by
      rw [TensorInfo.next, hoffset, wrap64_of_lt hlt]
    exact ⟨hoffset, hnext ▸ ih hrest⟩

theorem Follows.offset_lt (h : Follows alignment size infos) (hsize : size < 2 ^ 64) : ∀ ti ∈ infos, ti.offset < 2 ^ 64 := by
  induction infos generalizing size with
  | nil => exact fun ti hti => nomatch hti
  | cons ti infos ih => exact List.forall_mem_cons.mpr ⟨h.1 ▸ hsize, ih h.2 (wrap64_lt _)⟩

/-- Where the loop of the reader or of the writer has come to. -/
theorem LaidOut.offset_next (h : LaidOut alignment size infos total) (hall : Follows alignment size (infos ++ [ti])) :
    ti.offset = total := by
  induction infos generalizing size with
  | nil => exact hall.1.trans h
  | cons first infos ih =>
    obtain ⟨hoffset, hlt, hrest⟩ := h
    have hnext : first.next alignment = size + ggmlPad first.t.nbytes alignment := by
      rw [TensorInfo.next, hoffset, wrap64_of_lt hlt]
    exact ih hrest (hnext ▸ hall.2)

variable (hpos : 0 < alignment) (hdvd : alignment ∣ 2 ^ 64)
include hpos hdvd

/-- As long as the data before it can be counted, a tensor starts where that data ends. -/
theorem Follows.offset_eq (h : Follows alignment size infos) {i : ℕ} (hi : infos[i]? = some ti)
    (hfits : size + ((infos.take i).map (TensorInfo.padded alignment)).sum < 2 ^ 64) :
    ti.offset = size + ((infos.take i).map (TensorInfo.padded alignment)).sum := by
  induction infos generalizing size i with
  | nil => cases hi
  | cons first infos ih =>
    obtain ⟨hoffset, hrest⟩ := h
    cases i with
    | zero =>
      obtain rfl := Option.some.inj hi
      exact hoffset
    | succ i =>
      rw [List.take_succ_cons, List.map_cons, List.sum_cons] at hfits ⊢
      have hpad : ggmlPad first.t.nbytes alignment = first.padded alignment := by
        refine ggmlPad_eq hpos hdvd ?_
        change first.padded alignment < 2 ^ 64
        omega
      have hnext : first.next alignment = size + first.padded alignment := by
        rw [TensorInfo.next, hpad, hoffset, wrap64_of_lt (by omega)]
      rw [hnext] at hrest
      have hlater := ih hrest hi (by omega)
      omega

end Offsets

section Calls

/-- What every call keeps. -/
structure Laid (ctx : GgufContext) : Prop where
  follows : Follows ctx.alignment 0 ctx.info
  power : isPowerOfTwo ctx.alignment
  alignment_lt : ctx.alignment < 2 ^ 32

theorem Laid.pos (h : Laid ctx) : 0 < ctx.alignment := Nat.pos_of_ne_zero h.power.1

theorem Laid.dvd (h : Laid ctx) : ctx.alignment ∣ 2 ^ 64 := by
  obtain ⟨k, hk⟩ := Nat.ne_zero_and_sub_one_eq_zero_iff_isPowerOfTwo.mp h.power
  have hlt := h.alignment_lt
  rw [hk] at hlt ⊢
  have hle := (Nat.pow_lt_pow_iff_right (by norm_num)).mp hlt
  exact Nat.pow_dvd_pow 2 (by omega)

theorem laid_opened (h : Opened ctx) : Laid ctx := by
  rcases h with rfl | ⟨lib, locals, params, content, r, hread, rfl⟩
  · exact ⟨trivial, by decide, by decide⟩
  · obtain ⟨parsed, front, rest, size, hfront, -, hlaid, hctx⟩ := accepted hread
    obtain ⟨_, _, _, -, -, halign, -, -⟩ := hfront
    obtain ⟨halign, hpower⟩ := readAlignment_spec halign
    rw [hctx]
    exact ⟨hlaid.follows, hpower, kvAlignment_lt halign⟩

theorem Laid.ofSame (h : Laid ctx) (halign : ctx'.alignment = ctx.alignment)
    (hinfo : ctx'.info.map (fun ti => (ti.offset, ti.t.nbytes)) = ctx.info.map (fun ti => (ti.offset, ti.t.nbytes))) :
    Laid ctx' := by
  refine ⟨?_, halign ▸ h.power, halign ▸ h.alignment_lt⟩
  rw [halign]
  exact h.follows.congr hinfo

theorem Laid.ofSets {key : CString} {kv : GgufKv} (h : Laid ctx) (hs : Sets lib ctx key kv ctx') : Laid ctx' :=
  h.ofSame hs.info.2.1 (by rw [hs.info.1])

theorem Laid.addTensor {t : GgmlTensor} (h : Laid ctx) (hadd : ggufAddTensor ctx t = .ok ctx') : Laid ctx' := by
  unfold ggufAddTensor at hadd
  split_ifs at hadd
  obtain rfl := Except.ok.inj hadd
  refine ⟨follows_append.mpr ⟨h.follows, ?_, trivial⟩, h.power, h.alignment_lt⟩
  cases ctx.info.getLast? with
  | none => rfl
  | some back => rfl

theorem Laid.setTensorType {name : CString} {type : GgmlType} (h : Laid ctx)
    (hset : ggufSetTensorType ctx name type = .ok ctx') : Laid ctx' := by
  unfold ggufSetTensorType at hset
  split at hset
  · cases hset
  rename_i i hi
  split at hset
  · cases hset
  rename_i ti hti
  split at hset
  · obtain rfl := Except.ok.inj hset
    obtain ⟨hlt, rfl⟩ := List.getElem?_eq_some_iff.mp hti
    have hsplit : ctx.info = ctx.info.take i ++ ctx.info[i] :: ctx.info.drop (i + 1) := by
      rw [List.getElem_cons_drop, List.take_append_drop]
    have hfollows := h.follows
    rw [hsplit] at hfollows
    obtain ⟨hbefore, hoffset, -⟩ := follows_append.mp hfollows
    exact ⟨follows_append.mpr ⟨hbefore, hoffset, follows_updateOffsets _ _⟩, h.power, h.alignment_lt⟩
  · cases hset

theorem Laid.setTensorData {name : CString} {data : Option (ℕ → UInt8)} (h : Laid ctx)
    (hset : ggufSetTensorData ctx name data = .ok ctx') : Laid ctx' := by
  unfold ggufSetTensorData at hset
  split at hset
  · cases hset
  · obtain rfl := Except.ok.inj hset
    refine h.ofSame rfl (List.ext_getElem (by simp) (fun i h₁ h₂ => ?_))
    simp only [List.getElem_map, List.getElem_modify]
    split <;> rfl

theorem Laid.step {c : Call} (h : Laid ctx) (hcall : c.apply lib ctx = .ok ctx') : Laid ctx' := by
  cases c with
  | setVal key val single => exact h.ofSets (ggufSetVal_sets (.inl single) hcall)
  | setValStr key val => exact h.ofSets (ggufSetValStr_sets hcall)
  | setArrData key type data n => exact h.ofSets (ggufSetArrData_sets hcall)
  | setArrStr key data => exact h.ofSets (ggufSetArrStr_sets hcall)
  | setKv src =>
    refine setKv_induct hcall h fun he hlaid hone => ?_
    obtain ⟨kv, hs, -⟩ := ggufSetOne_sets hone
    exact hlaid.ofSets hs
  | removeKey key =>
    cases hcall
    rw [ggufRemoveKey_frame]
    exact h.ofSame rfl rfl
  | addTensor t => exact h.addTensor hcall
  | setTensorType name type => exact h.setTensorType hcall
  | setTensorData name data => exact h.setTensorData hcall

end Calls

section Layout

theorem Laid.offset_eq (h : Laid ctx) (hfits : DataFits ctx) {i : ℕ} (hi : ctx.info[i]? = some ti) :
    ti.offset = ((ctx.info.take i).map (TensorInfo.padded ctx.alignment)).sum := by
  have hlt := (List.getElem?_eq_some_iff.mp hi).1
  have hbefore : ctx.info.take i = ctx.info.dropLast.take i := by
    rw [List.dropLast_eq_take, List.take_take, min_eq_left (by omega)]
  have hsum : ((ctx.info.take i).map (TensorInfo.padded ctx.alignment)).sum ≤
      (ctx.info.dropLast.map (TensorInfo.padded ctx.alignment)).sum := by
    rw [hbefore]
    conv_rhs => rw [← List.take_append_drop i ctx.info.dropLast, List.map_append, List.sum_append]
    exact Nat.le_add_right _ _
  have hoffset := h.follows.offset_eq h.pos h.dvd hi (by rw [Nat.zero_add]; exact hsum.trans_lt hfits)
  rwa [Nat.zero_add] at hoffset

theorem sum_take_succ {i : ℕ} (hi : infos[i]? = some ti) : ((infos.take (i + 1)).map (TensorInfo.padded alignment)).sum =
    ((infos.take i).map (TensorInfo.padded alignment)).sum + ti.padded alignment := by
  obtain ⟨hlt, rfl⟩ := List.getElem?_eq_some_iff.mp hi
  rw [List.take_succ_eq_append_getElem hlt, List.map_append, List.sum_append, List.map_singleton, List.sum_singleton]

theorem Laid.consecutive (h : Laid ctx) (hfits : DataFits ctx) : Consecutive ctx := by
  refine ⟨fun ti hti => ?_, fun i a b ha hb => ?_, fun ti hti => ?_, List.pairwise_iff_getElem.mpr fun i j hi hj hij => ?_⟩
  · rw [List.head?_eq_getElem?] at hti
    exact (h.offset_eq hfits hti).trans rfl
  · rw [h.offset_eq hfits ha, h.offset_eq hfits hb, sum_take_succ ha]
  · obtain ⟨i, hi⟩ := List.mem_iff_getElem?.mp hti
    rw [h.offset_eq hfits hi]
    exact List.dvd_sum (fun x hx => by
      obtain ⟨ti', -, rfl⟩ := List.mem_map.mp hx
      exact dvd_exactPad _)
  · have hbefore := h.offset_eq hfits (List.getElem?_eq_getElem hi)
    have hafter := h.offset_eq hfits (List.getElem?_eq_getElem hj)
    have hnext := @sum_take_succ ctx.alignment _ _ _ (List.getElem?_eq_getElem hi)
    have hmono : ((ctx.info.take (i + 1)).map (TensorInfo.padded ctx.alignment)).sum ≤
        ((ctx.info.take j).map (TensorInfo.padded ctx.alignment)).sum := by
      rw [← List.take_append_drop (i + 1) (ctx.info.take j), List.take_take, min_eq_left (by omega), List.map_append,
        List.sum_append]
      exact Nat.le_add_right _ _
    have hdata : ctx.info[i].t.nbytes ≤ ctx.info[i].padded ctx.alignment := le_exactPad _ h.pos
    refine Set.disjoint_left.mpr fun x hx hx' => ?_
    have hend := hx.2
    have hstart := hx'.1
    omega

theorem Consecutive.offset_eq (h : Consecutive ctx) {i : ℕ} (hi : ctx.info[i]? = some ti) :
    ti.offset = ((ctx.info.take i).map (TensorInfo.padded ctx.alignment)).sum := by
  induction i generalizing ti with
  | zero => exact h.first ti (List.head?_eq_getElem? ▸ hi)
  | succ i ih =>
    have hlt := (List.getElem?_eq_some_iff.mp hi).1
    have hprev : ctx.info[i]? = some ctx.info[i] := List.getElem?_eq_getElem (by omega)
    rw [h.next i _ ti hprev hi, ih hprev, sum_take_succ hprev]

theorem Laid.dataFits (h : Laid ctx) (hcons : Consecutive ctx) : DataFits ctx := by
  unfold DataFits
  rw [List.dropLast_eq_take]
  rcases Nat.eq_zero_or_pos ctx.info.length with hnone | hsome
  · rw [hnone]
    exact Nat.two_pow_pos 64
  · have hlast : ctx.info[ctx.info.length - 1]? = some ctx.info[ctx.info.length - 1] := List.getElem?_eq_getElem (by omega)
    rw [← hcons.offset_eq hlast]
    exact h.follows.offset_lt (Nat.two_pow_pos 64) _ (List.mem_of_getElem? hlast)

theorem Laid.asserted (h : Laid ctx) : OffsetsAsserted ctx := by
  intro start i buf ti hstart hrun hbuf hi
  have hvector : vectorMax 1 = 2 ^ 63 - 1 := by decide
  have halign := h.alignment_lt
  have hdvd : ctx.alignment ∣ start.length := by
    obtain ⟨kvs, -, hpadded⟩ := except_bind_ok.mp hstart
    cases hpadded
    rw [padBuf_length _ h.pos]
    exact dvd_exactPad _
  obtain ⟨-, -, hlaid, -⟩ := writeTensors_spec h.pos hdvd le_rfl hrun (by omega)
  rw [Nat.sub_self] at hlaid
  obtain ⟨hlt, rfl⟩ := List.getElem?_eq_some_iff.mp hi
  have hfollows := h.follows
  rw [← List.take_append_drop (i + 1) ctx.info] at hfollows
  have hbefore := (follows_append.mp hfollows).1
  rw [List.take_succ_eq_append_getElem hlt] at hbefore
  exact (hlaid.offset_next hbefore).symm

/-- The data is consecutive exactly as long as what comes before the last tensor can be counted, and the writer finds every
tensor at its offset. -/
theorem layout_iff {calls : List Call} (hopen : Opened ctx) (hrun : runCalls lib ctx calls = .ok ctx') :
    Consecutive ctx' ∧ OffsetsAsserted ctx' ↔ DataFits ctx' := by
  have hlaid : Laid ctx' := runCalls_induct hrun (laid_opened hopen) fun _ hlaid hcall => hlaid.step hcall
  exact ⟨fun h => hlaid.dataFits h.1, fun h => ⟨hlaid.consecutive h, hlaid.asserted⟩⟩

def rowTensor (type : GgmlType) (whole : type.blckSize ∣ 32) : GgmlTensor :=
  zeroTensor [117] type ⟨32, 1, 1, 1⟩ (rowStrides type ⟨32, 1, 1, 1⟩) whole

def retypedCalls : List Call :=
  [.addTensor (rowTensor .f32 (by decide)), .addTensor smallTensor, .setTensorType (cStr [117]) .f16]

def retypedContext : GgufContext :=
  { ggufInitEmpty with info := [⟨rowTensor .f16 (by decide), 0⟩, ⟨smallTensor, 64⟩] }

theorem layout_iff_retyped : Consecutive retypedContext ∧ OffsetsAsserted retypedContext ↔ DataFits retypedContext :=
  @layout_iff ggufInitEmpty retypedContext libstdcxx retypedCalls (.inl rfl) rfl

def halfTensor (name : List UInt8) : GgmlTensor :=
  zeroTensor name .i8 ⟨2 ^ 62, 2, 1, 1⟩ (rowStrides .i8 ⟨2 ^ 62, 2, 1, 1⟩) (one_dvd _)

def wrappedContext : GgufContext :=
  ⟨3, [], [⟨halfTensor [97], 0⟩, ⟨halfTensor [98], 2 ^ 63⟩, ⟨smallTensor, 0⟩], 32, 0, 0, none⟩

/-- The third tensor starts where the first one does. -/
theorem not_layout : runCalls libstdcxx ggufInitEmpty
      [.addTensor (halfTensor [97]), .addTensor (halfTensor [98]), .addTensor smallTensor] = .ok wrappedContext ∧
    ¬wrappedContext.info.Pairwise (fun a b => Disjoint a.extent b.extent) := by
  refine ⟨rfl, fun hdisjoint => ?_⟩
  have hpair := (List.pairwise_cons.mp hdisjoint).1 ⟨smallTensor, 0⟩ (List.mem_cons_of_mem _ List.mem_cons_self)
  exact Set.disjoint_left.mp hpair (show 0 ∈ _ from ⟨le_rfl, by decide⟩) ⟨le_rfl, by decide⟩

end Layout

end PyannoteCpp.Gguf
