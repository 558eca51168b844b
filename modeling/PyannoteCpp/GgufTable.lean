import PyannoteCpp.GgufFaults
import Mathlib.Order.CompletePartialOrder

set_option autoImplicit false

/-!
# The tensor table of an accepted file

The offsets of an accepted file follow from the sizes as the reader computes them.
These are the exact sizes as long as the bytes of a row, the bytes of a tensor and
the padding behind it stay below `2 ^ 64`.
-/
namespace PyannoteCpp.Gguf
open PrefixGrammar

section Accepted

variable {lib : CxxLibrary} {locals : ℕ → TensorLocals} {params : InitParams} {content : List UInt8}

theorem loadTensors_ctx {noAlloc : Bool} {ctx : GgufContext} {rest : List UInt8} {r : InitResult}
    (h : loadTensors noAlloc ctx rest = .ok r) : r.ctx = { ctx with data := r.ctx.data } := by
  unfold loadTensors at h
  cases noAlloc with
  | true =>
    obtain ⟨pool, -, h⟩ := except_bind_ok.mp h
    obtain ⟨_, -, h⟩ := except_bind_ok.mp h
    cases h
    rfl
  | false =>
    obtain ⟨pool, -, h⟩ := except_bind_ok.mp h
    obtain ⟨pool, -, h⟩ := except_bind_ok.mp h
    obtain ⟨blob, -, h⟩ := except_bind_ok.mp h
    obtain ⟨_, -, h⟩ := except_bind_ok.mp h
    cases h
    rfl

theorem accepted {r : InitResult} (h : ggufInitFromFileImpl lib locals params content = .ok r) :
    ∃ parsed front rest size, MetaFront lib locals parsed front ∧ content = front ++ rest ∧
      LaidOut parsed.2.2.1 0 parsed.2.2.2 size ∧
      r.ctx = { contextOf parsed front.length size with data := r.ctx.data } := by
  unfold ggufInitFromFileImpl at h
  obtain ⟨⟨parsed, rest⟩, hparsed, h⟩ := except_bind_ok.mp h
  obtain ⟨front, hfront, hcontent⟩ := (accepts_readMeta lib locals content parsed rest).mp hparsed
  obtain ⟨ctx, hcontext, h⟩ := except_bind_ok.mp h
  have hposition : content.length - rest.length = front.length := by
    rw [hcontent, List.length_append, Nat.add_sub_cancel]
  rw [hposition] at hcontext
  obtain ⟨-, size, hlaid, rfl⟩ := makeContext_ok_iff.mp hcontext
  refine ⟨parsed, front, rest, size, hfront, hcontent, hlaid, ?_⟩
  split at h
  · exact loadTensors_ctx h
  · cases h
    rfl

theorem ggufGetValU32_lt {kv : GgufKv} {v : ℕ} (h : ggufGetValU32 kv = .ok v) : v < 2 ^ 32 := by
  by_cases hvalue : kv.type = .uint32 ∧ kv.data.length = 4
  · rw [ggufGetValU32_ok hvalue.1 hvalue.2] at h
    cases h
    have hlt := leValue_lt kv.data
    rw [hvalue.2] at hlt
    omega
  · obtain ⟨f, hf⟩ := ggufGetValU32_error hvalue
    cases hf.symm.trans h

theorem readAlignment_spec {kvs : List GgufKv} {alignment : ℕ} (h : readAlignment kvs = .ok alignment) :
    kvAlignment kvs = .ok alignment ∧ isPowerOfTwo alignment := by
  unfold readAlignment at h
  split at h
  · cases h
  · rename_i found hfound
    split at h
    · cases h
      exact ⟨hfound, ‹_›⟩
    · cases h

theorem kvAlignment_lt {kvs : List GgufKv} {alignment : ℕ} (h : kvAlignment kvs = .ok alignment) :
    alignment < 2 ^ 32 := by
  have hdefault : ggufDefaultAlignment < 2 ^ 32 := by decide
  unfold kvAlignment at h
  split at h
  · cases h
    exact hdefault
  · split_ifs at h
    · cases h
      exact hdefault
    · split at h
      · cases h
      · exact ggufGetValU32_lt h

/-- What the reader has checked of every info, and the strides it has computed. -/
def InfoChecked (ti : TensorInfo) : Prop := ti.t.nb = rowStrides ti.t.type ti.t.ne ∧ ElementsFit ti.t.ne

theorem infos_checked {n : ℕ} {infos : List TensorInfo} {front : List UInt8}
    (h : Turns (InfoFront lib locals) n [] infos front) : ∀ ti ∈ infos, InfoChecked ti := by
  refine h.invariant (m := 0) (I := fun _ infos => ∀ ti ∈ infos, InfoChecked ti) (fun ti hti => nomatch hti) ?_
  intro m s t front hs hstep
  obtain ⟨name, ne, type, offset, _, _, -, -, hfit, -, -, rfl, -⟩ := hstep
  refine List.forall_mem_append.mpr ⟨hs, List.forall_mem_singleton.mpr ⟨rfl, hfit⟩⟩

end Accepted

section Table

def exactPad (x n : ℕ) : ℕ := (x + n - 1) / n * n

def TensorInfo.exact (ti : TensorInfo) : ℕ := exactBytes ti.t.type ti.t.ne

def TensorInfo.range (ti : TensorInfo) : Set ℕ := Set.Ico ti.offset (ti.offset + ti.exact)

def exactStrides (type : GgmlType) (ne : Dims) : Strides :=
  let row := type.typeSize * (ne.n0 / type.blckSize)
  ⟨type.typeSize, row, row * ne.n1, row * ne.n1 * ne.n2⟩

structure TableSound (ctx : GgufContext) : Prop where
  sizes : ∀ ti ∈ ctx.info, ti.exact = ti.t.nbytes
  inside : ∀ ti ∈ ctx.info, ti.offset + ti.exact ≤ ctx.size
  disjoint : ctx.info.Pairwise fun a b => Disjoint a.range b.range
  aligned : ∀ ti ∈ ctx.info, ctx.alignment ∣ ti.offset
  strides : ∀ ti ∈ ctx.info, ti.t.nb = exactStrides ti.t.type ti.t.ne
  total : ctx.size = (ctx.info.map fun ti => exactPad ti.exact ctx.alignment).sum

/-- Neither the bytes of a row before the division by the block size, nor the bytes of the tensor, nor these with
the padding reach `2 ^ 64`. -/
def SizeFits (alignment : ℕ) (ti : TensorInfo) : Prop :=
  (ti.t.type.blckSize = 1 ∨ ti.t.ne.n0 * ti.t.type.typeSize < 2 ^ 64) ∧ ti.exact + alignment ≤ 2 ^ 64

variable {alignment : ℕ}

theorem ggmlNbytes_lt (type : GgmlType) (ne : Dims) (nb : Strides) : ggmlNbytes type ne nb < 2 ^ 64 := by
  unfold ggmlNbytes
  split_ifs
  · decide
  · exact wrap64_lt _
  · exact wrap64_lt _

theorem nbytes_exact_iff {ti : TensorInfo} (h : InfoChecked ti) :
    ti.exact = ti.t.nbytes ↔
      (ti.t.type.blckSize = 1 ∨ ti.t.ne.n0 * ti.t.type.typeSize < 2 ^ 64) ∧ ti.exact < 2 ^ 64 := by
  obtain ⟨h1, h2, h3⟩ := h.2.pos
  unfold TensorInfo.exact GgmlTensor.nbytes
  rw [h.1, eq_comm]
  exact ggmlNbytes_exact_iff ti.t.wholeBlocks h1 h2 h3

theorem ggmlPad_exact {x : ℕ} (h : x + alignment ≤ 2 ^ 64) : ggmlPad x alignment = exactPad x alignment := by
  unfold ggmlPad exactPad
  rw [wrap64_of_lt (by omega)]

theorem le_exactPad (x : ℕ) (hpos : 0 < alignment) : x ≤ exactPad x alignment := by
  have hmod := Nat.mod_lt (x + alignment - 1) hpos
  have hdiv := Nat.div_add_mod (x + alignment - 1) alignment
  unfold exactPad
  rw [Nat.mul_comm]
  omega

theorem ggmlPad_wrapped {x : ℕ} (hx : x < 2 ^ 64) (h : 2 ^ 64 < x + alignment) (halign : alignment ≤ 2 ^ 64) :
    ggmlPad x alignment = 0 := by
  unfold ggmlPad
  have hwrap : wrap64 (x + alignment - 1) < alignment := by
    unfold wrap64
    omega
  rw [Nat.div_eq_of_lt hwrap, Nat.zero_mul]

theorem ggmlPad_zero (hpos : 0 < alignment) (halign : alignment ≤ 2 ^ 64) : ggmlPad 0 alignment = 0 := by
  unfold ggmlPad
  rw [Nat.div_eq_of_lt, Nat.zero_mul]
  unfold wrap64
  omega

theorem LaidOut.bounds {size total : ℕ} {infos : List TensorInfo} (h : LaidOut alignment size infos total) :
    size ≤ total ∧ ∀ ti ∈ infos, size ≤ ti.offset ∧ ti.offset + ggmlPad ti.t.nbytes alignment ≤ total := by
  induction infos generalizing size with
  | nil => exact ⟨h.le, fun ti hti => nomatch hti⟩
  | cons first infos ih =>
    obtain ⟨hoffset, -, hrest⟩ := h
    obtain ⟨hle, hall⟩ := ih hrest
    refine ⟨by omega, List.forall_mem_cons.mpr ⟨by omega, fun ti hti => ?_⟩⟩
    have hti := hall ti hti
    omega

theorem LaidOut.aligned {size total : ℕ} {infos : List TensorInfo} (h : LaidOut alignment size infos total)
    (hsize : alignment ∣ size) : ∀ ti ∈ infos, alignment ∣ ti.offset := by
  induction infos generalizing size with
  | nil => exact fun ti hti => nomatch hti
  | cons first infos ih =>
    obtain ⟨hoffset, -, hrest⟩ := h
    have hpad : alignment ∣ ggmlPad first.t.nbytes alignment := Dvd.intro_left _ rfl
    exact List.forall_mem_cons.mpr ⟨hoffset ▸ hsize, ih hrest (Nat.dvd_add hsize hpad)⟩

theorem LaidOut.exists_start {size total : ℕ} {infos : List TensorInfo} (h : LaidOut alignment size infos total)
    (hlt : size < total) : ∃ ti ∈ infos, ti.offset = size ∧ 0 < ggmlPad ti.t.nbytes alignment := by
  induction infos with
  | nil => exact absurd h.symm hlt.ne'
  | cons first infos ih =>
    obtain ⟨hoffset, -, hrest⟩ := h
    rcases Nat.eq_zero_or_pos (ggmlPad first.t.nbytes alignment) with hzero | hpos
    · rw [hzero, Nat.add_zero] at hrest
      obtain ⟨ti, hti, hstart⟩ := ih hrest
      exact ⟨ti, List.mem_cons_of_mem _ hti, hstart⟩
    · exact ⟨first, List.mem_cons_self, hoffset, hpos⟩

/-- A tensor whose padding wraps around overlaps the next one with data, or ends outside. -/
theorem LaidOut.padding_fits {size total : ℕ} {infos : List TensorInfo} (hpos : 0 < alignment)
    (halign : alignment ≤ 2 ^ 64) (h : LaidOut alignment size infos total)
    (sizes : ∀ ti ∈ infos, ti.exact = ti.t.nbytes) (inside : ∀ ti ∈ infos, ti.offset + ti.exact ≤ total)
    (disjoint : infos.Pairwise fun a b => Disjoint a.range b.range) :
    ∀ ti ∈ infos, ti.exact + alignment ≤ 2 ^ 64 := by
  induction infos generalizing size with
  | nil => exact fun ti hti => nomatch hti
  | cons first infos ih =>
    obtain ⟨hoffset, -, hrest⟩ := h
    obtain ⟨hsizes, sizes⟩ := List.forall_mem_cons.mp sizes
    obtain ⟨hinside, inside⟩ := List.forall_mem_cons.mp inside
    obtain ⟨hdisjoint, disjoint⟩ := List.pairwise_cons.mp disjoint
    refine List.forall_mem_cons.mpr ⟨?_, ih hrest sizes inside disjoint⟩
    by_contra hwraps
    have hlt : first.exact < 2 ^ 64 := hsizes ▸ ggmlNbytes_lt _ _ _
    have hpad : ggmlPad first.t.nbytes alignment = 0 := by
      rw [← hsizes]
      exact ggmlPad_wrapped hlt (by omega) halign
    rw [hpad, Nat.add_zero] at hrest
    obtain ⟨ti, hti, hstart, hdata⟩ := hrest.exists_start (by omega)
    have hnonempty : 0 < ti.exact := by
      rw [sizes ti hti]
      refine Nat.pos_of_ne_zero (fun hzero => ?_)
      rw [hzero, ggmlPad_zero hpos halign] at hdata
      exact absurd hdata (lt_irrefl 0)
    have hfirst : size ∈ first.range := ⟨by omega, by omega⟩
    exact Set.disjoint_left.mp (hdisjoint ti hti) hfirst ⟨by omega, by omega⟩

theorem LaidOut.disjoint {size total : ℕ} {infos : List TensorInfo} (h : LaidOut alignment size infos total)
    (fits : ∀ ti ∈ infos, ti.exact ≤ ggmlPad ti.t.nbytes alignment) :
    infos.Pairwise fun a b => Disjoint a.range b.range := by
  induction infos generalizing size with
  | nil => exact List.Pairwise.nil
  | cons first infos ih =>
    obtain ⟨hoffset, -, hrest⟩ := h
    obtain ⟨hfirst, fits⟩ := List.forall_mem_cons.mp fits
    refine List.pairwise_cons.mpr ⟨fun ti hti => ?_, ih hrest fits⟩
    have hlater := (hrest.bounds.2 ti hti).1
    refine Set.disjoint_left.mpr fun x hx hx' => ?_
    have hbefore := hx.2
    have hafter := hx'.1
    omega

theorem LaidOut.total_eq {size total : ℕ} {infos : List TensorInfo} (h : LaidOut alignment size infos total)
    (exact : ∀ ti ∈ infos, ggmlPad ti.t.nbytes alignment = exactPad ti.exact alignment) :
    total = size + (infos.map fun ti => exactPad ti.exact alignment).sum := by
  induction infos generalizing size with
  | nil => exact h.symm
  | cons first infos ih =>
    obtain ⟨-, -, hrest⟩ := h
    obtain ⟨hfirst, exact⟩ := List.forall_mem_cons.mp exact
    have htotal := ih hrest exact
    rw [List.map_cons, List.sum_cons, htotal, hfirst]
    omega

theorem rowStrides_exact {ti : TensorInfo} (h : InfoChecked ti) (hlt : ti.exact < 2 ^ 64) :
    ti.t.nb = exactStrides ti.t.type ti.t.ne := by
  obtain ⟨h1, h2, h3⟩ := h.2.pos
  have hexact : ti.exact = _ := exactBytes_eq ti.t.wholeBlocks
  rw [h.1]
  unfold rowStrides exactStrides
  set row := ti.t.type.typeSize * (ti.t.ne.n0 / ti.t.type.blckSize)
  have hvolume : row * ti.t.ne.n1 * ti.t.ne.n2 ≤ ti.exact := hexact ▸ Nat.le_mul_of_pos_right _ h3
  have hplane : row * ti.t.ne.n1 ≤ ti.exact := (Nat.le_mul_of_pos_right _ h2).trans hvolume
  have hrow : row ≤ ti.exact := (Nat.le_mul_of_pos_right _ h1).trans hplane
  simp only [wrap64_of_lt (hrow.trans_lt hlt), wrap64_of_lt (hplane.trans_lt hlt), wrap64_of_lt (hvolume.trans_lt hlt)]

end Table

section Claims

variable {lib : CxxLibrary} {locals : ℕ → TensorLocals} {params : InitParams} {content : List UInt8} {r : InitResult}

/-- The sizes of all tensors in the file fit. -/
def TableFits (lib : CxxLibrary) (locals : ℕ → TensorLocals) (content : List UInt8) : Prop :=
  ∃ parsed front rest, MetaFront lib locals parsed front ∧ content = front ++ rest ∧
    ∀ ti ∈ parsed.2.2.2, SizeFits parsed.2.2.1 ti

theorem metaFront_unique {parsed parsed' : Metadata} {front front' rest rest' : List UInt8}
    (h : MetaFront lib locals parsed front) (h' : MetaFront lib locals parsed' front')
    (same : front ++ rest = front' ++ rest') : parsed = parsed' := by
  have hrun := (accepts_readMeta lib locals (front ++ rest) parsed rest).mpr ⟨front, h, rfl⟩
  have hrun' := (accepts_readMeta lib locals (front ++ rest) parsed' rest').mpr ⟨front', h', same⟩
  exact (Prod.mk.inj (Except.ok.inj (hrun.symm.trans hrun'))).1

/-- The table of an accepted file is sound exactly when the sizes of its tensors fit. -/
theorem accepted_tableSound_iff (h : ggufInitFromFileImpl lib locals params content = .ok r) :
    TableSound r.ctx ↔ TableFits lib locals content := by
  obtain ⟨parsed, front, rest, size, hfront, hcontent, hlaid, hctx⟩ := accepted h
  obtain ⟨_, _, _, -, -, halign, hinfos, -⟩ := id hfront
  obtain ⟨halign, hpower⟩ := readAlignment_spec halign
  have hlt := kvAlignment_lt halign
  have hpos : 0 < parsed.2.2.1 := Nat.pos_of_ne_zero hpower.1
  have hchecked := infos_checked hinfos
  have hinfo : r.ctx.info = parsed.2.2.2 := by rw [hctx]; rfl
  have hsize : r.ctx.size = size := by rw [hctx]; rfl
  have halignment : r.ctx.alignment = parsed.2.2.1 := by rw [hctx]; rfl
  constructor
  · intro sound
    obtain ⟨sizes, inside, disjoint, -, -, -⟩ := sound
    rw [hinfo] at sizes inside disjoint
    rw [hsize] at inside
    have hfits := hlaid.padding_fits hpos (by omega) sizes inside disjoint
    exact ⟨parsed, front, rest, hfront, hcontent, fun ti hti =>
      ⟨((nbytes_exact_iff (hchecked ti hti)).mp (sizes ti hti)).1, hfits ti hti⟩⟩
  · rintro ⟨parsed', front', rest', hfront', hcontent', hfits⟩
    obtain rfl := metaFront_unique hfront hfront' (hcontent.symm.trans hcontent')
    have hexact : ∀ ti ∈ parsed.2.2.2, ti.exact < 2 ^ 64 := fun ti hti => by
      have hroom := (hfits ti hti).2
      omega
    have sizes : ∀ ti ∈ parsed.2.2.2, ti.exact = ti.t.nbytes := fun ti hti =>
      (nbytes_exact_iff (hchecked ti hti)).mpr ⟨(hfits ti hti).1, hexact ti hti⟩
    have hpad : ∀ ti ∈ parsed.2.2.2, ggmlPad ti.t.nbytes parsed.2.2.1 = exactPad ti.exact parsed.2.2.1 :=
      fun ti hti => by rw [← sizes ti hti, ggmlPad_exact (hfits ti hti).2]
    have hle : ∀ ti ∈ parsed.2.2.2, ti.exact ≤ ggmlPad ti.t.nbytes parsed.2.2.1 := fun ti hti => by
      rw [hpad ti hti]
      exact le_exactPad _ hpos
    constructor
    · rwa [hinfo]
    · rw [hinfo, hsize]
      intro ti hti
      have hbound := (hlaid.bounds.2 ti hti).2
      have hdata := hle ti hti
      omega
    · rw [hinfo]
      exact hlaid.disjoint hle
    · rw [hinfo, halignment]
      exact hlaid.aligned (Nat.dvd_zero _)
    · rw [hinfo]
      exact fun ti hti => rowStrides_exact (hchecked ti hti) (hexact ti hti)
    · rw [hinfo, hsize, halignment, hlaid.total_eq hpad, Nat.zero_add]

/-- One tensor of a type, with one dimension. -/
def oneTensorFile (type : GgmlType) (n : ℕ) : List UInt8 :=
  headerBytes 1 0 ++ writeString [116] ++ leBytes 4 1 ++ leBytes 8 n ++ leBytes 4 type.code ++ leBytes 8 0

theorem accepted_tableSound_iff_small :
    ∃ r, ggufInitFromFileImpl libstdcxx zeroLocals ⟨true, true⟩ (oneTensorFile .f32 2) = .ok r ∧
      (TableSound r.ctx ↔ TableFits libstdcxx zeroLocals (oneTensorFile .f32 2)) :=
  ⟨_, rfl, @accepted_tableSound_iff _ _ ⟨true, true⟩ _ _ rfl⟩

/-- The `2 ^ 61` numbers of eight bytes are counted as no bytes. -/
theorem large_tensor_unsound :
    ∃ r, ggufInitFromFileImpl libstdcxx zeroLocals ⟨true, true⟩ (oneTensorFile .f64 (2 ^ 61)) = .ok r ∧
      ¬TableSound r.ctx := by
  refine ⟨_, rfl, fun sound => ?_⟩
  have hsize := sound.sizes _ List.mem_cons_self
  revert hsize
  decide

end Claims

end PyannoteCpp.Gguf
