import PyannoteCpp.GgufTensorGrammar

set_option autoImplicit false

/-!
# The data section and the memory for it

The size of the data section is added up without wrap-around. The memory pool for
the blob and the tensors is not: its size is a product and a sum modulo `2 ^ 64`.
-/
namespace PyannoteCpp.Gguf

section Layout

variable (alignment : ℕ)

/-- Every tensor starts where the padded data of the one before ends. -/
def LaidOut : ℕ → List TensorInfo → ℕ → Prop
  | size, [], total => size = total
  | size, ti :: infos, total =>
    ti.offset = size ∧ size + ggmlPad ti.t.nbytes alignment < 2 ^ 64 ∧
      LaidOut (size + ggmlPad ti.t.nbytes alignment) infos total

variable {alignment}

theorem dataSize_ok_iff {size total : ℕ} {infos : List TensorInfo} (hsize : size < 2 ^ 64) :
    dataSize alignment size infos = .ok total ↔ LaidOut alignment size infos total := by
  induction infos generalizing size with
  | nil => exact ⟨fun h => Except.ok.inj h, congrArg _⟩
  | cons ti infos ih =>
    unfold dataSize LaidOut
    dsimp only
    split_ifs with hoffset hoverflow
    · exact iff_of_false (by intro h; cases h) (fun h => hoffset h.1)
    · exact iff_of_false (by intro h; cases h) (fun h => by omega)
    · have hnext : size + ggmlPad ti.t.nbytes alignment < 2 ^ 64 := by omega
      rw [ih hnext]
      exact ⟨fun h => ⟨not_not.mp hoffset, hnext, h⟩, fun h => h.2.2⟩

theorem dataSize_safe {size : ℕ} {infos : List TensorInfo} {e : Stop} (h : dataSize alignment size infos = .error e) :
    ¬e.IsFault := by
  induction infos generalizing size with
  | nil => cases h
  | cons ti infos ih =>
    unfold dataSize at h
    dsimp only at h
    split_ifs at h
    · cases h
      exact not_isFault _
    · cases h
      exact not_isFault _
    · exact ih h

theorem LaidOut.total_lt {size total : ℕ} {infos : List TensorInfo} (h : LaidOut alignment size infos total)
    (hsize : size < 2 ^ 64) : total < 2 ^ 64 := by
  induction infos generalizing size with
  | nil => exact h ▸ hsize
  | cons ti infos ih => exact ih h.2.2 h.2.1

theorem LaidOut.empty {size total : ℕ} (h : LaidOut alignment size [] total) : total = size := h.symm

theorem LaidOut.unique {size total total' : ℕ} {infos : List TensorInfo} (h : LaidOut alignment size infos total)
    (h' : LaidOut alignment size infos total') : total = total' := by
  induction infos generalizing size with
  | nil => exact h.symm.trans h'
  | cons ti infos ih => exact ih h.2.2 h'.2.2

end Layout

section Pool

def pad16 (x : ℕ) : ℕ := (x + 15) / 16 * 16

theorem ggmlPad_memAlign (x : ℕ) : ggmlPad x ggmlMemAlign = wrap64 (pad16 x) := by
  have halign : ggmlMemAlign = 16 := rfl
  unfold ggmlPad pad16 wrap64
  rw [halign]
  omega

theorem ggmlNewTensor_ok {pool : GgmlPool} (dataSize : ℕ) {size : ℕ} (hsize : pad16 (336 + dataSize) = size)
    (hroom : pool.curEnd + 32 + size ≤ pool.memSize) (hlt : pool.memSize < 2 ^ 64) :
    ggmlNewTensor pool dataSize = .ok ⟨pool.memSize, pool.curEnd + 32 + size⟩ := by
  have hobject : ggmlObjectSize = 32 := rfl
  have htensor : ggmlTensorSize = 336 := rfl
  have hoverhead : ggmlTensorOverhead = 368 := rfl
  have hge : 336 + dataSize ≤ size := by
    rw [← hsize]
    unfold pad16
    omega
  have hneeded : ggmlPad (wrap64 (336 + dataSize)) ggmlMemAlign = size := by
    rw [wrap64_of_lt (by omega), ggmlPad_memAlign, hsize, wrap64_of_lt (by omega)]
  have hend : wrap64 (pool.curEnd + size + 32) = pool.curEnd + size + 32 := wrap64_of_lt (by omega)
  unfold ggmlNewTensor
  simp only [hobject, htensor, hoverhead, hneeded, hend]
  rw [if_neg (by omega), if_neg (by omega)]

theorem newTensors_ok {memSize curEnd : ℕ} (n : ℕ) (hroom : curEnd + 368 * n ≤ memSize) (hlt : memSize < 2 ^ 64) :
    newTensors ⟨memSize, curEnd⟩ n = .ok ⟨memSize, curEnd + 368 * n⟩ := by
  induction n generalizing curEnd with
  | zero => rfl
  | succ n ih =>
    have hfirst : curEnd + 32 + 336 ≤ memSize := by linarith
    have hnew : ggmlNewTensor ⟨memSize, curEnd⟩ 0 = .ok ⟨memSize, curEnd + 32 + 336⟩ :=
      @ggmlNewTensor_ok ⟨memSize, curEnd⟩ 0 336 (by decide) hfirst hlt
    have hrest := @ih (curEnd + 32 + 336) (by omega)
    change (ggmlNewTensor ⟨memSize, curEnd⟩ 0 >>= fun pool => newTensors pool n) = _
    rw [hnew]
    change newTensors _ n = _
    rw [hrest, show curEnd + 32 + 336 + 368 * n = curEnd + 368 * (n + 1) by omega]

theorem ggmlInit_rounded {memSize : ℕ} (hpos : 0 < memSize) :
    ggmlInit memSize = if wrap64 (pad16 memSize) = 0 then .error (.fault .assertion) else
      .ok ⟨wrap64 (pad16 memSize), 0⟩ := by
  unfold ggmlInit
  simp only [if_neg (Nat.pos_iff_ne_zero.mp hpos), ggmlPad_memAlign]

theorem ggmlInit_eq {memSize : ℕ} (hpos : 0 < memSize) (hlt : memSize + 15 < 2 ^ 64) :
    ggmlInit memSize = .ok ⟨pad16 memSize, 0⟩ := by
  have hpad : pad16 memSize ≤ memSize + 15 ∧ 0 < pad16 memSize := by
    unfold pad16
    omega
  rw [ggmlInit_rounded hpos, wrap64_of_lt (by omega), if_neg (by omega)]

/-- The request for the pool wraps around, and nothing else stops the reader before memory is overrun: neither a
check of the pool fails (it does not when the request for the blob wraps around, too) nor is the rest of the file
too short to reach past the pool. -/
def PoolFault (n size rest : ℕ) : Prop :=
  2 ^ 64 ≤ 368 * n + size + 383 ∧
    (size + 383 < 2 ^ 64 ∨ (size + 383 - 2 ^ 64) / 16 * 16 + 368 * (n - 1) < rest)

theorem ggmlNewTensor_full {pool : GgmlPool} {dataSize needed : ℕ} (hstart : pool.curEnd = 0)
    (hend : wrap64 (pad16 (368 + dataSize)) = needed) (hroom : pool.memSize < needed) :
    ggmlNewTensor pool dataSize = .error (.fault .assertion) := by
  have hobject : ggmlObjectSize = 32 := rfl
  have htensor : ggmlTensorSize = 336 := rfl
  have hneeded : wrap64 (0 + ggmlPad (wrap64 (336 + dataSize)) ggmlMemAlign + 32) = needed := by
    rw [ggmlPad_memAlign, ← hend]
    unfold wrap64 pad16
    omega
  unfold ggmlNewTensor
  simp only [hobject, htensor, hstart, hneeded]
  exact if_pos hroom

theorem ggmlNewTensor_wrapped {pool : GgmlPool} {dataSize needed : ℕ} (hstart : pool.curEnd = 0)
    (hend : wrap64 (pad16 (368 + dataSize)) = needed) (hroom : needed ≤ pool.memSize) (hstruct : 368 ≤ pool.memSize) :
    ∃ pool', ggmlNewTensor pool dataSize = .ok pool' ∧ pool'.memSize = pool.memSize := by
  have hobject : ggmlObjectSize = 32 := rfl
  have htensor : ggmlTensorSize = 336 := rfl
  have hoverhead : ggmlTensorOverhead = 368 := rfl
  have hneeded : wrap64 (0 + ggmlPad (wrap64 (336 + dataSize)) ggmlMemAlign + 32) = needed := by
    rw [ggmlPad_memAlign, ← hend]
    unfold wrap64 pad16
    omega
  unfold ggmlNewTensor
  simp only [hobject, htensor, hoverhead, hstart, hneeded]
  rw [if_neg (by omega), if_neg (by omega)]
  exact ⟨_, rfl, rfl⟩

section Loading

variable {ctx : GgufContext} {rest : List UInt8}

theorem loadTensors_noAlloc (h : 368 * ctx.info.length + 15 < 2 ^ 64) :
    loadTensors true ctx rest = .ok ⟨ctx, some (ctx.info.map (loadedTensor false))⟩ := by
  have hoverhead : ggmlTensorOverhead = 368 := rfl
  have hpool : ∃ memSize, ggmlInit (wrap64 (ctx.info.length * ggmlTensorOverhead)) = .ok ⟨memSize, 0⟩ ∧
      368 * ctx.info.length ≤ memSize ∧ memSize < 2 ^ 64 := by
    rw [hoverhead, wrap64_of_lt (by omega)]
    rcases Nat.eq_zero_or_pos ctx.info.length with hn | hn
    · rw [hn]
      exact ⟨16, rfl, by decide, by decide⟩
    · refine ⟨_, ggmlInit_eq (by omega) (by omega), ?_⟩
      unfold pad16
      omega
  obtain ⟨memSize, hinit, hroom, hlt⟩ := hpool
  have hnew := @newTensors_ok memSize 0 ctx.info.length (by omega) hlt
  change ((ggmlInit (wrap64 (ctx.info.length * ggmlTensorOverhead)) >>= fun pool =>
    newTensors pool ctx.info.length >>= fun _ => _) : Except Stop InitResult) = _
  rw [hinit]
  change (newTensors ⟨memSize, 0⟩ ctx.info.length >>= fun _ => _ : Except Stop InitResult) = _
  rw [hnew]
  rfl

theorem loadTensors_fits (h : 368 * ctx.info.length + ctx.size + 383 < 2 ^ 64) :
    loadTensors false ctx rest = if rest.length < ctx.size then .error (.rejected .blob) else
      .ok ⟨{ ctx with data := some (rest.take ctx.size) }, some (ctx.info.map (loadedTensor true))⟩ := by
  have hoverhead : ggmlTensorOverhead = 368 := rfl
  set n := ctx.info.length with hn
  have hrequest : (n + 1) * ggmlTensorOverhead + ctx.size = 368 * n + 368 + ctx.size := by
    rw [hoverhead]
    ring
  have hinit : ggmlInit (wrap64 ((n + 1) * ggmlTensorOverhead + ctx.size)) =
      .ok ⟨pad16 (368 * n + 368 + ctx.size), 0⟩ := by
    rw [hrequest, wrap64_of_lt (by omega)]
    exact ggmlInit_eq (by omega) (by omega)
  set memSize := pad16 (368 * n + 368 + ctx.size) with hmem
  have hsplit : memSize = 32 + pad16 (336 + ctx.size) + 368 * n := by
    rw [hmem]
    unfold pad16
    omega
  have hlt : memSize < 2 ^ 64 := by
    rw [hmem]
    unfold pad16
    omega
  have hge : 336 + ctx.size ≤ pad16 (336 + ctx.size) := by
    unfold pad16
    omega
  have hblob := @ggmlNewTensor_ok ⟨memSize, 0⟩ ctx.size _ rfl (by dsimp only; omega) hlt
  have hnew := @newTensors_ok memSize (0 + 32 + pad16 (336 + ctx.size)) n (by omega) hlt
  have hread : readBlob ⟨memSize, 0 + 32 + pad16 (336 + ctx.size)⟩ ctx.size rest =
      if rest.length < ctx.size then .error (.rejected .blob) else .ok (rest.take ctx.size) := by
    unfold readBlob
    rw [hoverhead]
    exact if_neg (by dsimp only; omega)
  change ((ggmlInit (wrap64 ((n + 1) * ggmlTensorOverhead + ctx.size)) >>= fun pool =>
    ggmlNewTensor pool ctx.size >>= fun pool => readBlob pool ctx.size rest >>= fun blob =>
    newTensors pool n >>= fun _ => _) : Except Stop InitResult) = _
  rw [hinit]
  change (ggmlNewTensor ⟨memSize, 0⟩ ctx.size >>= fun _ => _ : Except Stop InitResult) = _
  rw [hblob]
  change (readBlob ⟨memSize, 0 + 32 + pad16 (336 + ctx.size)⟩ ctx.size rest >>= fun blob =>
    newTensors ⟨memSize, 0 + 32 + pad16 (336 + ctx.size)⟩ n >>= fun _ => _ : Except Stop InitResult) = _
  rw [hread, hnew]
  split <;> rfl

theorem readBlob_overrun {pool : GgmlPool} {size memSize : ℕ} (hmem : pool.memSize = memSize)
    (h : memSize < 368 + min size rest.length) : readBlob pool size rest = .error (.fault .outOfBounds) := by
  have hoverhead : ggmlTensorOverhead = 368 := rfl
  unfold readBlob
  rw [hmem, hoverhead, if_pos h]

theorem readBlob_short {pool : GgmlPool} {size memSize : ℕ} (hmem : pool.memSize = memSize)
    (h : 368 + rest.length ≤ memSize) (hshort : rest.length < size) :
    readBlob pool size rest = .error (.rejected .blob) := by
  have hoverhead : ggmlTensorOverhead = 368 := rfl
  unfold readBlob
  rw [hmem, hoverhead, if_neg (by omega), if_pos hshort]

theorem loadTensors_run (ctx : GgufContext) (rest : List UInt8) :
    loadTensors false ctx rest = (ggmlInit (wrap64 (368 * ctx.info.length + 368 + ctx.size)) >>= fun pool =>
      ggmlNewTensor pool ctx.size >>= fun pool => readBlob pool ctx.size rest >>= fun blob =>
        newTensors pool ctx.info.length >>= fun _ =>
        (.ok ⟨{ ctx with data := some blob }, some (ctx.info.map (loadedTensor true))⟩ : Except Stop InitResult)) := by
  have hoverhead : ggmlTensorOverhead = 368 := rfl
  have hrequest : (ctx.info.length + 1) * ggmlTensorOverhead + ctx.size = 368 * ctx.info.length + 368 + ctx.size := by
    rw [hoverhead]
    ring
  rw [← hrequest]
  rfl

/-- The request wraps around while the one for the blob does not: a check of the pool fails. -/
theorem loadTensors_pool_wraps (hn : 368 * ctx.info.length + 384 < 2 ^ 64) (hsmall : ctx.size + 383 < 2 ^ 64)
    (h : 2 ^ 64 ≤ 368 * ctx.info.length + ctx.size + 383) :
    loadTensors false ctx rest = .error (.fault .assertion) := by
  rw [loadTensors_run]
  set n := ctx.info.length
  set size := ctx.size
  rcases Nat.lt_or_ge (368 * n + 368 + size) (2 ^ 64) with hbelow | habove
  · have hinit : ggmlInit (wrap64 (368 * n + 368 + size)) = .error (.fault .assertion) := by
      rw [wrap64_of_lt hbelow, ggmlInit_rounded (by omega)]
      exact if_pos (by unfold wrap64 pad16; omega)
    rw [hinit]
    rfl
  · have hwrap : wrap64 (368 * n + 368 + size) = 368 * n + 368 + size - 2 ^ 64 := by
      unfold wrap64
      omega
    have hinit : ∃ memSize, ggmlInit (wrap64 (368 * n + 368 + size)) = .ok ⟨memSize, 0⟩ ∧
        memSize < (size + 383) / 16 * 16 := by
      rw [hwrap]
      rcases Nat.eq_zero_or_pos (368 * n + 368 + size - 2 ^ 64) with hzero | hmore
      · rw [hzero]
        exact ⟨16, rfl, by omega⟩
      · refine ⟨_, ggmlInit_eq hmore (by omega), ?_⟩
        unfold pad16
        omega
    have hend : wrap64 (pad16 (368 + size)) = (size + 383) / 16 * 16 := by
      unfold wrap64 pad16
      omega
    obtain ⟨memSize, hinit, hlow⟩ := hinit
    have hfull := @ggmlNewTensor_full ⟨memSize, 0⟩ size _ rfl hend hlow
    rw [hinit]
    change (ggmlNewTensor ⟨memSize, 0⟩ size >>= fun _ => _ : Except Stop InitResult) = _
    rw [hfull]
    rfl

/-- The request for the blob wraps around, too: only a short file keeps the reader from overrunning the pool. -/
theorem loadTensors_blob_wraps (hn : 368 * ctx.info.length + 384 < 2 ^ 64) (hsize : ctx.size < 2 ^ 64)
    (hpos : 0 < ctx.info.length) (hlarge : 2 ^ 64 ≤ ctx.size + 383) :
    (∃ e, Stop.IsFault e ∧ loadTensors false ctx rest = .error e) ↔
      (ctx.size + 383 - 2 ^ 64) / 16 * 16 + 368 * (ctx.info.length - 1) < rest.length := by
  have hoverhead : ggmlTensorOverhead = 368 := rfl
  rw [loadTensors_run]
  set n := ctx.info.length
  set size := ctx.size
  -- opaque from here on: the kernel must not compute with the subtraction
  obtain ⟨needed, hneeded⟩ : ∃ k, k = (size + 383 - 2 ^ 64) / 16 * 16 := ⟨_, rfl⟩
  have hle : needed ≤ size + 383 - 2 ^ 64 := hneeded ▸ Nat.div_mul_le_self _ _
  rw [← hneeded]
  have hwrap : wrap64 (368 * n + 368 + size) = 368 * n + 368 + size - 2 ^ 64 := by
    unfold wrap64
    omega
  have hround : pad16 (368 * n + 368 + size - 2 ^ 64) = needed + 368 * n := by
    have hsum : 368 * n + 368 + size - 2 ^ 64 + 15 = size + 383 - 2 ^ 64 + 16 * (23 * n) := by omega
    unfold pad16
    rw [hsum, Nat.add_mul_div_left _ _ (by decide), Nat.add_mul, ← hneeded]
    ring
  have hinit : ggmlInit (wrap64 (368 * n + 368 + size)) = .ok ⟨needed + 368 * n, 0⟩ := by
    rw [hwrap, ggmlInit_eq (by omega) (by omega), hround]
  have hend : wrap64 (pad16 (368 + size)) = needed := by
    rw [hneeded]
    unfold wrap64 pad16
    omega
  have hstruct : 368 ≤ needed + 368 * n := Nat.le_add_left_of_le (Nat.le_mul_of_pos_right 368 hpos)
  obtain ⟨pool, hnew, hmem⟩ := @ggmlNewTensor_wrapped ⟨needed + 368 * n, 0⟩ size needed rfl hend
    (Nat.le_add_right _ _) hstruct
  rw [hinit]
  change (∃ e, Stop.IsFault e ∧ (ggmlNewTensor ⟨needed + 368 * n, 0⟩ size >>= fun _ => _ : Except Stop InitResult) = _) ↔ _
  rw [hnew]
  change (∃ e, Stop.IsFault e ∧ (readBlob pool size rest >>= fun _ => _ : Except Stop InitResult) = _) ↔ _
  rcases Nat.lt_or_ge (needed + 368 * (n - 1)) rest.length with hover | hshort
  · have hread : readBlob pool size rest = _ :=
      readBlob_overrun hmem (by omega : needed + 368 * n < 368 + min size rest.length)
    rw [hread]
    exact iff_of_true ⟨_, isFault_fault _, rfl⟩ hover
  · have hread : readBlob pool size rest = _ :=
      readBlob_short hmem (by omega : 368 + rest.length ≤ needed + 368 * n) (by omega)
    rw [hread]
    refine iff_of_false ?_ (Nat.not_lt.mpr hshort)
    rintro ⟨e, he, hrun⟩
    cases hrun
    exact not_isFault _ he

end Loading

end Pool

end PyannoteCpp.Gguf
