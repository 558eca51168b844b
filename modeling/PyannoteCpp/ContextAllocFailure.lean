import PyannoteCpp.ContextAllocRanges

set_option autoImplicit false

/-!
# Failed allocations

A call that fails leaves the fields of the tensors as they were only when the
first buffer was refused: whatever else fails, a tensor was given a buffer
before.
-/
namespace PyannoteCpp.ContextAlloc
open CheckedLoops

def fields (t : CtxTensor) : ℕ × Option BufferRef := (t.data, t.buffer)

/-- No tensor loses its buffer. -/
def Grown (tensors tensors' : List CtxTensor) : Prop :=
  tensors.length = tensors'.length ∧ ∀ (j : ℕ) (t t' : CtxTensor), tensors[j]? = some t → tensors'[j]? = some t' →
    t.buffer ≠ none → t'.buffer ≠ none

/-- A tensor without a buffer has been given one. -/
def Changed (tensors tensors' : List CtxTensor) : Prop :=
  ∃ (j : ℕ) (t t' : CtxTensor), tensors[j]? = some t ∧ tensors'[j]? = some t' ∧ t.buffer = none ∧ t'.buffer ≠ none

variable {backend : Backend} {talloc : GgmlTallocr} {tensors tensors' tensors'' : List CtxTensor} {i first last size : ℕ}
  {t : CtxTensor}

section Tensors

theorem Grown.refl (tensors : List CtxTensor) : Grown tensors tensors :=
  ⟨rfl, fun _ _ _ ht ht' hsome => Option.some.inj (ht.symm.trans ht') ▸ hsome⟩

theorem exists_same (h : tensors.length = tensors'.length) {j : ℕ} (ht : tensors[j]? = some t) :
    ∃ t', tensors'[j]? = some t' := by
  have hj := (List.getElem?_eq_some_iff.1 ht).1
  exact ⟨_, List.getElem?_eq_getElem (h ▸ hj)⟩

theorem Grown.trans (h : Grown tensors tensors') (h' : Grown tensors' tensors'') : Grown tensors tensors'' := by
  refine ⟨h.1.trans h'.1, fun j t v ht hv hsome => ?_⟩
  obtain ⟨u, hu⟩ := exists_same h.1 ht
  exact h'.2 j u v hu hv (h.2 j t u ht hu hsome)

theorem Changed.grown (h : Changed tensors tensors') (h' : Grown tensors' tensors'') : Changed tensors tensors'' := by
  obtain ⟨j, t, u, ht, hu, hnone, hsome⟩ := h
  obtain ⟨v, hv⟩ := exists_same h'.1 hu
  exact ⟨j, t, v, ht, hv, hnone, h'.2 j u v hu hv hsome⟩

theorem Grown.changed (h : Grown tensors tensors') (h' : Changed tensors' tensors'') : Changed tensors tensors'' := by
  obtain ⟨j, u, v, hu, hv, hnone, hsome⟩ := h'
  obtain ⟨t, ht⟩ := exists_same h.1.symm hu
  refine ⟨j, t, v, ht, hv, ?_, hsome⟩
  by_contra hbuffer
  exact h.2 j t u ht hu hbuffer hnone

theorem set_changed {t' : CtxTensor} (ht : tensors[i]? = some t) (hnone : t.buffer = none) (hsome : t'.buffer ≠ none) :
    Changed tensors (tensors.set i t') :=
  ⟨i, t, t', ht, List.getElem?_set_self (List.getElem?_eq_some_iff.1 ht).1, hnone, hsome⟩

theorem set_grown {t' : CtxTensor} (ht : tensors[i]? = some t) (hkept : t.buffer ≠ none → t'.buffer ≠ none) :
    Grown tensors (tensors.set i t') := by
  refine ⟨List.length_set.symm, fun j u v hu hv hsome => ?_⟩
  rw [List.getElem?_set] at hv
  split_ifs at hv with heq hlt
  · subst heq
    obtain rfl := Option.some.inj (ht.symm.trans hu)
    exact Option.some.inj hv ▸ hkept hsome
  · exact Option.some.inj (hu.symm.trans hv) ▸ hsome

theorem Changed.fields_ne (h : Changed tensors tensors') : tensors'.map fields ≠ tensors.map fields := by
  obtain ⟨j, t, t', ht, ht', hnone, hsome⟩ := h
  intro hsame
  have hj := congrArg (fun l => l[j]?) hsame
  simp only [List.getElem?_map, ht, ht', Option.map_some, fields, Option.some.injEq, Prod.mk.injEq] at hj
  exact hsome (hj.2.trans hnone)

end Tensors

section Ranges

theorem TensorDone.cases_buffer {p : GgmlTallocr × CtxTensor × Bool} (h : TensorDone backend talloc tensors i t p) :
    t.buffer = none ∧ p.2.1.buffer ≠ none ∨ p.2 = (t, true) ∧ ¬(t.data = 0 ∧ t.viewSrc = none) := by
  cases h with
  | placed hdata hsrc hbuffer hspace hinside => exact .inl ⟨hbuffer, by simp⟩
  | view hsrc hbuffer hsource hdata => exact .inl ⟨hbuffer, hsource⟩
  | kept hdata hbuffer => exact .inr ⟨rfl, fun hboth => hdata hboth.2 hboth.1⟩

theorem rangeStep_grown {s s' : GgmlTallocr × List CtxTensor} (h : rangeStep backend s i = .ok s') : Grown s.2 s'.2 := by
  obtain ⟨t, p, ht, hdone, rfl⟩ := rangeStep_ok h
  rcases hdone.cases_buffer with ⟨hnone, hsome⟩ | ⟨hsame, -⟩
  · exact set_grown ht (fun _ => hsome)
  · exact set_grown ht (fun hbuffer => by rwa [hsame])

theorem rangeStep_failed_changed {s : GgmlTallocr × List CtxTensor} {failed : List CtxTensor}
    (h : rangeStep backend s i = .error (.failed failed)) : Changed s.2 failed ∧ Grown s.2 failed := by
  obtain ⟨t, p, ht, hdone, hstatus, rfl⟩ := rangeStep_failed h
  rcases hdone.cases_buffer with ⟨hnone, hsome⟩ | ⟨hsame, -⟩
  · exact ⟨set_changed ht hnone hsome, set_grown ht (fun _ => hsome)⟩
  · rw [hsame] at hstatus
    cases hstatus

theorem rangeLoop_grown {l : List ℕ} {s s' : GgmlTallocr × List CtxTensor} (h : l.foldlM (rangeStep backend) s = .ok s') :
    Grown s.2 s'.2 :=
  foldlM_steps (I := fun _ u => Grown s.2 u.2) (fun _ _ _ _ hu hstep => hu.trans (rangeStep_grown hstep))
    (Grown.refl s.2) h

theorem allocTensorRange_failed {buffers : List BackendBuffer} {failed : List CtxTensor} (hsize : 0 < size)
    (h : allocTensorRange backend first last size tensors buffers = .error (.failed failed)) :
    backend.refuses buffers.length = true ∧ failed = tensors ∨
      backend.refuses buffers.length = false ∧ Changed tensors failed ∧ Grown tensors failed := by
  unfold allocTensorRange ggmlBackendBuftAllocBuffer at h
  rw [if_neg hsize.ne'] at h
  cases hrefuses : backend.refuses buffers.length with
  | true =>
    simp only [hrefuses, if_true] at h
    exact .inl ⟨rfl, (Exit.failed.inj (Except.error.inj h)).symm⟩
  | false =>
    refine .inr ⟨rfl, ?_⟩
    simp only [hrefuses, Bool.false_eq_true, if_false] at h
    cases hnew : ggmlTallocrNew backend.buft buffers.length (backend.buffer buffers.length size) with
    | error e =>
      simp only [hnew] at h
      obtain rfl := Except.error.inj h
      unfold ggmlTallocrNew at hnew
      split_ifs at hnew
      cases hnew
    | ok talloc =>
      simp only [hnew] at h
      cases hloop : (List.range' first (last - first)).foldlM (rangeStep backend) (talloc, tensors) with
      | ok s => simp only [hloop] at h; cases h
      | error e =>
        simp only [hloop] at h
        obtain rfl := Except.error.inj h
        obtain ⟨n, x, u, -, hprefix, hstep⟩ := foldlM_error_iff.1 hloop
        have hgrown := rangeLoop_grown hprefix
        obtain ⟨hchanged, hgrown'⟩ := rangeStep_failed_changed hstep
        exact ⟨hgrown.changed hchanged, hgrown.trans hgrown'⟩

end Ranges

section Calls

variable {u : CallState} {ranges : List (ℕ × ℕ)} {orig failed : List CtxTensor}

theorem needs_of_pos {lo hi : ℕ} (h : 0 < wrap64 (rangeSize backend.buft orig lo hi)) :
    ∃ j t, lo ≤ j ∧ j < hi ∧ orig[j]? = some t ∧ t.data = 0 ∧ t.viewSrc = none := by
  have hsum : rangeSize backend.buft orig lo hi ≠ 0 := fun hzero => by
    rw [hzero] at h
    exact absurd h (lt_irrefl 0)
  obtain ⟨j, hj, hpos⟩ := Finset.exists_ne_zero_of_sum_ne_zero hsum
  obtain ⟨hlo, hhi⟩ := Finset.mem_Ico.1 hj
  unfold sizeAt at hpos
  cases ht : orig[j]? with
  | none => rw [ht] at hpos; exact absurd rfl hpos
  | some t =>
    rw [ht, Option.elim_some, thisSize] at hpos
    split_ifs at hpos with hneeds
    · exact ⟨j, t, hlo, hhi, ht, hneeds⟩
    · exact absurd rfl hpos

theorem CallFacts.untouched (h : CallFacts backend orig ranges i u) (hnone : u.buffers = []) : u.tensors = orig :=
  List.ext_getElem? (fun j => h.frame j (h.buffers_nil.1 hnone ▸ Nat.zero_le j))

theorem CallFacts.changed (h : CallFacts backend orig ranges i u) (hsome : u.buffers ≠ []) :
    backend.refuses 0 = false ∧ Changed orig u.tensors := by
  have hlen : 0 < ranges.length := h.lengths ▸ List.length_pos_iff.2 hsome
  have hclosed := h.closed 0 _ (List.getElem?_eq_getElem hlen)
  refine ⟨hclosed.served, ?_⟩
  obtain ⟨j, t, hlo, hhi, ht, hdata, hsrc⟩ := needs_of_pos hclosed.size_pos
  obtain ⟨talloc, -, hplaced⟩ := hclosed.placed
  obtain ⟨t', p, before, ht', hp, hdone⟩ := hplaced j hlo hhi
  obtain rfl := Option.some.inj (ht.symm.trans ht')
  rcases hdone.cases_buffer with ⟨hnone, hbuffer⟩ | ⟨-, hneeds⟩
  · exact ⟨j, t, p.2.1, ht, hp, hnone, hbuffer⟩
  · exact absurd ⟨hdata, hsrc⟩ hneeds

theorem closeRange_failed (h : CallFacts backend orig ranges i u) (hpos : 0 < u.curBufSize)
    (hclose : closeRange backend false u last = .error (.failed failed)) :
    backend.refuses 0 = true ∧ failed = orig ∨ backend.refuses 0 = false ∧ Changed orig failed := by
  unfold closeRange at hclose
  simp only [Bool.false_eq_true, if_false] at hclose
  cases halloc : allocTensorRange backend u.first last u.curBufSize u.tensors u.buffers with
  | ok q => simp only [halloc] at hclose; cases hclose
  | error e =>
    simp only [halloc] at hclose
    obtain rfl := Except.error.inj hclose
    have hcases := allocTensorRange_failed hpos halloc
    by_cases hnone : u.buffers = []
    · rw [h.untouched hnone, hnone, List.length_nil] at hcases
      exact hcases.imp_right (And.imp_right And.left)
    · obtain ⟨hserved, hchanged⟩ := h.changed hnone
      refine .inr ⟨hserved, ?_⟩
      rcases hcases with ⟨-, rfl⟩ | ⟨-, -, hgrown⟩
      · exact hchanged
      · exact hchanged.grown hgrown

theorem call_failed {ctx : GgmlContext} (h : ggmlBackendAllocCtxTensorsFromBuft backend ctx = .error (.failed failed)) :
    backend.refuses 0 = true ∧ failed = ctx.tensors ∨ backend.refuses 0 = false ∧ Changed ctx.tensors failed := by
  cases hctx : ctx.noAlloc with
  | true =>
    obtain ⟨n, v, -, hat, hpos, -, hclose⟩ := call_error hctx h
    obtain ⟨ranges, hfacts⟩ := hat.facts
    exact closeRange_failed hfacts hpos hclose
  | false =>
    unfold ggmlBackendAllocCtxTensorsFromBuft ggmlBackendAllocCtxTensorsFromBuftImpl at h
    rw [hctx] at h
    cases h

/-- A call that failed leaves every tensor as it was, and none in a buffer it freed, exactly when the first buffer was
refused. -/
theorem failed_unchanged_iff {ctx : GgmlContext} (hctx : ∀ t ∈ ctx.tensors, ∀ k, t.buffer ≠ some (.requested k))
    (h : ggmlBackendAllocCtxTensorsFromBuft backend ctx = .error (.failed failed)) :
    (failed.map fields = ctx.tensors.map fields ∧ ∀ t ∈ failed, ∀ k, t.buffer ≠ some (.requested k)) ↔
      backend.refuses 0 = true := by
  rcases call_failed h with ⟨hrefused, rfl⟩ | ⟨hserved, hchanged⟩
  · exact iff_of_true ⟨rfl, hctx⟩ hrefused
  · exact iff_of_false (fun hkept => hchanged.fields_ne hkept.1) (by rw [hserved]; simp)

def twoTensors : GgmlContext :=
  ⟨true, [⟨.f32, ⟨16, 1, 1, 1⟩, ⟨4, 64, 64, 64⟩, 0, none, none, 0⟩, ⟨.f32, ⟨16, 1, 1, 1⟩, ⟨4, 64, 64, 64⟩, 0, none, none, 0⟩]⟩

def smallBuffers (refuses : ℕ → Bool) : Backend :=
  ⟨⟨32, some 64, none⟩, refuses, fun k size => ⟨4096 * (k + 1), size⟩, fun _ => true⟩

theorem failed_unchanged_first : ((twoTensors.tensors.map fields = twoTensors.tensors.map fields) ∧
    ∀ t ∈ twoTensors.tensors, ∀ k, t.buffer ≠ some (.requested k)) ↔ (smallBuffers (fun k => k = 0)).refuses 0 = true :=
  failed_unchanged_iff (fun t ht k => by rcases List.mem_pair.1 ht with rfl | rfl <;> simp) rfl

/-- The second buffer is refused, and the first tensor keeps the one that was freed. -/
theorem not_failed_unchanged : ∃ failed, ggmlBackendAllocCtxTensorsFromBuft (smallBuffers (fun k => k = 1)) twoTensors =
      .error (.failed failed) ∧
    failed.map fields = [(4096, some (.requested 0)), (0, none)] ∧ failed.map fields ≠ twoTensors.tensors.map fields :=
  ⟨_, rfl, rfl, by decide⟩

end Calls

end PyannoteCpp.ContextAlloc
