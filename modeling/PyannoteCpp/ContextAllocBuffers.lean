import PyannoteCpp.ContextAllocPlacement

set_option autoImplicit false

/-!
# The buffers of a call

When the backend serves every request, the tensors of a context end up apart, aligned and
inside their buffers. What can fail is the count of the bytes, and the tensors
after a last one that is larger than the largest buffer are left out.
-/
namespace PyannoteCpp.ContextAlloc
open CheckedLoops

def SourceReady (tensors : List CtxTensor) (i : ℕ) : ViewSource → Prop
  | .inContext j => j < i ∧ ∃ s, tensors[j]? = some s ∧ s.viewSrc = none ∧ (s.data ≠ 0 → s.buffer ≠ none)
  | .outside buffer data => buffer ≠ none ∧ data ≠ 0

/-- What the assertions of a call ask for. -/
structure WellFormed (ctx : GgmlContext) : Prop where
  noAlloc : ctx.noAlloc = true
  unplaced : ∀ t ∈ ctx.tensors, t.data = 0 → t.viewSrc = none → t.buffer = none
  sources : ∀ i t src, ctx.tensors[i]? = some t → t.buffer = none → t.viewSrc = some src → SourceReady ctx.tensors i src

/-- The buffers that are returned are aligned, apart and of the requested size. -/
structure ServesAligned (backend : Backend) : Prop where
  size : ∀ k n, n < 2 ^ 64 → (backend.buffer k n).size = n
  base : ∀ k n, 0 < (backend.buffer k n).base ∧ backend.buft.alignment ∣ (backend.buffer k n).base
  apart : ∀ k l m n, k < l → m < 2 ^ 64 → n < 2 ^ 64 → (backend.buffer k m).base + m ≤ (backend.buffer l n).base ∨
    (backend.buffer l n).base + n ≤ (backend.buffer k m).base

/-- Tensor `i` is one that a call gives bytes to, and `t'` is what it becomes. -/
structure NewlyPlaced (orig tensors : List CtxTensor) (i : ℕ) (t t' : CtxTensor) : Prop where
  before : orig[i]? = some t
  after : tensors[i]? = some t'
  data : t.data = 0
  viewSrc : t.viewSrc = none

/-- Tensor `i` is aligned and inside a buffer of the call. -/
def InsideBuffer (buft : BufferType) (u : CallState) (i : ℕ) (t t' : CtxTensor) : Prop :=
  ∃ k b, t'.buffer = some (.requested k) ∧ u.buffers[k]? = some b ∧ buft.alignment ∣ t'.data ∧ b.base ≤ t'.data ∧
    t'.data + ggmlBackendBuftGetAllocSize buft i t ≤ b.base + b.size

structure Placement (buft : BufferType) (orig : List CtxTensor) (u : CallState) : Prop where
  buffers : ∀ t ∈ u.tensors, t.buffer ≠ none
  inside : ∀ i t t', NewlyPlaced orig u.tensors i t t' → InsideBuffer buft u i t t'
  apart : ∀ i j t t' s s', i < j → NewlyPlaced orig u.tensors i t t' → NewlyPlaced orig u.tensors j s s' →
    t'.data + ggmlBackendBuftGetAllocSize buft i t ≤ s'.data ∨ s'.data + ggmlBackendBuftGetAllocSize buft j s ≤ t'.data
  shared : ∀ i j t t' s s' k b, i < j → NewlyPlaced orig u.tensors i t t' → NewlyPlaced orig u.tensors j s s' →
    0 < ggmlBackendBuftGetAllocSize buft i t → 0 < ggmlBackendBuftGetAllocSize buft j s →
    t'.buffer = some (.requested k) → s'.buffer = some (.requested k) → u.buffers[k]? = some b →
    b.size ≤ ggmlBackendBuftGetMaxSize buft

structure CallSafe (backend : Backend) (ctx : GgmlContext) : Prop where
  enoughSpace : ggmlBackendAllocCtxTensorsFromBuft backend ctx ≠ .error (.abort .notEnoughSpace)
  insideBuffer : ggmlBackendAllocCtxTensorsFromBuft backend ctx ≠ .error (.abort .outsideBuffer)
  placement : ∀ u, ggmlBackendAllocCtxTensorsFromBuft backend ctx = .ok u → u.buffers ≠ [] →
    Placement backend.buft ctx.tensors u
  size : ∀ u, ggmlBackendAllocCtxTensorsFromBuft backend ctx = .ok u →
    ggmlBackendAllocCtxTensorsFromBuftSize backend ctx = .ok ((u.buffers.map BackendBuffer.size).sum)

/-- The sizes add up to nothing, and no buffer is full before. -/
def NothingRequested (buft : BufferType) (tensors : List CtxTensor) : Prop :=
  wrap64 (rangeSize buft tensors 0 tensors.length) = 0 ∧ ∀ i < tensors.length, wrap64 (rangeSize buft tensors 0 i) = 0 ∨
    wrap64 (rangeSize buft tensors 0 (i + 1)) ≤ ggmlBackendBuftGetMaxSize buft

/-- The bytes can be counted, the tensors with data have a buffer, and so do those that come after the last tensor with
bytes when this one is larger than the largest buffer. -/
structure Allocatable (buft : BufferType) (tensors : List CtxTensor) : Prop where
  bytes : neededRange buft tensors 0 tensors.length < 2 ^ 64
  buffered : ∀ t ∈ tensors, t.data ≠ 0 → t.viewSrc = none → t.buffer ≠ none
  last : ∀ i, ggmlBackendBuftGetMaxSize buft < sizeAt buft tensors i → (∀ j, i < j → sizeAt buft tensors j = 0) →
    ∀ j t, i < j → tensors[j]? = some t → t.buffer ≠ none

variable {backend : Backend} {buft : BufferType} {ctx : GgmlContext} {orig tensors : List CtxTensor} {u : CallState}
  {ranges : List (ℕ × ℕ)} {i j n : ℕ} {t : CtxTensor}

section Requests

variable (hdvd : backend.buft.alignment ∣ 2 ^ 64) (hserves : ServesAligned backend)
include hdvd hserves

theorem alignedOffsetFrom_base (k n : ℕ) :
    alignedOffsetFrom (backend.buffer k n).base 0 backend.buft.alignment = 0 := by
  have hbase : wrap64 ((backend.buffer k n).base + 0) % backend.buft.alignment = 0 := by
    rw [Nat.add_zero, wrap64, Nat.mod_mod_of_dvd _ hdvd]
    exact Nat.mod_eq_zero_of_dvd (hserves.base k n).2
  rw [alignedOffsetFrom, hbase, Nat.sub_zero, Nat.mod_self]
  rfl

theorem ggmlTallocrNew_eq {k n : ℕ} (hpos : 0 < n) (hn : n < 2 ^ 64) :
    ggmlTallocrNew backend.buft k (backend.buffer k n) = .ok ⟨k, (backend.buffer k n).base, n, 0⟩ := by
  rw [ggmlTallocrNew, hserves.size k n hn, if_neg hpos.ne', if_neg (hserves.base k n).1.ne',
    alignedOffsetFrom_base hdvd hserves]

theorem closeRange_error {e : Exit} (hat : CallAt backend orig n u) (hpos : 0 < u.curBufSize)
    (h : closeRange backend false u n = .error e) :
    e = .failed u.tensors ∧ backend.refuses u.buffers.length = true ∨
      ∃ i s, i < n - u.first ∧ RangeFacts backend orig u.tensors
        ⟨u.buffers.length, (backend.buffer u.buffers.length u.curBufSize).base, u.curBufSize, 0⟩ u.first i s ∧
        rangeStep backend s (u.first + i) = .error e := by
  obtain ⟨⟨ranges, hfacts⟩, hfirst, hcur, -⟩ := hat
  have hlt : u.curBufSize < 2 ^ 64 := by
    rw [hcur, (cut_cur n).2]
    exact wrap64_lt _
  unfold closeRange at h
  simp only [Bool.false_eq_true, if_false] at h
  cases halloc : allocTensorRange backend u.first n u.curBufSize u.tensors u.buffers with
  | ok q => simp only [halloc] at h; cases h
  | error e' =>
    simp only [halloc] at h
    obtain rfl := Except.error.inj h
    unfold allocTensorRange ggmlBackendBuftAllocBuffer at halloc
    rw [if_neg hpos.ne'] at halloc
    cases hrefuses : backend.refuses u.buffers.length with
    | true =>
      simp only [hrefuses, if_true] at halloc
      exact .inl ⟨(Except.error.inj halloc).symm, rfl⟩
    | false =>
      simp only [hrefuses, Bool.false_eq_true, if_false, ggmlTallocrNew_eq hdvd hserves hpos hlt] at halloc
      cases hloop : (List.range' u.first (n - u.first)).foldlM (rangeStep backend)
          (⟨u.buffers.length, (backend.buffer u.buffers.length u.curBufSize).base, u.curBufSize, 0⟩, u.tensors) with
      | ok s => simp only [hloop] at halloc; cases halloc
      | error e' =>
        simp only [hloop] at halloc
        obtain rfl := Except.error.inj halloc
        obtain ⟨i, x, s, hx, hprefix, hstep⟩ := foldlM_error_iff.1 hloop
        obtain ⟨hlt', hget⟩ := List.getElem?_eq_some_iff.1 hx
        rw [List.length_range'] at hlt'
        rw [List.getElem_range', Nat.one_mul] at hget
        exact .inr ⟨i, s, hlt', rangeLoop_facts hfacts.frame (Nat.two_pow_pos 64) hlt'.le hprefix, hget ▸ hstep⟩

theorem RangePlaced.tensor {k : ℕ} {p : ℕ × ℕ} (h : RangePlaced backend orig u k p) (hlo : p.1 ≤ j) (hhi : j < p.2) :
    PlacedAfter backend orig u.tensors ⟨k, (backend.buffer k (wrap64 (rangeSize backend.buft orig p.1 p.2))).base,
      wrap64 (rangeSize backend.buft orig p.1 p.2), 0⟩ p.1 j := by
  obtain ⟨talloc, hnew, hplaced⟩ := h.placed
  rw [ggmlTallocrNew_eq hdvd hserves h.size_pos (wrap64_lt _)] at hnew
  obtain rfl := Except.ok.inj hnew
  exact hplaced j hlo hhi

omit hdvd in
theorem CallFacts.sizes (h : CallFacts backend orig ranges n u) :
    u.buffers.map BackendBuffer.size = ranges.map (fun p => wrap64 (rangeSize backend.buft orig p.1 p.2)) := by
  refine List.ext_getElem? (fun k => ?_)
  rw [List.getElem?_map, List.getElem?_map]
  cases hk : ranges[k]? with
  | none =>
    rw [List.getElem?_eq_none_iff, h.lengths] at hk
    rw [List.getElem?_eq_none hk]
    rfl
  | some p => rw [(h.closed k p hk).buffer, Option.map_some, Option.map_some, hserves.size k _ (wrap64_lt _)]

end Requests

section Counted

variable (hdvd : backend.buft.alignment ∣ 2 ^ 64) (hserves : ServesAligned backend)
  (hT : neededRange backend.buft orig 0 orig.length < 2 ^ 64)
include hdvd hT

theorem allocSize_le (ht : orig[j]? = some t) (hdata : t.data = 0) (hsrc : t.viewSrc = none) :
    ggmlBackendBuftGetAllocSize backend.buft j t ≤ sizeAt backend.buft orig j ∧
      ggmlPad (ggmlBackendBuftGetAllocSize backend.buft j t) backend.buft.alignment = sizeAt backend.buft orig j := by
  have hal := Nat.pos_of_dvd_of_pos hdvd (Nat.two_pow_pos 64)
  have hlt := (List.getElem?_eq_some_iff.1 ht).1
  have hsize : sizeAt backend.buft orig j = neededAt backend.buft orig j := by
    have hone := (@rangeSize_exact backend.buft orig j (j + 1) hal hdvd hT hlt).1
    simpa [rangeSize, neededRange] using hone
  have hneeded : neededAt backend.buft orig j =
      exactPad (ggmlBackendBuftGetAllocSize backend.buft j t) backend.buft.alignment := by
    rw [neededAt, ht, Option.elim_some, needed, if_pos ⟨hdata, hsrc⟩]
  have hthis : sizeAt backend.buft orig j = ggmlPad (ggmlBackendBuftGetAllocSize backend.buft j t) backend.buft.alignment := by
    rw [sizeAt_of ht, thisSize, if_pos ⟨hdata, hsrc⟩]
  exact ⟨(le_exactPad hal _).trans_eq (hneeded.symm.trans hsize.symm), hthis.symm⟩

theorem CallAt.room (hat : CallAt backend orig n u) (hn : n ≤ orig.length) (hlo : u.first ≤ j) (hhi : j < n) :
    wrap64 (rangeSize backend.buft orig u.first j) = rangeSize backend.buft orig u.first j ∧
      wrap64 (rangeSize backend.buft orig u.first j + sizeAt backend.buft orig j) =
        rangeSize backend.buft orig u.first j + sizeAt backend.buft orig j ∧
      rangeSize backend.buft orig u.first j + sizeAt backend.buft orig j ≤ u.curBufSize := by
  have hal := Nat.pos_of_dvd_of_pos hdvd (Nat.two_pow_pos 64)
  have hsum := @rangeSize_succ backend.buft orig u.first j hlo
  have hcur : u.curBufSize = rangeSize backend.buft orig u.first n := by
    rw [hat.cur, cut_exact hal hdvd hT hn, hat.first]
  rw [← hsum, hcur]
  exact ⟨wrap64_of_lt (rangeSize_exact hal hdvd hT (hhi.le.trans hn)).2,
    wrap64_of_lt (rangeSize_exact hal hdvd hT (Nat.succ_le_of_lt (hhi.trans_le hn))).2, rangeSize_mono le_rfl hhi⟩

include hserves

theorem call_ne_abort {reason : AllocAbort} (hctx : ctx.noAlloc = true) (horig : ctx.tensors = orig)
    (hreason : reason ≠ .assertion) : ggmlBackendAllocCtxTensorsFromBuft backend ctx ≠ .error (.abort reason) := by
  intro h
  obtain ⟨n, v, hn, hat, hpos, -, hclose⟩ := call_error hctx h
  rw [horig] at hn hat
  rcases closeRange_error hdvd hserves hat hpos hclose with ⟨he, -⟩ | ⟨i, s, hi, hfacts, hstep⟩
  · cases he
  · have hcursor := hfacts.cursor
    rw [Nat.zero_add] at hcursor
    rcases rangeStep_error hstep with ⟨-, he⟩ | ⟨t, ht, hstopped⟩ | ⟨t, p, -, -, -, he⟩
    · exact hreason (Exit.abort.inj he)
    · obtain ⟨ranges, hcall⟩ := hat.facts
      have ht' : orig[v.first + i]? = some t := by
        rw [← hcall.frame _ (by omega), ← hfacts.frame _ (.inr le_rfl), ht]
      have hroom := hat.room hdvd hT hn (show v.first ≤ v.first + i by omega) (by omega)
      cases hstopped with
      | notEnoughSpace hdata hsrc hspace =>
        have hsize := allocSize_le hdvd hT ht' hdata hsrc
        rw [hcursor, hsize.2, hroom.1, hroom.2.1] at hspace
        exact absurd hspace (not_lt.2 hroom.2.2)
      | outsideBuffer hdata hsrc hinside =>
        have hsize := allocSize_le hdvd hT ht' hdata hsrc
        rw [hcursor] at hinside
        simp only [hroom.1] at hinside
        omega
      | buffered => exact hreason rfl
      | source => exact hreason rfl
    · cases he

omit hT in
theorem RangePlaced.newly {k : ℕ} {p : ℕ × ℕ} {t' : CtxTensor} (h : RangePlaced backend orig u k p) (hlo : p.1 ≤ j)
    (hhi : j < p.2) (hnew : NewlyPlaced orig u.tensors j t t') : t'.buffer = some (.requested k) ∧
      t'.data = (backend.buffer k (wrap64 (rangeSize backend.buft orig p.1 p.2))).base +
        wrap64 (rangeSize backend.buft orig p.1 j) := by
  obtain ⟨s, q, before, hs, hq, hdone⟩ := h.tensor hdvd hserves hlo hhi
  obtain rfl := Option.some.inj (hnew.before.symm.trans hs)
  obtain rfl := Option.some.inj (hnew.after.symm.trans hq)
  rw [Nat.zero_add] at hdone
  cases hdone with
  | placed => exact ⟨rfl, rfl⟩
  | view hsrc => exact absurd (hsrc.symm.trans hnew.viewSrc) (by simp)
  | kept hdata => exact absurd hnew.data (hdata hnew.viewSrc)

omit hserves in
theorem left_buffered (hfits : Allocatable backend.buft orig) (hfacts : CallFacts backend orig ranges orig.length u)
    (hend : u.first = orig.length ∨ u.first = (cut backend.buft orig orig.length).first ∧
      (cut backend.buft orig orig.length).cur = 0) (hsome : u.buffers ≠ []) (hj : u.first ≤ j) (ht : orig[j]? = some t) :
    t.buffer ≠ none := by
  have hal := Nat.pos_of_dvd_of_pos hdvd (Nat.two_pow_pos 64)
  have hlt := (List.getElem?_eq_some_iff.1 ht).1
  rcases hend with hlast | ⟨hfirst, hcur⟩
  · omega
  · have hlen : 0 < ranges.length := hfacts.lengths ▸ List.length_pos_iff.2 hsome
    have hclosed := hfacts.closed 0 _ (List.getElem?_eq_getElem hlen)
    have hpos : 0 < u.first := (Nat.zero_le _).trans_lt (hclosed.nonempty.trans_le hclosed.stop_le)
    obtain ⟨i, hi, hmax, hzero⟩ := cut_tail hal hdvd hT le_rfl (hfirst ▸ hpos) hcur
    refine hfits.last i hmax (fun k hk => ?_) j t (by omega) ht
    by_cases hin : k < orig.length
    · exact hzero k hk hin
    · exact sizeAt_eq_zero (not_lt.1 hin)

theorem newly_covered (hunplaced : ∀ t ∈ orig, t.data = 0 → t.viewSrc = none → t.buffer = none)
    (hfits : Allocatable backend.buft orig) (hfacts : CallFacts backend orig ranges orig.length u)
    (hend : u.first = orig.length ∨ u.first = (cut backend.buft orig orig.length).first ∧
      (cut backend.buft orig orig.length).cur = 0) (hsome : u.buffers ≠ []) {t' : CtxTensor}
    (hnew : NewlyPlaced orig u.tensors j t t') : ∃ k p, RangePlaced backend orig u k p ∧ ranges[k]? = some p ∧
      p.1 ≤ j ∧ j < p.2 ∧ t'.buffer = some (.requested k) ∧
      t'.data = (backend.buffer k (wrap64 (rangeSize backend.buft orig p.1 p.2))).base + rangeSize backend.buft orig p.1 j ∧
      wrap64 (rangeSize backend.buft orig p.1 p.2) = rangeSize backend.buft orig p.1 p.2 ∧
      rangeSize backend.buft orig p.1 j + sizeAt backend.buft orig j ≤ rangeSize backend.buft orig p.1 p.2 := by
  have hal := Nat.pos_of_dvd_of_pos hdvd (Nat.two_pow_pos 64)
  have hlt : j < u.first := by
    by_contra hle
    exact left_buffered hdvd hT hfits hfacts hend hsome (not_lt.1 hle) hnew.before
      (hunplaced t (List.mem_of_getElem? hnew.before) hnew.data hnew.viewSrc)
  obtain ⟨k, p, hk, hlo, hhi⟩ := hfacts.covered j hlt
  have hclosed := hfacts.closed k p hk
  obtain ⟨hbuffer, hdata⟩ := hclosed.newly hdvd hserves hlo hhi hnew
  have hstop := hclosed.stop_le.trans hfacts.first_le
  have hsum := @rangeSize_succ backend.buft orig p.1 j hlo
  rw [wrap64_of_lt (rangeSize_exact hal hdvd hT (hhi.le.trans hstop)).2] at hdata
  exact ⟨k, p, hclosed, hk, hlo, hhi, hbuffer, hdata, wrap64_of_lt (rangeSize_exact hal hdvd hT hstop).2,
    hsum ▸ rangeSize_mono le_rfl hhi⟩

/-- Every tensor is in its place after a call that requested a buffer. -/
theorem placement_of_allocatable (hctx : WellFormed ctx) (horig : ctx.tensors = orig) (hfits : Allocatable backend.buft orig)
    (h : ggmlBackendAllocCtxTensorsFromBuft backend ctx = .ok u) (hsome : u.buffers ≠ []) :
    Placement backend.buft orig u := by
  subst horig
  have hal := Nat.pos_of_dvd_of_pos hdvd (Nat.two_pow_pos 64)
  obtain ⟨ranges, hfacts, -, hend⟩ := call_facts h
  have hend' := hend.imp_left And.left
  have hcover := fun j t t' => @newly_covered backend ctx.tensors u ranges j t hdvd hserves hT hctx.unplaced hfits hfacts
    hend' hsome t'
  have halloc := fun j t (t' : CtxTensor) (hnew : NewlyPlaced ctx.tensors u.tensors j t t') =>
    (allocSize_le hdvd hT hnew.before hnew.data hnew.viewSrc).1
  refine ⟨fun t' ht' => ?_, fun i t t' hnew => ?_, fun i j t t' s s' hij hnew hnew' => ?_,
    fun i j t t' s s' k b hij hnew hnew' hpos hpos' hbuffer hbuffer' hb => ?_⟩
  · obtain ⟨j, hj⟩ := List.mem_iff_getElem?.1 ht'
    by_cases hlt : j < u.first
    · obtain ⟨k, p, hk, hlo, hhi⟩ := hfacts.covered j hlt
      obtain ⟨t, q, before, ht, hq, hdone⟩ := (hfacts.closed k p hk).tensor hdvd hserves hlo hhi
      obtain rfl := Option.some.inj (hj.symm.trans hq)
      cases hdone with
      | placed => simp
      | view hsrc hbuffer hsource => exact hsource
      | kept hdata hbuffer =>
        by_cases hsrc : t.viewSrc = none
        · exact hfits.buffered t (List.mem_of_getElem? ht) (hdata hsrc) hsrc
        · exact hbuffer hsrc
    · exact left_buffered hdvd hT hfits hfacts hend' hsome (not_lt.1 hlt) ((hfacts.frame j (not_lt.1 hlt)).symm.trans hj)
  · obtain ⟨k, p, hclosed, hk, hlo, hhi, hbuffer, hdata, hsize, hroom⟩ := hcover i t t' hnew
    refine ⟨k, _, hbuffer, hclosed.buffer, ?_, ?_, ?_⟩
    · rw [hdata]
      exact (hserves.base _ _).2.add (Finset.dvd_sum (fun _ _ => sizeAt_dvd))
    · rw [hdata]
      exact Nat.le_add_right _ _
    · have hle := halloc i t t' hnew
      rw [hserves.size k _ (wrap64_lt _), hdata, hsize]
      omega
  · obtain ⟨k, p, hclosed, hk, hlo, hhi, hbuffer, hdata, hsize, hroom⟩ := hcover i t t' hnew
    obtain ⟨l, q, hclosed', hl, hlo', hhi', hbuffer', hdata', hsize', hroom'⟩ := hcover j s s' hnew'
    have hle := halloc i t t' hnew
    have hle' := halloc j s s' hnew'
    by_cases hkl : k = l
    · subst hkl
      obtain rfl := Option.some.inj (hk.symm.trans hl)
      have hsum := @rangeSize_succ backend.buft ctx.tensors p.1 i hlo
      have hmono : rangeSize backend.buft ctx.tensors p.1 (i + 1) ≤ rangeSize backend.buft ctx.tensors p.1 j :=
        rangeSize_mono le_rfl hij
      rw [hdata, hdata']
      omega
    · rw [hsize] at hdata
      rw [hsize'] at hdata'
      have hlt := (rangeSize_exact hal hdvd hT (hclosed.stop_le.trans hfacts.first_le) : _ = _ ∧
        rangeSize backend.buft ctx.tensors p.1 p.2 < _).2
      have hlt' := (rangeSize_exact hal hdvd hT (hclosed'.stop_le.trans hfacts.first_le) : _ = _ ∧
        rangeSize backend.buft ctx.tensors q.1 q.2 < _).2
      rcases Nat.lt_or_gt_of_ne hkl with hkl | hkl
      · have hapart := hserves.apart k l _ _ hkl hlt hlt'
        omega
      · have hapart := hserves.apart l k _ _ hkl hlt' hlt
        omega
  · obtain ⟨k', p, hclosed, hk, hlo, hhi, hbuf, hdata, hsize, hroom⟩ := hcover i t t' hnew
    obtain ⟨l', q, hclosed', hl, hlo', hhi', hbuf', hdata', hsize', hroom'⟩ := hcover j s s' hnew'
    obtain rfl : k' = k := by simpa using hbuf.symm.trans hbuffer
    obtain rfl : l' = k' := by simpa using hbuf'.symm.trans hbuffer'
    obtain rfl := Option.some.inj (hk.symm.trans hl)
    obtain rfl := Option.some.inj (hclosed.buffer.symm.trans hb)
    have hstop := hclosed.stop_le.trans hfacts.first_le
    have hle := halloc i t t' hnew
    have hle' := halloc j s s' hnew'
    rw [hserves.size l' _ (wrap64_lt _), hsize]
    rcases cut_fits hal hdvd hT hstop with hmax | hsingle
    · rwa [cut_exact hal hdvd hT hstop, ← hclosed.start] at hmax
    · rw [← hclosed.start] at hsingle
      exact absurd (hsingle i j hlo hhi hlo' hhi' (by omega) (by omega)) hij.ne

theorem size_of_counted (hctx : ctx.noAlloc = true) (horig : ctx.tensors = orig)
    (h : ggmlBackendAllocCtxTensorsFromBuft backend ctx = .ok u) :
    ggmlBackendAllocCtxTensorsFromBuftSize backend ctx = .ok ((u.buffers.map BackendBuffer.size).sum) := by
  subst horig
  have hal := Nat.pos_of_dvd_of_pos hdvd (Nat.two_pow_pos 64)
  obtain ⟨ranges, hfacts, htotal, -⟩ := call_facts h
  have hexact : ranges.map (fun p => wrap64 (rangeSize backend.buft ctx.tensors p.1 p.2)) =
      ranges.map (fun p => rangeSize backend.buft ctx.tensors p.1 p.2) := by
    refine List.map_congr_left (fun p hp => ?_)
    obtain ⟨k, hk⟩ := List.mem_iff_getElem?.1 hp
    exact wrap64_of_lt (rangeSize_exact hal hdvd hT ((hfacts.closed k p hk).stop_le.trans hfacts.first_le)).2
  have hsum := hfacts.total
  rw [hexact, hfacts.sum, wrap64_of_lt (rangeSize_exact hal hdvd hT hfacts.first_le).2] at hsum
  rw [measure_eq hctx, ← htotal, hsum, hfacts.sizes hserves, hexact, hfacts.sum]

end Counted

section Nothing

theorem safe_of_nothing (hctx : ctx.noAlloc = true) (h : NothingRequested backend.buft ctx.tensors) :
    CallSafe backend ctx := by
  have hfirst : ∀ n ≤ ctx.tensors.length, (cut backend.buft ctx.tensors n).first = 0 := fun n hn =>
    cut_first_eq_zero.2 (fun i hi => h.2 i (hi.trans_le hn))
  have hcur : ∀ n ≤ ctx.tensors.length, (cut backend.buft ctx.tensors n).cur = wrap64 (rangeSize backend.buft ctx.tensors 0 n) :=
    fun n hn => by rw [(cut_cur n).2, hfirst n hn]
  have hok : ∀ e, ggmlBackendAllocCtxTensorsFromBuft backend ctx ≠ .error e := fun e he => by
    obtain ⟨n, v, hn, hat, hpos, hsplit, -⟩ := call_error hctx he
    rw [hat.cur, hcur n hn] at hpos hsplit
    by_cases hlast : n = ctx.tensors.length
    · rw [hlast, h.1] at hpos
      exact absurd hpos (lt_irrefl 0)
    · rw [wrap64_add, ← rangeSize_succ (Nat.zero_le n)] at hsplit
      have hfits := h.2 n (lt_of_le_of_ne hn hlast)
      omega
  have hnone : ∀ u, ggmlBackendAllocCtxTensorsFromBuft backend ctx = .ok u → u.buffers = [] ∧
      u.nbytesTotal = callTotal backend.buft ctx.tensors := fun u hu => by
    obtain ⟨ranges, hfacts, htotal, hend⟩ := call_facts hu
    refine ⟨hfacts.buffers_nil.2 ?_, htotal⟩
    rcases hend with ⟨-, hpos⟩ | ⟨hstart, -⟩
    · rw [hcur _ le_rfl, h.1] at hpos
      exact absurd hpos (lt_irrefl 0)
    · exact hstart.trans (hfirst _ le_rfl)
  refine ⟨hok _, hok _, fun u hu hsome => absurd (hnone u hu).1 hsome, fun u hu => ?_⟩
  obtain ⟨ranges, hfacts, -, -⟩ := call_facts hu
  have hranges : ranges = [] := List.length_eq_zero_iff.1 (by rw [hfacts.lengths, (hnone u hu).1]; rfl)
  have htotal := hfacts.total
  rw [hranges] at htotal
  rw [measure_eq hctx, ← (hnone u hu).2, (hnone u hu).1, htotal]
  rfl

end Nothing

section Necessary

def alwaysServes (buft : BufferType) : Backend :=
  ⟨buft, fun _ => false, fun k n => ⟨(k + 1) * (2 ^ 64 * buft.alignment), n⟩, fun _ => true⟩

theorem alwaysServes_aligned (hal : 0 < buft.alignment) : ServesAligned (alwaysServes buft) := by
  refine ⟨fun _ _ _ => rfl, fun k n => ⟨?_, ?_⟩, fun k l m n hkl hm hn => .inl ?_⟩
  · exact Nat.mul_pos (Nat.succ_pos k) (Nat.mul_pos (Nat.two_pow_pos 64) hal)
  · exact Dvd.dvd.mul_left (Dvd.intro_left _ rfl) _
  · change (k + 1) * (2 ^ 64 * buft.alignment) + m ≤ (l + 1) * (2 ^ 64 * buft.alignment)
    have hstep : (k + 1 + 1) * (2 ^ 64 * buft.alignment) ≤ (l + 1) * (2 ^ 64 * buft.alignment) :=
      Nat.mul_le_mul_right _ (by omega)
    have hroom : 2 ^ 64 ≤ 2 ^ 64 * buft.alignment := Nat.le_mul_of_pos_right _ hal
    rw [Nat.succ_mul (k + 1)] at hstep
    omega

variable (hdvd : backend.buft.alignment ∣ 2 ^ 64) (hserves : ServesAligned backend)
include hdvd hserves

theorem RangePlaced.counted {k : ℕ} {p : ℕ × ℕ} (h : RangePlaced backend orig u k p) (hlo : p.1 ≤ j) (hhi : j ≤ p.2) :
    rangeSize backend.buft orig p.1 j = neededRange backend.buft orig p.1 j ∧
      neededRange backend.buft orig p.1 j ≤ wrap64 (rangeSize backend.buft orig p.1 p.2) := by
  have hal := Nat.pos_of_dvd_of_pos hdvd (Nat.two_pow_pos 64)
  induction j, hlo using Nat.le_induction with
  | base =>
    have hnone : neededRange backend.buft orig p.1 p.1 = 0 := by simp [neededRange]
    rw [rangeSize_self, hnone]
    exact ⟨rfl, Nat.zero_le _⟩
  | succ j hlo ih =>
    obtain ⟨hsame, hle⟩ := ih (by omega)
    obtain ⟨t, q, before, ht, -, hdone⟩ := h.tensor hdvd hserves hlo hhi
    have hbound := wrap64_lt (rangeSize backend.buft orig p.1 p.2)
    have hoffset : wrap64 (rangeSize backend.buft orig p.1 j) = neededRange backend.buft orig p.1 j := by
      rw [hsame, wrap64_of_lt (hle.trans_lt hbound)]
    have hnext : neededAt backend.buft orig j + neededRange backend.buft orig p.1 j ≤
        wrap64 (rangeSize backend.buft orig p.1 p.2) := by
      have hneeded : neededAt backend.buft orig j = needed backend.buft j t := by rw [neededAt, ht, Option.elim_some]
      rw [hneeded]
      simp only [Nat.zero_add, hoffset] at hdone
      cases hdone with
      | placed hdata hsrc hbuffer hspace hinside =>
        simp only at hinside
        have hdiff : backend.buft.alignment ∣
            wrap64 (rangeSize backend.buft orig p.1 p.2) - neededRange backend.buft orig p.1 j :=
          Nat.dvd_sub (wrap64_rangeSize_dvd hdvd) (hsame ▸ Finset.dvd_sum (fun _ _ => sizeAt_dvd))
        have hpad := exactPad_le hal hdiff (Nat.le_sub_of_add_le (by rw [Nat.add_comm]; exact hinside))
        rw [needed, if_pos ⟨hdata, hsrc⟩]
        omega
      | view hsrc hbuffer hsource hdata =>
        rw [needed, if_neg (fun hboth => absurd (hsrc.symm.trans hboth.2) (by simp)), Nat.zero_add]
        exact hle
      | kept hdata hbuffer =>
        rw [needed, if_neg (fun hboth => hdata hboth.2 hboth.1), Nat.zero_add]
        exact hle
    have hsize := @sizeAt_eq_neededAt backend.buft orig j hal hdvd (by omega)
    rw [rangeSize_succ hlo, neededRange_succ hlo, hsame, hsize]
    exact ⟨rfl, by omega⟩

theorem RangePlaced.exact {k : ℕ} {p : ℕ × ℕ} (h : RangePlaced backend orig u k p) :
    wrap64 (rangeSize backend.buft orig p.1 p.2) = rangeSize backend.buft orig p.1 p.2 ∧
      ∀ j, p.1 ≤ j → j < p.2 → sizeAt backend.buft orig j = neededAt backend.buft orig j := by
  refine ⟨?_, fun j hlo hhi => ?_⟩
  · have hall := h.counted hdvd hserves h.nonempty.le le_rfl
    refine le_antisymm (Nat.mod_le _ _) ?_
    rw [hall.1]
    exact hall.1 ▸ hall.2
  · have hbefore := (h.counted hdvd hserves hlo hhi.le).1
    have hafter := (h.counted hdvd hserves (hlo.trans (Nat.le_succ j)) hhi).1
    rw [rangeSize_succ hlo, neededRange_succ hlo] at hafter
    omega

omit hdvd hserves in
theorem sourceReady_fields {s : GgmlTallocr × List CtxTensor} {talloc : GgmlTallocr} {lo : ℕ} (hbase : 0 < talloc.base)
    (ht : orig[j]? = some t) (hsrc : t.viewSrc = none) (hbuffer : t.data ≠ 0 → t.buffer ≠ none)
    (h : PlacedAfter backend orig s.2 talloc lo j) :
    (sourceFields s.2 (.inContext j)).1 ≠ none ∧ (sourceFields s.2 (.inContext j)).2 ≠ 0 := by
  obtain ⟨t', q, before, ht', hq, hdone⟩ := h
  obtain rfl := Option.some.inj (ht.symm.trans ht')
  rw [sourceFields, hq, Option.elim_some, Option.elim_some]
  cases hdone with
  | placed hdata => exact ⟨by simp, (Nat.add_pos_left hbase _).ne'⟩
  | view hview => exact absurd (hview.symm.trans hsrc) (by simp)
  | kept hdata => exact ⟨hbuffer (hdata hsrc), hdata hsrc⟩

/-- A call whose tensors are well formed ends when nothing is refused and no space is missing. -/
theorem call_ok (hctx : WellFormed ctx) (hrefuses : ∀ k, backend.refuses k = false)
    (hinit : ∀ i, backend.initTensor i = true) (hsafe : CallSafe backend ctx) :
    ∃ u, ggmlBackendAllocCtxTensorsFromBuft backend ctx = .ok u := by
  cases hcall : ggmlBackendAllocCtxTensorsFromBuft backend ctx with
  | ok u => exact ⟨u, rfl⟩
  | error e =>
    exfalso
    obtain ⟨n, v, hn, hat, hpos, -, hclose⟩ := call_error hctx.noAlloc hcall
    obtain ⟨ranges, hfacts⟩ := hat.facts
    rcases closeRange_error hdvd hserves hat hpos hclose with ⟨-, hrefused⟩ | ⟨i, s, hi, hrange, hstep⟩
    · rw [hrefuses] at hrefused
      cases hrefused
    · have hsame : s.2[v.first + i]? = ctx.tensors[v.first + i]? := by
        rw [hrange.frame _ (.inr le_rfl), hfacts.frame _ (by omega)]
      rcases rangeStep_error hstep with ⟨hnone, -⟩ | ⟨t, ht, hstopped⟩ | ⟨t, p, -, hdone, hstatus, -⟩
      · rw [hsame, List.getElem?_eq_none_iff] at hnone
        omega
      · rw [hsame] at ht
        cases hstopped with
        | notEnoughSpace => exact hsafe.enoughSpace hcall
        | outsideBuffer => exact hsafe.insideBuffer hcall
        | buffered hdata hsrc hbuffer => exact hbuffer (hctx.unplaced t (List.mem_of_getElem? ht) hdata hsrc)
        | @source src hsrc hbuffer hmissing =>
          have hready := hctx.sources _ t src ht hbuffer hsrc
          have hfields : (sourceFields s.2 src).1 ≠ none ∧ (sourceFields s.2 src).2 ≠ 0 := by
            cases src with
            | outside buffer data => exact hready
            | inContext j =>
              obtain ⟨hj, w, hw, hwsrc, hwbuffer⟩ := hready
              by_cases hlt : j < v.first
              · obtain ⟨k, p, hk, hlo, hhi⟩ := hfacts.covered j hlt
                obtain ⟨t', q, before, ht', hq, hdone⟩ := (hfacts.closed k p hk).tensor hdvd hserves hlo hhi
                refine sourceReady_fields (hserves.base _ _).1 hw hwsrc hwbuffer ⟨t', q, before, ht', ?_, hdone⟩
                rw [hrange.frame j (.inl hlt), hq]
              · exact sourceReady_fields (hserves.base _ _).1 hw hwsrc hwbuffer (hrange.placed j (not_lt.1 hlt) hj)
          exact hmissing.elim hfields.1 hfields.2
      · cases hdone with
        | placed => exact absurd hstatus (by simp [hinit])
        | view => exact absurd hstatus (by simp [hinit])
        | kept => cases hstatus

/-- A tensor that a call does not give bytes to and that has no buffer keeps its fields when it is not a view, and wherever
it comes after the closed ranges. -/
theorem CallFacts.kept (hfacts : CallFacts backend orig ranges n u) (ht : orig[j]? = some t)
    (h : u.first ≤ j ∨ t.data ≠ 0 ∧ t.viewSrc = none) : t ∈ u.tensors := by
  by_cases hlt : j < u.first
  · obtain ⟨hdata, hsrc⟩ := h.resolve_left (not_le.2 hlt)
    obtain ⟨k, p, hk, hlo, hhi⟩ := hfacts.covered j hlt
    obtain ⟨t', q, before, ht', hq, hdone⟩ := (hfacts.closed k p hk).tensor hdvd hserves hlo hhi
    obtain rfl := Option.some.inj (ht.symm.trans ht')
    cases hdone with
    | placed hnone => exact absurd hnone hdata
    | view hview => exact absurd (hview.symm.trans hsrc) (by simp)
    | kept => exact List.mem_of_getElem? hq
  · exact List.mem_of_getElem? ((hfacts.frame j (not_lt.1 hlt)).trans ht)

theorem bytes_of_safe (hctx : WellFormed ctx) (hsafe : CallSafe backend ctx)
    (hcall : ggmlBackendAllocCtxTensorsFromBuft backend ctx = .ok u) (hsome : u.buffers ≠ [])
    (hfacts : CallFacts backend ctx.tensors ranges ctx.tensors.length u) :
    neededRange backend.buft ctx.tensors 0 ctx.tensors.length < 2 ^ 64 := by
  have hplacement := hsafe.placement u hcall hsome
  have hexact : ranges.map (fun p => wrap64 (rangeSize backend.buft ctx.tensors p.1 p.2)) =
      ranges.map (fun p => rangeSize backend.buft ctx.tensors p.1 p.2) := by
    refine List.map_congr_left (fun p hp => ?_)
    obtain ⟨k, hk⟩ := List.mem_iff_getElem?.1 hp
    exact ((hfacts.closed k p hk).exact hdvd hserves).1
  have htotal : rangeSize backend.buft ctx.tensors 0 u.first < 2 ^ 64 := by
    have hsize := hsafe.size u hcall
    obtain ⟨-, -, hbytes, -⟩ := call_facts hcall
    rw [measure_eq hctx.noAlloc, ← hbytes, hfacts.total, hfacts.sizes hserves, hexact, hfacts.sum] at hsize
    rw [← Except.ok.inj hsize]
    exact wrap64_lt _
  have hclosed : neededRange backend.buft ctx.tensors 0 u.first = rangeSize backend.buft ctx.tensors 0 u.first := by
    refine Finset.sum_congr rfl (fun j hj => ?_)
    obtain ⟨k, p, hk, hlo, hhi⟩ := hfacts.covered j (Finset.mem_Ico.1 hj).2
    exact (((hfacts.closed k p hk).exact hdvd hserves).2 j hlo hhi).symm
  have hrest : neededRange backend.buft ctx.tensors u.first ctx.tensors.length = 0 := by
    refine Finset.sum_eq_zero (fun j hj => ?_)
    obtain ⟨hlo, hhi⟩ := Finset.mem_Ico.1 hj
    have ht : ctx.tensors[j]? = some ctx.tensors[j] := List.getElem?_eq_getElem hhi
    rw [neededAt, ht, Option.elim_some, needed]
    refine if_neg (fun hneeds => ?_)
    have hnone := hctx.unplaced _ (List.getElem_mem hhi) hneeds.1 hneeds.2
    exact hplacement.buffers _ (hfacts.kept hdvd hserves ht (.inl hlo)) hnone
  have hsum : neededRange backend.buft ctx.tensors 0 u.first + neededRange backend.buft ctx.tensors u.first ctx.tensors.length =
      neededRange backend.buft ctx.tensors 0 ctx.tensors.length := Finset.sum_Ico_consecutive _ (Nat.zero_le _) hfacts.first_le
  omega

theorem allocatable_of_safe (hctx : WellFormed ctx) (hsafe : CallSafe backend ctx)
    (hcall : ggmlBackendAllocCtxTensorsFromBuft backend ctx = .ok u) :
    NothingRequested backend.buft ctx.tensors ∨ Allocatable backend.buft ctx.tensors := by
  have hal := Nat.pos_of_dvd_of_pos hdvd (Nat.two_pow_pos 64)
  obtain ⟨ranges, hfacts, -, hend⟩ := call_facts hcall
  by_cases hnone : u.buffers = []
  · have hfirst := hfacts.buffers_nil.1 hnone
    rcases hend with ⟨hlast, hpos⟩ | ⟨hstart, hcur⟩
    · rw [← hlast, hfirst] at hpos
      exact absurd hpos (lt_irrefl 0)
    · have hopen := hstart.symm.trans hfirst
      rw [(cut_cur _).2, hopen] at hcur
      exact .inl ⟨hcur, cut_first_eq_zero.1 hopen⟩
  · have hplacement := hsafe.placement u hcall hnone
    have hT := bytes_of_safe hdvd hserves hctx hsafe hcall hnone hfacts
    refine .inr ⟨hT, fun t ht hdata hsrc => ?_, fun i hmax hzero j t hij ht => ?_⟩
    · obtain ⟨j, hj⟩ := List.mem_iff_getElem?.1 ht
      exact hplacement.buffers t (hfacts.kept hdvd hserves hj (.inr ⟨hdata, hsrc⟩))
    · have hlt := (List.getElem?_eq_some_iff.1 ht).1
      have hlength : i + 2 + (ctx.tensors.length - (i + 2)) = ctx.tensors.length := by omega
      have hafter := cut_after hal hdvd hT hmax hzero hlength.le
      rw [hlength] at hafter
      rcases hend with ⟨-, hpos⟩ | ⟨hstart, -⟩
      · omega
      · exact hplacement.buffers t (hfacts.kept hdvd hserves ht (.inl (by omega)))

end Necessary

/-- A call is safe for every backend exactly when it asks for nothing, or the bytes of the tensors can be counted and
nothing that needs a buffer comes after a last tensor that is larger than the largest one. -/
theorem call_safe_iff (halign : ∃ e < 64, buft.alignment = 2 ^ e) (hctx : WellFormed ctx) :
    (∀ backend, backend.buft = buft → ServesAligned backend → CallSafe backend ctx) ↔
      NothingRequested buft ctx.tensors ∨ Allocatable buft ctx.tensors := by
  obtain ⟨e, he, halign⟩ := halign
  have hdvd : buft.alignment ∣ 2 ^ 64 := by
    rw [halign]
    exact Nat.pow_dvd_pow 2 he.le
  constructor
  · intro hall
    have haligned := alwaysServes_aligned (Nat.pos_of_dvd_of_pos hdvd (Nat.two_pow_pos 64))
    have hsafe := hall (alwaysServes buft) rfl haligned
    have hdvd' : (alwaysServes buft).buft.alignment ∣ 2 ^ 64 := hdvd
    obtain ⟨u, hcall⟩ := @call_ok (alwaysServes buft) ctx hdvd' haligned hctx (fun _ => rfl) (fun _ => rfl) hsafe
    exact @allocatable_of_safe (alwaysServes buft) ctx u hdvd' haligned hctx hsafe hcall
  · rintro hfits backend rfl hserves
    rcases hfits with hnothing | hfits
    · exact safe_of_nothing hctx.noAlloc hnothing
    · exact ⟨call_ne_abort hdvd hserves hfits.bytes hctx.noAlloc rfl (by decide),
        call_ne_abort hdvd hserves hfits.bytes hctx.noAlloc rfl (by decide),
        fun u hcall hsome => placement_of_allocatable hdvd hserves hfits.bytes hctx rfl hfits hcall hsome,
        fun u hcall => size_of_counted hdvd hserves hfits.bytes hctx.noAlloc rfl hcall⟩

/-- A row of `n` floats, and a view of its start. -/
def tensorAndView (n : ℕ) : GgmlContext :=
  ⟨true, [⟨.f32, ⟨n, 1, 1, 1⟩, ⟨4, 4 * n, 4 * n, 4 * n⟩, 0, none, none, 0⟩,
    ⟨.f32, ⟨8, 1, 1, 1⟩, ⟨4, 32, 32, 32⟩, 0, none, some (.inContext 0), 0⟩]⟩

def smallBuft : BufferType := ⟨32, some 64, none⟩

theorem tensorAndView_wellFormed (n : ℕ) : WellFormed (tensorAndView n) := by
  refine ⟨rfl, fun t ht _ _ => ?_, fun i t src ht _ hsrc => ?_⟩
  · rcases List.mem_pair.1 ht with rfl | rfl <;> rfl
  · match i with
    | 0 =>
      obtain rfl := Option.some.inj ht
      cases hsrc
    | 1 =>
      obtain rfl := Option.some.inj ht
      obtain rfl := Option.some.inj hsrc
      exact ⟨Nat.one_pos, _, rfl, rfl, fun hdata => absurd rfl hdata⟩
    | i + 2 => cases ht

theorem call_safe_small : CallSafe (alwaysServes smallBuft) (tensorAndView 16) := by
  refine (call_safe_iff ⟨5, by decide, rfl⟩ (tensorAndView_wellFormed 16)).2 (.inr ⟨by decide, by decide, ?_⟩) _ rfl
    (alwaysServes_aligned (by decide))
  intro i hmax
  have hsmall : sizeAt smallBuft (tensorAndView 16).tensors i ≤ 64 := by
    match i with
    | 0 => decide
    | 1 => decide
    | i + 2 => exact Nat.zero_le _
  exact absurd hmax (not_lt.2 hsmall)

/-- The row is larger than the largest buffer: it is placed in one of its own, and the view after it is left out. -/
theorem not_call_safe : ∃ u, WellFormed (tensorAndView 32) ∧ ServesAligned (alwaysServes smallBuft) ∧
    ggmlBackendAllocCtxTensorsFromBuft (alwaysServes smallBuft) (tensorAndView 32) = .ok u ∧ u.buffers ≠ [] ∧
    ∃ t ∈ u.tensors, t.buffer = none :=
  ⟨_, tensorAndView_wellFormed 32, alwaysServes_aligned (by decide), rfl, List.cons_ne_nil _ _, _,
    List.mem_cons_of_mem _ List.mem_cons_self, rfl⟩

end PyannoteCpp.ContextAlloc
