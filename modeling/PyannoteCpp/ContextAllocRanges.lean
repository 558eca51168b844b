import PyannoteCpp.ContextAlloc

set_option autoImplicit false

/-!
# The ranges of a call

The loop over the tensors closes a range when the next tensor does not fit. The
tensors of a closed range were placed one after the other in the buffer that was
requested for it, from the offset the sizes before them add up to.
-/
namespace PyannoteCpp.ContextAlloc
open CheckedLoops

variable {backend : Backend} {buft : BufferType} {talloc : GgmlTallocr} {orig tensors tensors' : List CtxTensor}
  {buffers : List BackendBuffer} {i first last size : ℕ} {t : CtxTensor}

def sizeAt (buft : BufferType) (tensors : List CtxTensor) (j : ℕ) : ℕ := tensors[j]?.elim 0 (thisSize buft j)

def rangeSize (buft : BufferType) (tensors : List CtxTensor) (lo hi : ℕ) : ℕ := ∑ j ∈ Finset.Ico lo hi, sizeAt buft tensors j

def PlacedAfter (backend : Backend) (orig tensors : List CtxTensor) (talloc : GgmlTallocr) (lo j : ℕ) : Prop :=
  ∃ t p before, orig[j]? = some t ∧ tensors[j]? = some p.2.1 ∧ TensorDone backend
    { talloc with offset := wrap64 (talloc.offset + rangeSize backend.buft orig lo j) } before j t p

section Sizes

theorem rangeSize_self (lo : ℕ) : rangeSize buft tensors lo lo = 0 := by simp [rangeSize]

theorem rangeSize_succ {lo hi : ℕ} (h : lo ≤ hi) :
    rangeSize buft tensors lo (hi + 1) = rangeSize buft tensors lo hi + sizeAt buft tensors hi :=
  Finset.sum_Ico_succ_top h _

theorem rangeSize_append {lo mid hi : ℕ} (h : lo ≤ mid) (h' : mid ≤ hi) :
    rangeSize buft tensors lo mid + rangeSize buft tensors mid hi = rangeSize buft tensors lo hi :=
  Finset.sum_Ico_consecutive _ h h'

theorem sizeAt_of (ht : tensors[i]? = some t) : sizeAt buft tensors i = thisSize buft i t := by
  rw [sizeAt, ht, Option.elim_some]

theorem wrap64_add (m n : ℕ) : wrap64 (wrap64 m + n) = wrap64 (m + n) := Nat.mod_add_mod _ _ _

end Sizes

/-- First tensor and size of the range that is open before a tensor, and the bytes of the closed ones. -/
structure Cut where
  first : ℕ
  cur : ℕ
  total : ℕ

def cut (buft : BufferType) (tensors : List CtxTensor) : ℕ → Cut
  | 0 => ⟨0, 0, 0⟩
  | i + 1 =>
    let c := cut buft tensors i
    if 0 < c.cur ∧ ggmlBackendBuftGetMaxSize buft < wrap64 (c.cur + sizeAt buft tensors i) then
      ⟨i, sizeAt buft tensors i, wrap64 (c.total + c.cur)⟩
    else ⟨c.first, wrap64 (c.cur + sizeAt buft tensors i), c.total⟩

def callTotal (buft : BufferType) (tensors : List CtxTensor) : ℕ :=
  let c := cut buft tensors tensors.length
  if 0 < c.cur then wrap64 (c.total + c.cur) else c.total

section Cuts

theorem thisSize_lt (buft : BufferType) (i : ℕ) (t : CtxTensor) : thisSize buft i t < 2 ^ 64 := by
  unfold thisSize ggmlPad
  split_ifs
  · exact (Nat.div_mul_le_self _ _).trans_lt (wrap64_lt _)
  · exact Nat.two_pow_pos 64

theorem sizeAt_lt (buft : BufferType) (tensors : List CtxTensor) (i : ℕ) : sizeAt buft tensors i < 2 ^ 64 := by
  unfold sizeAt
  cases tensors[i]? with
  | none => exact Nat.two_pow_pos 64
  | some t => exact thisSize_lt buft i t

theorem cut_cur (i : ℕ) : (cut buft tensors i).first ≤ i ∧
    (cut buft tensors i).cur = wrap64 (rangeSize buft tensors (cut buft tensors i).first i) := by
  induction i with
  | zero =>
    refine ⟨le_rfl, ?_⟩
    change 0 = wrap64 (rangeSize buft tensors 0 0)
    rw [rangeSize_self]
    rfl
  | succ i ih =>
    obtain ⟨hle, hcur⟩ := ih
    unfold cut
    simp only
    split_ifs with hsplit
    · refine ⟨Nat.le_succ i, ?_⟩
      rw [rangeSize_succ le_rfl, rangeSize_self, Nat.zero_add, wrap64_of_lt (sizeAt_lt _ _ _)]
    · refine ⟨hle.trans (Nat.le_succ i), ?_⟩
      rw [hcur, wrap64_add, rangeSize_succ hle]

end Cuts

section OneRange

structure RangeFacts (backend : Backend) (orig tensors : List CtxTensor) (talloc : GgmlTallocr) (first i : ℕ)
    (s : GgmlTallocr × List CtxTensor) : Prop where
  cursor : s.1 = { talloc with offset := wrap64 (talloc.offset + rangeSize backend.buft orig first (first + i)) }
  frame : ∀ j, j < first ∨ first + i ≤ j → s.2[j]? = tensors[j]?
  placed : ∀ j, first ≤ j → j < first + i → PlacedAfter backend orig s.2 talloc first j

theorem TensorDone.offset {p : GgmlTallocr × CtxTensor × Bool} (h : TensorDone backend talloc tensors i t p)
    (hoffset : talloc.offset < 2 ^ 64) :
    p.1 = { talloc with offset := wrap64 (talloc.offset + thisSize backend.buft i t) } := by
  cases h with
  | placed hdata hsrc hbuffer hspace hinside => rw [thisSize, if_pos ⟨hdata, hsrc⟩]
  | view hsrc hbuffer hsource hdata =>
    rw [thisSize, if_neg (fun hboth => absurd (hsrc.symm.trans hboth.2) (by simp)), Nat.add_zero, wrap64_of_lt hoffset]
  | kept hdata hbuffer =>
    rw [thisSize, if_neg (fun hboth => hdata hboth.2 hboth.1), Nat.add_zero, wrap64_of_lt hoffset]

theorem rangeFacts_step {s s' : GgmlTallocr × List CtxTensor} (horig : ∀ j, first ≤ j → tensors[j]? = orig[j]?)
    (h : RangeFacts backend orig tensors talloc first i s) (hstep : rangeStep backend s (first + i) = .ok s') :
    RangeFacts backend orig tensors talloc first (i + 1) s' := by
  obtain ⟨t, p, ht, hdone, rfl⟩ := rangeStep_ok hstep
  have ht' : orig[first + i]? = some t := by
    rw [← horig _ (by omega), ← h.frame _ (.inr le_rfl), ht]
  have hlt := (List.getElem?_eq_some_iff.1 ht).1
  have htalloc := h.cursor
  refine ⟨?_, fun j hj => ?_, fun j hlo hhi => ?_⟩
  · have hoffset : s.1.offset < 2 ^ 64 := by
      rw [htalloc]
      exact wrap64_lt _
    have hsum := @rangeSize_succ backend.buft orig first (first + i) (by omega)
    rw [sizeAt_of ht'] at hsum
    rw [hdone.offset hoffset, htalloc, ← Nat.add_assoc first i 1, hsum]
    simp only [wrap64_add, Nat.add_assoc]
  · rw [List.getElem?_set_ne (by omega)]
    exact h.frame j (by omega)
  · by_cases hj : j = first + i
    · subst hj
      exact ⟨t, p, s.2, ht', List.getElem?_set_self hlt, htalloc ▸ hdone⟩
    · obtain ⟨u, q, before, hu, hq, hdone'⟩ := h.placed j hlo (by omega)
      exact ⟨u, q, before, hu, (List.getElem?_set_ne (by omega)).trans hq, hdone'⟩

theorem rangeLoop_facts {n : ℕ} {s : GgmlTallocr × List CtxTensor} (horig : ∀ j, first ≤ j → tensors[j]? = orig[j]?)
    (hoffset : talloc.offset < 2 ^ 64) (hi : i ≤ n)
    (h : ((List.range' first n).take i).foldlM (rangeStep backend) (talloc, tensors) = .ok s) :
    RangeFacts backend orig tensors talloc first i s := by
  refine foldlM_take (J := RangeFacts backend orig tensors talloc first) ?_ (fun j x u u' hx hu hstep => ?_)
    (by rwa [List.length_range']) h
  · refine ⟨?_, fun j _ => rfl, fun j hlo hhi => absurd hhi (by omega)⟩
    rw [Nat.add_zero, rangeSize_self, Nat.add_zero, wrap64_of_lt hoffset]
  · obtain ⟨hlt, hget⟩ := List.getElem?_eq_some_iff.1 hx
    rw [List.getElem_range', Nat.one_mul] at hget
    exact rangeFacts_step horig hu (hget ▸ hstep)

theorem allocTensorRange_ok {p : List CtxTensor × List BackendBuffer} (hsize : 0 < size)
    (horig : ∀ j, first ≤ j → tensors[j]? = orig[j]?)
    (h : allocTensorRange backend first last size tensors buffers = .ok p) :
    backend.refuses buffers.length = false ∧ p.2 = buffers ++ [backend.buffer buffers.length size] ∧
      ∃ talloc s, ggmlTallocrNew backend.buft buffers.length (backend.buffer buffers.length size) = .ok talloc ∧
        (List.range' first (last - first)).foldlM (rangeStep backend) (talloc, tensors) = .ok s ∧ p.1 = s.2 ∧
        RangeFacts backend orig tensors talloc first (last - first) s := by
  unfold allocTensorRange ggmlBackendBuftAllocBuffer at h
  rw [if_neg hsize.ne'] at h
  cases hrefuses : backend.refuses buffers.length with
  | true => simp only [hrefuses, if_true] at h; cases h
  | false =>
    simp only [hrefuses, Bool.false_eq_true, if_false] at h
    cases hnew : ggmlTallocrNew backend.buft buffers.length (backend.buffer buffers.length size) with
    | error e => simp only [hnew] at h; cases h
    | ok talloc =>
      simp only [hnew] at h
      cases hloop : (List.range' first (last - first)).foldlM (rangeStep backend) (talloc, tensors) with
      | error e => simp only [hloop] at h; cases h
      | ok s =>
        simp only [hloop] at h
        obtain rfl := Except.ok.inj h
        have hoffset : talloc.offset < 2 ^ 64 := by
          unfold ggmlTallocrNew at hnew
          split_ifs at hnew
          all_goals
            obtain rfl := Except.ok.inj hnew
            exact wrap64_lt _
        have hall : ((List.range' first (last - first)).take (last - first)).foldlM (rangeStep backend) (talloc, tensors) =
            .ok s := by
          rwa [List.take_of_length_le (by rw [List.length_range'])]
        exact ⟨rfl, rfl, talloc, s, rfl, hloop, rfl, rangeLoop_facts horig hoffset le_rfl hall⟩

end OneRange

section Calls

variable {u u' : CallState} {ranges : List (ℕ × ℕ)}

structure RangePlaced (backend : Backend) (orig : List CtxTensor) (u : CallState) (k : ℕ) (p : ℕ × ℕ) : Prop where
  start : p.1 = (cut backend.buft orig p.2).first
  stop_le : p.2 ≤ u.first
  size_pos : 0 < wrap64 (rangeSize backend.buft orig p.1 p.2)
  served : backend.refuses k = false
  buffer : u.buffers[k]? = some (backend.buffer k (wrap64 (rangeSize backend.buft orig p.1 p.2)))
  placed : ∃ talloc, ggmlTallocrNew backend.buft k (backend.buffer k (wrap64 (rangeSize backend.buft orig p.1 p.2))) =
    .ok talloc ∧ ∀ j, p.1 ≤ j → j < p.2 → PlacedAfter backend orig u.tensors talloc p.1 j

/-- `ranges` are the ranges that were closed. -/
structure CallFacts (backend : Backend) (orig : List CtxTensor) (ranges : List (ℕ × ℕ)) (i : ℕ) (u : CallState) :
    Prop where
  first_le : u.first ≤ i
  frame : ∀ j, u.first ≤ j → u.tensors[j]? = orig[j]?
  lengths : ranges.length = u.buffers.length
  closed : ∀ k p, ranges[k]? = some p → RangePlaced backend orig u k p
  covered : ∀ j < u.first, ∃ (k : ℕ) (p : ℕ × ℕ), ranges[k]? = some p ∧ p.1 ≤ j ∧ j < p.2
  total : u.nbytesTotal = wrap64 ((ranges.map (fun p => wrap64 (rangeSize backend.buft orig p.1 p.2))).sum)
  sum : (ranges.map (fun p => rangeSize backend.buft orig p.1 p.2)).sum = rangeSize backend.buft orig 0 u.first

theorem callFacts_close (h : CallFacts backend orig ranges i u) (hstart : u.first = (cut backend.buft orig i).first)
    (hcur : u.curBufSize = (cut backend.buft orig i).cur) (hpos : 0 < u.curBufSize)
    (hclose : closeRange backend false u i = .ok u') :
    CallFacts backend orig (ranges ++ [(u.first, i)]) i u' ∧ u'.first = i ∧
      u'.nbytesTotal = wrap64 (u.nbytesTotal + u.curBufSize) := by
  rw [(cut_cur i).2, ← hstart] at hcur
  unfold closeRange at hclose
  simp only [Bool.false_eq_true, if_false] at hclose
  cases halloc : allocTensorRange backend u.first i u.curBufSize u.tensors u.buffers with
  | error e => simp only [halloc] at hclose; cases hclose
  | ok q =>
    simp only [halloc] at hclose
    obtain rfl := Except.ok.inj hclose
    obtain ⟨hserved, hbuffers, talloc, s, hnew, -, htensors, hrange⟩ := allocTensorRange_ok hpos h.frame halloc
    have hle := h.first_le
    have hend : u.first + (i - u.first) = i := by omega
    rw [hcur] at hbuffers hnew hpos
    refine ⟨⟨le_rfl, fun j hj => ?_, ?_, fun k p hk => ?_, fun j hj => ?_, ?_, ?_⟩, rfl, rfl⟩
    · have hj' : i ≤ j := hj
      change q.1[j]? = _
      rw [htensors, hrange.frame j (by omega), h.frame j (hle.trans hj')]
    · change _ = q.2.length
      rw [hbuffers, List.length_append, List.length_append, h.lengths]
      rfl
    · rw [List.getElem?_append] at hk
      split_ifs at hk with hlt
      · obtain ⟨hstart', hstop, hsize, hserved', hbuffer, talloc', hnew', hplaced⟩ := h.closed k p hk
        refine ⟨hstart', hstop.trans hle, hsize, hserved', ?_, talloc', hnew', fun j hlo hhi => ?_⟩
        · change q.2[k]? = _
          rw [hbuffers, List.getElem?_append_left (h.lengths ▸ hlt), hbuffer]
        · obtain ⟨t, r, before, ht, hr, hdone⟩ := hplaced j hlo hhi
          refine ⟨t, r, before, ht, ?_, hdone⟩
          change q.1[j]? = _
          rw [htensors, hrange.frame j (.inl (hhi.trans_le hstop)), hr]
      · -- the new range
        have hzero : k = ranges.length := by
          have hin := (List.getElem?_eq_some_iff.1 hk).1
          simp only [List.length_singleton] at hin
          omega
        subst hzero
        rw [Nat.sub_self] at hk
        obtain rfl := Option.some.inj hk
        rw [h.lengths]
        refine ⟨hstart, le_rfl, hpos, hserved, ?_, talloc, hnew, fun j hlo hhi => ?_⟩
        · change q.2[u.buffers.length]? = _
          rw [hbuffers, List.getElem?_append_right le_rfl, Nat.sub_self]
          rfl
        · change PlacedAfter backend orig q.1 talloc u.first j
          rw [htensors]
          exact hrange.placed j hlo (by rw [hend]; exact hhi)
    · by_cases hold : j < u.first
      · obtain ⟨k, p, hk, hlo, hhi⟩ := h.covered j hold
        exact ⟨k, p, (List.getElem?_append_left (List.getElem?_eq_some_iff.1 hk).1).trans hk, hlo, hhi⟩
      · refine ⟨ranges.length, (u.first, i), ?_, not_lt.1 hold, hj⟩
        rw [List.getElem?_append_right le_rfl, Nat.sub_self]
        rfl
    · change wrap64 (u.nbytesTotal + u.curBufSize) = _
      rw [h.total, hcur, wrap64_add, List.map_append, List.sum_append, List.map_singleton, List.sum_singleton]
    · rw [List.map_append, List.sum_append, h.sum, List.map_singleton, List.sum_singleton]
      exact rangeSize_append (Nat.zero_le _) hle

theorem callFacts_start (orig : List CtxTensor) : CallFacts backend orig [] 0 ⟨orig, [], 0, 0, 0⟩ := by
  refine ⟨le_rfl, fun _ _ => rfl, rfl, fun k p hk => absurd hk (by simp), fun j hj => absurd hj (Nat.not_lt_zero j), rfl, ?_⟩
  exact (rangeSize_self 0).symm

structure CallAt (backend : Backend) (orig : List CtxTensor) (i : ℕ) (u : CallState) : Prop where
  facts : ∃ ranges, CallFacts backend orig ranges i u
  first : u.first = (cut backend.buft orig i).first
  cur : u.curBufSize = (cut backend.buft orig i).cur
  total : u.nbytesTotal = (cut backend.buft orig i).total

theorem CallFacts.withCur {n : ℕ} (h : CallFacts backend orig ranges i u) (hle : i ≤ last) :
    CallFacts backend orig ranges last { u with curBufSize := n } := by
  obtain ⟨hfirst, hframe, hlengths, hclosed, hcovered, htotal, hsum⟩ := h
  refine ⟨hfirst.trans hle, hframe, hlengths, fun k p hk => ?_, hcovered, htotal, hsum⟩
  obtain ⟨hstart, hstop, hsize, hserved, hbuffer, hplaced⟩ := hclosed k p hk
  exact ⟨hstart, hstop, hsize, hserved, hbuffer, hplaced⟩

theorem callAt_step (h : CallAt backend orig i u) (hstep : tensorStep backend false u i = .ok u') :
    CallAt backend orig (i + 1) u' := by
  obtain ⟨⟨ranges, hfacts⟩, hfirst, hcur, htotal⟩ := h
  unfold tensorStep at hstep
  cases ht : u.tensors[i]? with
  | none => simp only [ht] at hstep; cases hstep
  | some t =>
    have hsize : sizeAt backend.buft orig i = thisSize backend.buft i t :=
      sizeAt_of ((hfacts.frame i hfacts.first_le).symm.trans ht)
    simp only [ht, ← hsize] at hstep
    split_ifs at hstep with hsplit
    · cases hclose : closeRange backend false u i with
      | error e => simp only [hclose] at hstep; cases hstep
      | ok v =>
        simp only [hclose] at hstep
        obtain rfl := Except.ok.inj hstep
        obtain ⟨hclosed, hstart, hbytes⟩ := callFacts_close hfacts hfirst hcur hsplit.1 hclose
        rw [hcur] at hsplit
        refine ⟨⟨_, hclosed.withCur (Nat.le_succ i)⟩, ?_, ?_, ?_⟩
        · rw [cut, if_pos hsplit]
          exact hstart
        · rw [cut, if_pos hsplit]
        · rw [cut, if_pos hsplit, ← htotal, ← hcur]
          exact hbytes
    · obtain rfl := Except.ok.inj hstep
      rw [hcur] at hsplit
      refine ⟨⟨ranges, hfacts.withCur (Nat.le_succ i)⟩, ?_, ?_, ?_⟩
      · rw [cut, if_neg hsplit]
        exact hfirst
      · rw [cut, if_neg hsplit, ← hcur]
      · rw [cut, if_neg hsplit]
        exact htotal

theorem callAt_loop {n : ℕ} (hi : i ≤ n)
    (h : ((List.range n).take i).foldlM (tensorStep backend false) ⟨orig, [], 0, 0, 0⟩ = .ok u) : CallAt backend orig i u := by
  refine foldlM_take (J := CallAt backend orig) ⟨⟨[], callFacts_start orig⟩, rfl, rfl, rfl⟩ (fun j x v v' hx hv hstep => ?_)
    (hi.trans_eq List.length_range.symm) h
  obtain ⟨hlt, hget⟩ := List.getElem?_eq_some_iff.1 hx
  rw [List.getElem_range] at hget
  subst hget
  exact callAt_step hv hstep

/-- The last range is closed unless it has no bytes. -/
theorem call_facts {ctx : GgmlContext} (h : ggmlBackendAllocCtxTensorsFromBuft backend ctx = .ok u) :
    ∃ ranges, CallFacts backend ctx.tensors ranges ctx.tensors.length u ∧
      u.nbytesTotal = callTotal backend.buft ctx.tensors ∧
      (u.first = ctx.tensors.length ∧ 0 < (cut backend.buft ctx.tensors ctx.tensors.length).cur ∨
        u.first = (cut backend.buft ctx.tensors ctx.tensors.length).first ∧
          (cut backend.buft ctx.tensors ctx.tensors.length).cur = 0) := by
  unfold ggmlBackendAllocCtxTensorsFromBuft ggmlBackendAllocCtxTensorsFromBuftImpl at h
  split_ifs at h
  cases hloop : (List.range ctx.tensors.length).foldlM (tensorStep backend false) ⟨ctx.tensors, [], 0, 0, 0⟩ with
  | error e => simp only [hloop] at h; cases h
  | ok v =>
    simp only [hloop] at h
    have hall : ((List.range ctx.tensors.length).take ctx.tensors.length).foldlM (tensorStep backend false)
        ⟨ctx.tensors, [], 0, 0, 0⟩ = .ok v := by
      rwa [List.take_of_length_le (by rw [List.length_range])]
    obtain ⟨⟨ranges, hfacts⟩, hfirst, hcur, htotal⟩ := callAt_loop le_rfl hall
    split_ifs at h with hpos
    · obtain ⟨hclosed, hstart, hbytes⟩ := callFacts_close hfacts hfirst hcur hpos h
      rw [hcur] at hpos
      refine ⟨_, hclosed, ?_, .inl ⟨hstart, hpos⟩⟩
      rw [callTotal, if_pos hpos, hbytes, htotal, hcur]
    · obtain rfl := Except.ok.inj h
      rw [hcur] at hpos
      refine ⟨ranges, hfacts, ?_, .inr ⟨hfirst, by omega⟩⟩
      rw [callTotal, if_neg hpos, htotal]

theorem call_error {ctx : GgmlContext} {e : Exit} (hctx : ctx.noAlloc = true)
    (h : ggmlBackendAllocCtxTensorsFromBuft backend ctx = .error e) :
    ∃ n v, n ≤ ctx.tensors.length ∧ CallAt backend ctx.tensors n v ∧ 0 < v.curBufSize ∧
      (n = ctx.tensors.length ∨ ggmlBackendBuftGetMaxSize backend.buft <
        wrap64 (v.curBufSize + sizeAt backend.buft ctx.tensors n)) ∧ closeRange backend false v n = .error e := by
  unfold ggmlBackendAllocCtxTensorsFromBuft ggmlBackendAllocCtxTensorsFromBuftImpl at h
  rw [if_pos hctx] at h
  cases hloop : (List.range ctx.tensors.length).foldlM (tensorStep backend false) ⟨ctx.tensors, [], 0, 0, 0⟩ with
  | error e' =>
    simp only [hloop] at h
    obtain rfl := Except.error.inj h
    obtain ⟨n, x, v, hx, hprefix, hstep⟩ := foldlM_error_iff.1 hloop
    obtain ⟨hlt, hget⟩ := List.getElem?_eq_some_iff.1 hx
    rw [List.getElem_range] at hget
    subst hget
    rw [List.length_range] at hlt
    have hat := callAt_loop hlt.le hprefix
    obtain ⟨ranges, hfacts⟩ := hat.facts
    obtain ⟨t, ht⟩ : ∃ t, ctx.tensors[n]? = some t := ⟨_, List.getElem?_eq_getElem hlt⟩
    unfold tensorStep at hstep
    simp only [hfacts.frame n hfacts.first_le, ht, ← @sizeAt_of backend.buft _ _ _ ht] at hstep
    split_ifs at hstep with hsplit
    cases hclose : closeRange backend false v n with
    | ok w => simp only [hclose] at hstep; cases hstep
    | error e =>
      simp only [hclose] at hstep
      exact ⟨n, v, hlt.le, hat, hsplit.1, .inr hsplit.2, hclose.trans hstep⟩
  | ok v =>
    simp only [hloop] at h
    have hall : ((List.range ctx.tensors.length).take ctx.tensors.length).foldlM (tensorStep backend false)
        ⟨ctx.tensors, [], 0, 0, 0⟩ = .ok v := by
      rwa [List.take_of_length_le (by rw [List.length_range])]
    split_ifs at h with hpos
    exact ⟨_, v, le_rfl, callAt_loop le_rfl hall, hpos, .inl rfl, h⟩

theorem measure_loop {n : ℕ} (hn : n ≤ orig.length) :
    (List.range n).foldlM (tensorStep backend true) ⟨orig, [], 0, 0, 0⟩ =
      .ok ⟨orig, [], (cut backend.buft orig n).total, (cut backend.buft orig n).cur, (cut backend.buft orig n).first⟩ := by
  induction n with
  | zero => rfl
  | succ n ih =>
    obtain ⟨t, ht⟩ : ∃ t, orig[n]? = some t := ⟨_, List.getElem?_eq_getElem hn⟩
    have hstep : tensorStep backend true ⟨orig, [], (cut backend.buft orig n).total, (cut backend.buft orig n).cur,
        (cut backend.buft orig n).first⟩ n = .ok ⟨orig, [], (cut backend.buft orig (n + 1)).total,
          (cut backend.buft orig (n + 1)).cur, (cut backend.buft orig (n + 1)).first⟩ := by
      unfold tensorStep
      simp only [ht, cut, sizeAt_of ht]
      split_ifs <;> rfl
    rw [List.range_succ, List.foldlM_append, ih (by omega)]
    change List.foldlM (tensorStep backend true) _ [n] = _
    rw [List.foldlM_cons, hstep]
    rfl

theorem measure_eq {ctx : GgmlContext} (hctx : ctx.noAlloc = true) :
    ggmlBackendAllocCtxTensorsFromBuftSize backend ctx = .ok (callTotal backend.buft ctx.tensors) := by
  unfold ggmlBackendAllocCtxTensorsFromBuftSize ggmlBackendAllocCtxTensorsFromBuftImpl
  rw [if_pos hctx, measure_loop le_rfl]
  unfold callTotal
  simp only
  split_ifs <;> rfl

theorem RangePlaced.nonempty {k : ℕ} {p : ℕ × ℕ} (h : RangePlaced backend orig u k p) : p.1 < p.2 := by
  by_contra hle
  have hsize := h.size_pos
  rw [rangeSize, Finset.Ico_eq_empty (by omega)] at hsize
  exact absurd hsize (lt_irrefl 0)

theorem CallFacts.buffers_nil (h : CallFacts backend orig ranges i u) : u.buffers = [] ↔ u.first = 0 := by
  constructor
  · intro hnone
    by_contra hpos
    obtain ⟨k, p, hk, -⟩ := h.covered 0 (Nat.pos_of_ne_zero hpos)
    have hlt := (List.getElem?_eq_some_iff.1 hk).1
    rw [h.lengths, hnone] at hlt
    exact absurd hlt (Nat.not_lt_zero k)
  · intro hzero
    by_contra hsome
    have hlen : 0 < ranges.length := h.lengths ▸ List.length_pos_iff.2 hsome
    have hclosed := h.closed 0 _ (List.getElem?_eq_getElem hlen)
    have hlt := hclosed.nonempty.trans_le hclosed.stop_le
    omega

end Calls

end PyannoteCpp.ContextAlloc
