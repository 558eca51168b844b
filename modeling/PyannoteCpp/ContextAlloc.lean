import PyannoteCpp.DynTallocr
import PyannoteCpp.CheckedLoops

set_option autoImplicit false

/-!
# Buffers for the tensors of a context

The tensors without data are given consecutive ranges of new buffers and the
views without a buffer that of their source. Sizes are of type `size_t`. The
null pointer is the address `0`, and no other address is out of reach.
-/
namespace PyannoteCpp.ContextAlloc
open Tallocr CheckedLoops PrefixGrammar

/-- A buffer from before the call, or that of a request of the call. -/
inductive BufferRef where
  | existing (id : ℕ)
  | requested (k : ℕ)
  deriving DecidableEq

inductive ViewSource where
  | inContext (i : ℕ)
  | outside (buffer : Option BufferRef) (data : ℕ)
  deriving DecidableEq

structure CtxTensor where
  type : GgmlType
  ne : Dims
  nb : Strides
  data : ℕ
  buffer : Option BufferRef
  viewSrc : Option ViewSource
  viewOffs : ℕ
  deriving DecidableEq

structure GgmlContext where
  noAlloc : Bool
  tensors : List CtxTensor

structure BackendBuffer where
  base : ℕ
  size : ℕ
  deriving DecidableEq

/-- The size of a tensor may depend on fields that are not here: it is asked for by the number of the tensor. -/
structure BufferType where
  alignment : ℕ
  getMaxSize : Option ℕ
  getAllocSize : Option (ℕ → CtxTensor → ℕ)

/-- What requests for buffers and the initialisation of tensors lead to. -/
structure Backend where
  buft : BufferType
  refuses : ℕ → Bool
  buffer : ℕ → ℕ → BackendBuffer
  initTensor : ℕ → Bool

/-- `outsideBuffer` is the assertion that a tensor ends inside its buffer. -/
inductive AllocAbort where
  | notEnoughSpace
  | outsideBuffer
  | assertion
  deriving DecidableEq

/-- A call that failed returns the null pointer after it freed the buffers it had requested. -/
inductive Exit where
  | abort (reason : AllocAbort)
  | failed (tensors : List CtxTensor)
  deriving DecidableEq

def ggmlBackendBuftGetMaxSize (buft : BufferType) : ℕ := buft.getMaxSize.getD sizeMax

def ggmlBackendBuftGetAllocSize (buft : BufferType) (i : ℕ) (t : CtxTensor) : ℕ :=
  match buft.getAllocSize with
  | some size => wrap64 (size i t)
  | none => ggmlNbytes t.type t.ne t.nb

/-- A request for no bytes is not passed on. -/
def ggmlBackendBuftAllocBuffer (backend : Backend) (k size : ℕ) : Option BackendBuffer :=
  if size = 0 then some ⟨0, 0⟩ else if backend.refuses k then none else some (backend.buffer k size)

def alignedOffsetFrom (buffer offset alignment : ℕ) : ℕ :=
  wrap64 (offset + (alignment - wrap64 (buffer + offset) % alignment) % alignment)

/-- The buffer is known by its request; its address and size are asked for once. -/
structure GgmlTallocr where
  buffer : ℕ
  base : ℕ
  size : ℕ
  offset : ℕ

def ggmlTallocrNew (buft : BufferType) (k : ℕ) (buffer : BackendBuffer) : Except Exit GgmlTallocr :=
  if buffer.size = 0 then .ok ⟨k, 0, 0, alignedOffsetFrom 0 0 buft.alignment⟩
  else if buffer.base = 0 then .error (.abort .assertion)
  else .ok ⟨k, buffer.base, buffer.size, alignedOffsetFrom buffer.base 0 buft.alignment⟩

def ggmlBackendTensorAlloc (buft : BufferType) (talloc : GgmlTallocr) (i : ℕ) (t : CtxTensor) (addr : ℕ) :
    Except Exit CtxTensor :=
  if t.buffer ≠ none ∨ t.data ≠ 0 ∨ t.viewSrc ≠ none ∨ addr < talloc.base then .error (.abort .assertion)
  else if talloc.base + talloc.size < addr + ggmlBackendBuftGetAllocSize buft i t then .error (.abort .outsideBuffer)
  else .ok { t with buffer := some (.requested talloc.buffer), data := addr }

def ggmlTallocrAlloc (buft : BufferType) (talloc : GgmlTallocr) (i : ℕ) (t : CtxTensor) :
    Except Exit (GgmlTallocr × CtxTensor) :=
  let size := ggmlPad (ggmlBackendBuftGetAllocSize buft i t) buft.alignment
  if talloc.size < wrap64 (talloc.offset + size) then .error (.abort .notEnoughSpace)
  else
    match ggmlBackendTensorAlloc buft talloc i t (talloc.base + talloc.offset) with
    | .error e => .error e
    | .ok t => .ok ({ talloc with offset := wrap64 (talloc.offset + size) }, t)

def sourceFields (tensors : List CtxTensor) : ViewSource → Option BufferRef × ℕ
  | .inContext i => (tensors[i]?.elim none CtxTensor.buffer, tensors[i]?.elim 0 CtxTensor.data)
  | .outside buffer data => (buffer, data)

def ggmlBackendViewInit (tensors : List CtxTensor) (src : ViewSource) (t : CtxTensor) : Except Exit CtxTensor :=
  if t.buffer ≠ none ∨ (sourceFields tensors src).1 = none ∨ (sourceFields tensors src).2 = 0 then
    .error (.abort .assertion)
  else .ok { t with buffer := (sourceFields tensors src).1, data := (sourceFields tensors src).2 + t.viewOffs }

/-- The tensor of number `i` in the loop of `alloc_tensor_range`, and the status. -/
def allocTensor (backend : Backend) (talloc : GgmlTallocr) (tensors : List CtxTensor) (i : ℕ) (t : CtxTensor) :
    Except Exit (GgmlTallocr × CtxTensor × Bool) :=
  match t.viewSrc with
  | none =>
    if t.data = 0 then
      match ggmlTallocrAlloc backend.buft talloc i t with
      | .error e => .error e
      | .ok (talloc, t) => .ok (talloc, t, backend.initTensor i)
    else .ok (talloc, t, true)
  | some src =>
    if t.buffer = none then
      match ggmlBackendViewInit tensors src t with
      | .error e => .error e
      | .ok t => .ok (talloc, t, backend.initTensor i)
    else .ok (talloc, t, true)

def rangeStep (backend : Backend) (s : GgmlTallocr × List CtxTensor) (i : ℕ) :
    Except Exit (GgmlTallocr × List CtxTensor) :=
  match s.2[i]? with
  | none => .error (.abort .assertion)
  | some t =>
    match allocTensor backend s.1 s.2 i t with
    | .error e => .error e
    | .ok (talloc, t, status) =>
      if status then .ok (talloc, s.2.set i t) else .error (.failed (s.2.set i t))

/-- The tensors from number `first` to the one before number `last`, as the buffers requested so far. -/
def allocTensorRange (backend : Backend) (first last size : ℕ) (tensors : List CtxTensor)
    (buffers : List BackendBuffer) : Except Exit (List CtxTensor × List BackendBuffer) :=
  match ggmlBackendBuftAllocBuffer backend buffers.length size with
  | none => .error (.failed tensors)
  | some buffer =>
    match ggmlTallocrNew backend.buft buffers.length buffer with
    | .error e => .error e
    | .ok talloc =>
      match (List.range' first (last - first)).foldlM (rangeStep backend) (talloc, tensors) with
      | .error e => .error e
      | .ok s => .ok (s.2, buffers ++ [buffer])

structure CallState where
  tensors : List CtxTensor
  buffers : List BackendBuffer
  nbytesTotal : ℕ
  curBufSize : ℕ
  first : ℕ

def thisSize (buft : BufferType) (i : ℕ) (t : CtxTensor) : ℕ :=
  if t.data = 0 ∧ t.viewSrc = none then ggmlPad (ggmlBackendBuftGetAllocSize buft i t) buft.alignment else 0

/-- The range of the current buffer ends before the tensor of number `last`. -/
def closeRange (backend : Backend) (noAlloc : Bool) (s : CallState) (last : ℕ) : Except Exit CallState :=
  let s' := { s with nbytesTotal := wrap64 (s.nbytesTotal + s.curBufSize), first := last }
  if noAlloc then .ok s'
  else
    match allocTensorRange backend s.first last s.curBufSize s.tensors s.buffers with
    | .error e => .error e
    | .ok (tensors, buffers) => .ok { s' with tensors := tensors, buffers := buffers }

def tensorStep (backend : Backend) (noAlloc : Bool) (s : CallState) (i : ℕ) : Except Exit CallState :=
  match s.tensors[i]? with
  | none => .error (.abort .assertion)
  | some t =>
    let size := thisSize backend.buft i t
    if 0 < s.curBufSize ∧ ggmlBackendBuftGetMaxSize backend.buft < wrap64 (s.curBufSize + size) then
      match closeRange backend noAlloc s i with
      | .error e => .error e
      | .ok s => .ok { s with curBufSize := size }
    else .ok { s with curBufSize := wrap64 (s.curBufSize + size) }

/-- The null pointer is returned when no buffer was requested; several buffers are returned as one. -/
def ggmlBackendAllocCtxTensorsFromBuftImpl (backend : Backend) (ctx : GgmlContext) (noAlloc : Bool) :
    Except Exit CallState :=
  if ctx.noAlloc then
    match (List.range ctx.tensors.length).foldlM (tensorStep backend noAlloc) ⟨ctx.tensors, [], 0, 0, 0⟩ with
    | .error e => .error e
    | .ok s => if 0 < s.curBufSize then closeRange backend noAlloc s ctx.tensors.length else .ok s
  else .error (.abort .assertion)

def ggmlBackendAllocCtxTensorsFromBuftSize (backend : Backend) (ctx : GgmlContext) : Except Exit ℕ :=
  (ggmlBackendAllocCtxTensorsFromBuftImpl backend ctx true).map CallState.nbytesTotal

def ggmlBackendAllocCtxTensorsFromBuft (backend : Backend) (ctx : GgmlContext) : Except Exit CallState :=
  ggmlBackendAllocCtxTensorsFromBuftImpl backend ctx false

section Effects

variable {backend : Backend} {talloc : GgmlTallocr} {tensors : List CtxTensor} {i : ℕ} {t : CtxTensor}

/-- Everything the loop of `alloc_tensor_range` can do to a tensor. -/
inductive TensorDone (backend : Backend) (talloc : GgmlTallocr) (tensors : List CtxTensor) (i : ℕ) (t : CtxTensor) :
    GgmlTallocr × CtxTensor × Bool → Prop
  | placed (hdata : t.data = 0) (hsrc : t.viewSrc = none) (hbuffer : t.buffer = none)
      (hspace : wrap64 (talloc.offset + ggmlPad (ggmlBackendBuftGetAllocSize backend.buft i t) backend.buft.alignment) ≤
        talloc.size)
      (hinside : talloc.offset + ggmlBackendBuftGetAllocSize backend.buft i t ≤ talloc.size) :
      TensorDone backend talloc tensors i t
        ({ talloc with offset := wrap64 (talloc.offset +
            ggmlPad (ggmlBackendBuftGetAllocSize backend.buft i t) backend.buft.alignment) },
          { t with buffer := some (.requested talloc.buffer), data := talloc.base + talloc.offset }, backend.initTensor i)
  | view {src : ViewSource} (hsrc : t.viewSrc = some src) (hbuffer : t.buffer = none)
      (hsource : (sourceFields tensors src).1 ≠ none) (hdata : (sourceFields tensors src).2 ≠ 0) :
      TensorDone backend talloc tensors i t
        (talloc, { t with buffer := (sourceFields tensors src).1, data := (sourceFields tensors src).2 + t.viewOffs },
          backend.initTensor i)
  | kept (hdata : t.viewSrc = none → t.data ≠ 0) (hbuffer : t.viewSrc ≠ none → t.buffer ≠ none) :
      TensorDone backend talloc tensors i t (talloc, t, true)

theorem ggmlTallocrAlloc_ok {p : GgmlTallocr × CtxTensor} (h : ggmlTallocrAlloc backend.buft talloc i t = .ok p) :
    TensorDone backend talloc tensors i t (p.1, p.2, backend.initTensor i) := by
  unfold ggmlTallocrAlloc at h
  simp only at h
  split_ifs at h with hspace
  cases halloc : ggmlBackendTensorAlloc backend.buft talloc i t (talloc.base + talloc.offset) with
  | error e =>
    rw [halloc] at h
    cases h
  | ok t' =>
    rw [halloc] at h
    obtain rfl := Except.ok.inj h
    unfold ggmlBackendTensorAlloc at halloc
    split_ifs at halloc with hassert hinside
    obtain rfl := Except.ok.inj halloc
    simp only [not_or, not_not] at hassert
    obtain ⟨hbuffer, hdata, hsrc, -⟩ := hassert
    exact .placed hdata hsrc hbuffer (not_lt.1 hspace) (by omega)

theorem allocTensor_done {p : GgmlTallocr × CtxTensor × Bool} (h : allocTensor backend talloc tensors i t = .ok p) :
    TensorDone backend talloc tensors i t p := by
  unfold allocTensor at h
  cases hsrc : t.viewSrc with
  | none =>
    simp only [hsrc] at h
    split_ifs at h with hdata
    · cases halloc : ggmlTallocrAlloc backend.buft talloc i t with
      | error e =>
        rw [halloc] at h
        cases h
      | ok q =>
        rw [halloc] at h
        obtain rfl := Except.ok.inj h
        exact ggmlTallocrAlloc_ok halloc
    · obtain rfl := Except.ok.inj h
      exact .kept (fun _ => hdata) (fun hview => absurd hsrc hview)
  | some src =>
    simp only [hsrc] at h
    split_ifs at h with hbuffer
    · cases hview : ggmlBackendViewInit tensors src t with
      | error e =>
        rw [hview] at h
        cases h
      | ok t' =>
        rw [hview] at h
        obtain rfl := Except.ok.inj h
        unfold ggmlBackendViewInit at hview
        split_ifs at hview with hassert
        obtain rfl := Except.ok.inj hview
        simp only [not_or] at hassert
        exact .view hsrc hbuffer hassert.2.1 hassert.2.2
    · obtain rfl := Except.ok.inj h
      exact .kept (fun hnone => absurd (hsrc.symm.trans hnone) (by simp)) (fun _ => hbuffer)

/-- Why that loop cannot handle a tensor. -/
inductive TensorStopped (backend : Backend) (talloc : GgmlTallocr) (tensors : List CtxTensor) (i : ℕ) (t : CtxTensor) :
    Exit → Prop
  | notEnoughSpace (hdata : t.data = 0) (hsrc : t.viewSrc = none)
      (h : talloc.size < wrap64 (talloc.offset + ggmlPad (ggmlBackendBuftGetAllocSize backend.buft i t) backend.buft.alignment)) :
      TensorStopped backend talloc tensors i t (.abort .notEnoughSpace)
  | outsideBuffer (hdata : t.data = 0) (hsrc : t.viewSrc = none)
      (h : talloc.size < talloc.offset + ggmlBackendBuftGetAllocSize backend.buft i t) :
      TensorStopped backend talloc tensors i t (.abort .outsideBuffer)
  | buffered (hdata : t.data = 0) (hsrc : t.viewSrc = none) (h : t.buffer ≠ none) :
      TensorStopped backend talloc tensors i t (.abort .assertion)
  | source {src : ViewSource} (hsrc : t.viewSrc = some src) (hbuffer : t.buffer = none)
      (h : (sourceFields tensors src).1 = none ∨ (sourceFields tensors src).2 = 0) :
      TensorStopped backend talloc tensors i t (.abort .assertion)

theorem allocTensor_stopped {e : Exit} (h : allocTensor backend talloc tensors i t = .error e) :
    TensorStopped backend talloc tensors i t e := by
  unfold allocTensor at h
  cases hsrc : t.viewSrc with
  | none =>
    simp only [hsrc] at h
    split_ifs at h with hdata
    unfold ggmlTallocrAlloc ggmlBackendTensorAlloc at h
    simp only at h
    split_ifs at h with hspace hassert hinside
    · obtain rfl := Except.error.inj h
      exact .notEnoughSpace hdata hsrc hspace
    · obtain rfl := Except.error.inj h
      refine .buffered hdata hsrc (hassert.resolve_right ?_)
      rintro (hdata' | hsrc' | hlt)
      · exact hdata' hdata
      · exact hsrc' hsrc
      · exact absurd hlt (not_lt.2 (Nat.le_add_right _ _))
    · obtain rfl := Except.error.inj h
      exact .outsideBuffer hdata hsrc (by omega)
  | some src =>
    simp only [hsrc] at h
    split_ifs at h with hbuffer
    unfold ggmlBackendViewInit at h
    split_ifs at h with hassert
    obtain rfl := Except.error.inj h
    exact .source hsrc hbuffer (hassert.resolve_left (not_not.2 hbuffer))

theorem rangeStep_ok {s s' : GgmlTallocr × List CtxTensor} (h : rangeStep backend s i = .ok s') :
    ∃ t p, s.2[i]? = some t ∧ TensorDone backend s.1 s.2 i t p ∧ s' = (p.1, s.2.set i p.2.1) := by
  unfold rangeStep at h
  cases ht : s.2[i]? with
  | none => simp only [ht] at h; cases h
  | some t =>
    simp only [ht] at h
    cases halloc : allocTensor backend s.1 s.2 i t with
    | error e => simp only [halloc] at h; cases h
    | ok p =>
      simp only [halloc] at h
      split_ifs at h
      exact ⟨t, p, rfl, allocTensor_done halloc, (Except.ok.inj h).symm⟩

theorem rangeStep_error {s : GgmlTallocr × List CtxTensor} {e : Exit} (h : rangeStep backend s i = .error e) :
    s.2[i]? = none ∧ e = .abort .assertion ∨ (∃ t, s.2[i]? = some t ∧ TensorStopped backend s.1 s.2 i t e) ∨
      ∃ t p, s.2[i]? = some t ∧ TensorDone backend s.1 s.2 i t p ∧ p.2.2 = false ∧ e = .failed (s.2.set i p.2.1) := by
  unfold rangeStep at h
  cases ht : s.2[i]? with
  | none =>
    simp only [ht] at h
    exact .inl ⟨rfl, (Except.error.inj h).symm⟩
  | some t =>
    simp only [ht] at h
    cases halloc : allocTensor backend s.1 s.2 i t with
    | error e' =>
      simp only [halloc] at h
      obtain rfl := Except.error.inj h
      exact .inr (.inl ⟨t, rfl, allocTensor_stopped halloc⟩)
    | ok p =>
      simp only [halloc] at h
      split_ifs at h with hstatus
      exact .inr (.inr ⟨t, p, rfl, allocTensor_done halloc, Bool.not_eq_true _ ▸ hstatus, (Except.error.inj h).symm⟩)

theorem rangeStep_failed {s : GgmlTallocr × List CtxTensor} {failed : List CtxTensor}
    (h : rangeStep backend s i = .error (.failed failed)) :
    ∃ t p, s.2[i]? = some t ∧ TensorDone backend s.1 s.2 i t p ∧ p.2.2 = false ∧ failed = s.2.set i p.2.1 := by
  rcases rangeStep_error h with ⟨-, he⟩ | ⟨t, -, hstopped⟩ | ⟨t, p, ht, hdone, hstatus, he⟩
  · cases he
  · cases hstopped
  · exact ⟨t, p, ht, hdone, hstatus, Exit.failed.inj he⟩

end Effects

end PyannoteCpp.ContextAlloc
