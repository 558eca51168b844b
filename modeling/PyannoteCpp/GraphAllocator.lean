import PyannoteCpp.DynTallocr

set_option autoImplicit false

/-!
# The graph allocator

Plans the memory of a compute graph before it runs. Tensors are numbers, the
graph says what each of them is. A tensor counts its readers and its views that
are not released yet. The buffer types stand for the backend, and a type that
is used more than once has one allocator.
-/
namespace PyannoteCpp.Gallocr

open Tallocr

inductive GgmlOp where
  | none | dup | add | addId | add1 | acc | sub | mul | div | sqr | sqrt | log | sin | cos | sum | sumRows | cumsum
  | mean | argmax | countEqual | repeat | repeatBack | concat | siluBack | norm | rmsNorm | rmsNormBack | groupNorm
  | l2Norm | mulMat | mulMatId | outProd | scale | set | cpy | cont | reshape | view | permute | transpose | getRows
  | getRowsBack | setRows | diag | diagMaskInf | diagMaskZero | softMax | softMaxBack | rope | ropeBack | clamp
  | convTranspose1d | im2col | im2colBack | im2col3d | conv2d | conv3d | conv2dDw | convTranspose2d | pool1d | pool2d
  | pool2dBack | upscale | pad | padReflect1d | roll | arange | timestepEmbedding | argsort | topK | leakyRelu | tri
  | fill | flashAttnExt | flashAttnBack | ssmConv | ssmScan | winPart | winUnpart | getRelPos | addRelPos | rwkvWkv6
  | gatedLinearAttn | rwkvWkv7 | solveTri | unary | mapCustom1 | mapCustom2 | mapCustom3 | custom | crossEntropyLoss
  | crossEntropyLossBack | optStepAdamw | optStepSgd | glu
  deriving DecidableEq

def ggmlOpCanInplace : GgmlOp → Bool
  | .fill | .scale | .diagMaskZero | .diagMaskInf | .add | .addId | .add1 | .sub | .mul | .div | .sqr | .sqrt | .log
  | .unary | .rope | .ropeBack | .siluBack | .rmsNorm | .rmsNormBack | .softMax | .softMaxBack => true
  | _ => false

/-- `src` holds the sources that are there, in order. `buffer` says whether the tensor has one. -/
structure Tensor where
  type : GgmlType
  ne : Dims
  nb : Strides
  op : GgmlOp
  input : Bool
  output : Bool
  src : List ℕ
  viewSrc : Option ℕ
  viewOffs : ℕ
  data : Option ℕ
  buffer : Bool

structure Cgraph where
  tensor : ℕ → Tensor
  nodes : List ℕ
  leafs : List ℕ

structure Buffers where
  bufts : List ℕ
  alignment : ℕ → ℕ
  maxSize : ℕ → ℕ
  allocSize : ℕ → ℕ → ℕ

structure HashNode where
  nChildren : ℤ
  nViews : ℤ
  bufferId : ℕ
  addr : BufferAddress
  allocated : Bool
  deriving DecidableEq

structure GallocrState where
  hash : ℕ → HashNode
  tallocs : ℕ → DynTallocr

inductive GallocrAbort where
  | bufferId
  | parentSize
  | outOfRange
  | tallocr (abort : TallocrAbort)
  deriving DecidableEq

def ggmlAreSameLayout (a b : Tensor) : Bool := a.type = b.type ∧ a.ne = b.ne ∧ a.nb = b.nb

def GallocrState.modify (s : GallocrState) (t : ℕ) (f : HashNode → HashNode) : GallocrState :=
  { s with hash := Function.update s.hash t (f (s.hash t)) }

def placeAt (bufferId : ℕ) (addr : BufferAddress) (hn : HashNode) : HashNode :=
  ⟨hn.nChildren, hn.nViews, bufferId, addr, hn.allocated⟩

def setAllocated (b : Bool) (hn : HashNode) : HashNode := ⟨hn.nChildren, hn.nViews, hn.bufferId, hn.addr, b⟩

variable (buffers : Buffers) (graph : Cgraph)

def isOwn (s : GallocrState) (t : ℕ) : Bool := (s.hash t).allocated

def isAllocated (s : GallocrState) (t : ℕ) : Bool :=
  (graph.tensor t).data.isSome || (graph.tensor t).buffer || isOwn s t

def tallocrFreeBytes (s : GallocrState) (buft : ℕ) (addr : BufferAddress) (size : ℕ) :
    Except GallocrAbort GallocrState :=
  match ggmlDynTallocrFreeBytes (s.tallocs buft) addr size with
  | .error e => .error (.tallocr e)
  | .ok talloc => .ok { s with tallocs := Function.update s.tallocs buft talloc }

def freeExtraSpace (s : GallocrState) (node parent : ℕ) : Except GallocrAbort GallocrState :=
  match buffers.bufts[(s.hash parent).bufferId]?, buffers.bufts[(s.hash node).bufferId]? with
  | some parentBuft, some nodeBuft =>
    let parentSize := buffers.allocSize parentBuft parent
    let nodeSize := buffers.allocSize nodeBuft node
    if parentSize < nodeSize then .error .parentSize
    else
      let parentPadded := alignedOffset parentSize (s.tallocs parentBuft).alignment
      let nodePadded := alignedOffset nodeSize (s.tallocs parentBuft).alignment
      if nodePadded < parentPadded then
        tallocrFreeBytes s parentBuft
          ⟨(s.hash parent).addr.chunk, wrap64 ((s.hash parent).addr.offset + nodePadded)⟩ (parentPadded - nodePadded)
      else .ok s
  | _, _ => .error .outOfRange

/-- The owner of the memory a parent offers for reuse: the parent, or the tensor it is a view of. -/
def reusable (s : GallocrState) (node parent : ℕ) : Option ℕ :=
  if isOwn s parent = false then none
  else if (graph.tensor parent).output ∨ (graph.tensor parent).viewSrc.any (fun v => (graph.tensor v).output) then none
  else if ggmlAreSameLayout (graph.tensor node) (graph.tensor parent) = false then none
  else if (s.hash parent).nChildren = 1 ∧ (s.hash parent).nViews = 0 then
    match (graph.tensor parent).viewSrc with
    | none => some parent
    | some v =>
      if (s.hash v).nViews = 1 ∧ (s.hash v).nChildren = 0 ∧ (graph.tensor v).data = (graph.tensor parent).data then
        some v
      else none
  else none

def reuseOf (s : GallocrState) (node : ℕ) : Option (ℕ × ℕ) :=
  if ggmlOpCanInplace (graph.tensor node).op then
    (graph.tensor node).src.findSome? (fun parent => (reusable graph s node parent).map (fun owner => (parent, owner)))
  else none

/-- The node gets the address of the parent, and the parent and the owner are not freed any more. -/
def takeOver (s : GallocrState) (node parent owner : ℕ) : GallocrState :=
  ((s.modify node (placeAt (s.hash parent).bufferId (s.hash parent).addr)).modify
    parent (setAllocated false)).modify owner (setAllocated false)

def allocateFresh (s : GallocrState) (node bufferId : ℕ) : Except GallocrAbort GallocrState :=
  match buffers.bufts[bufferId]? with
  | none => .error .outOfRange
  | some buft =>
    match ggmlDynTallocrAlloc (s.tallocs buft) (buffers.allocSize buft node) with
    | .error e => .error (.tallocr e)
    | .ok (talloc, addr) =>
      .ok { s.modify node (placeAt bufferId addr) with
        tallocs := Function.update s.tallocs buft talloc }

def allocateNode (s : GallocrState) (node : ℕ) (bufferId : ℤ) : Except GallocrAbort GallocrState :=
  if bufferId < 0 then .error .bufferId
  else if isAllocated graph s node ∨ (graph.tensor node).viewSrc.isSome then .ok s
  else
    let s := s.modify node (setAllocated true)
    match reuseOf graph s node with
    | some (parent, owner) => freeExtraSpace buffers (takeOver s node parent owner) node owner
    | none => allocateFresh buffers s node bufferId.toNat

/-- Graph outputs are never freed. -/
def freeNode (s : GallocrState) (node : ℕ) : Except GallocrAbort GallocrState :=
  if (graph.tensor node).output then .ok s
  else
    match buffers.bufts[(s.hash node).bufferId]? with
    | none => .error .outOfRange
    | some buft =>
      match tallocrFreeBytes s buft (s.hash node).addr (buffers.allocSize buft node) with
      | .error e => .error e
      | .ok s => .ok (s.modify node (setAllocated false))

def addChildren (k : ℤ) (hn : HashNode) : HashNode := { hn with nChildren := hn.nChildren + k }

def addViews (k : ℤ) (hn : HashNode) : HashNode := { hn with nViews := hn.nViews + k }

def countView (s : GallocrState) (node : ℕ) : GallocrState :=
  match (graph.tensor node).viewSrc with
  | none => s
  | some v => if (graph.tensor node).op = .none then s else s.modify v (addViews 1)

def allocateInput (bufferId : ℤ) (s : GallocrState) (t : ℕ) : Except GallocrAbort GallocrState :=
  if (graph.tensor t).input then allocateNode buffers graph s t bufferId else .ok s

def countSrc (bufferId : ℤ) (s : GallocrState) (src : ℕ) : Except GallocrAbort GallocrState :=
  allocateInput buffers graph bufferId (s.modify src (addChildren 1)) src

/-- One round of the loop that counts children and views and allocates the inputs. -/
def countNode (bufferId : ℤ) (s : GallocrState) (node : ℕ) : Except GallocrAbort GallocrState := do
  let s ← allocateInput buffers graph bufferId (countView graph s node) node
  (graph.tensor node).src.foldlM (countSrc buffers graph bufferId) s

def updateParent (s : GallocrState) (parent : ℕ) : Except GallocrAbort GallocrState :=
  let s := s.modify parent (addChildren (-1))
  if (s.hash parent).nChildren = 0 ∧ (s.hash parent).nViews = 0 then
    match (graph.tensor parent).viewSrc with
    | some v =>
      let s := s.modify v (addViews (-1))
      if (s.hash v).nViews = 0 ∧ (s.hash v).nChildren = 0 ∧ (s.hash v).allocated then freeNode buffers graph s v
      else .ok s
    | none => if (s.hash parent).allocated then freeNode buffers graph s parent else .ok s
  else .ok s

/-- One round of the loop that allocates the nodes and frees what is not read any more. -/
def allocNode (bufferId : ℤ) (s : GallocrState) (node : ℕ) : Except GallocrAbort GallocrState := do
  let s ← (graph.tensor node).src.foldlM (fun s parent => allocateNode buffers graph s parent bufferId) s
  let s ← allocateNode buffers graph s node bufferId
  (graph.tensor node).src.foldlM (updateParent buffers graph) s

def allocGraphImpl (nodeBufferIds leafBufferIds : ℕ → ℤ) (s : GallocrState) : Except GallocrAbort GallocrState := do
  let s ← graph.leafs.zipIdx.foldlM (fun s p => allocateNode buffers graph s p.1 (leafBufferIds p.2)) s
  let s ← graph.nodes.zipIdx.foldlM (fun s p => countNode buffers graph (nodeBufferIds p.2) s p.1) s
  graph.nodes.zipIdx.foldlM (fun s p => allocNode buffers graph (nodeBufferIds p.2) s p.1) s

def emptyState : GallocrState where
  hash _ := ⟨0, 0, 0, ⟨0, 0⟩, false⟩
  tallocs buft := ggmlDynTallocrNew (buffers.alignment buft) (buffers.maxSize buft)

/-- No buffer and no address for a tensor that is a view or has its data already. -/
structure TensorAlloc where
  bufferId : ℤ
  addr : Option BufferAddress
  sizeMax : ℕ
  deriving DecidableEq

def tensorAlloc (s : GallocrState) (t : ℕ) : TensorAlloc :=
  if (graph.tensor t).viewSrc.isSome ∨ (graph.tensor t).data.isSome then ⟨-1, none, 0⟩
  else
    ⟨(s.hash t).bufferId, some (s.hash t).addr,
      ((buffers.bufts[(s.hash t).bufferId]?).map (fun buft => buffers.allocSize buft t)).getD 0⟩

structure GallocrPlan where
  nodeAllocs : List (TensorAlloc × List TensorAlloc)
  leafAllocs : List TensorAlloc
  chunkSizes : List (List ℕ)

def planOf (s : GallocrState) : GallocrPlan where
  nodeAllocs := graph.nodes.map (fun node =>
    (tensorAlloc buffers graph s node, (graph.tensor node).src.map (tensorAlloc buffers graph s)))
  leafAllocs := graph.leafs.map (tensorAlloc buffers graph s)
  chunkSizes := buffers.bufts.map (fun buft => (s.tallocs buft).chunks.map TallocrChunk.maxSize)

/-- The tables behind the plan, and the plan. The buffers of these sizes are then asked of the backend. -/
def gallocrReserveN (nodeBufferIds leafBufferIds : ℕ → ℤ) : Except GallocrAbort (GallocrState × GallocrPlan) := do
  let s ← allocGraphImpl buffers graph nodeBufferIds leafBufferIds (emptyState buffers)
  .ok (s, planOf buffers graph s)

end PyannoteCpp.Gallocr
