import PyannoteCpp.GraphAllocator

set_option autoImplicit false

/-!
# The backend scheduler

Assigns a backend to every tensor of a graph and cuts the graph into splits
that run on one backend each. Tensors and backends are numbers, a tensor
without a backend has none. What the backends answer is given with the
scheduler.
-/
namespace PyannoteCpp.BackendSched

open Gallocr (GgmlOp)

def ggmlMaxSrc : ℕ := 10

def ggmlSchedMaxSplitInputs : ℕ := 30

def ggmlIsViewOp : GgmlOp → Bool
  | .view | .reshape | .permute | .transpose => true
  | _ => false

structure Buffer where
  buft : ℕ
  weights : Bool

/-- `src` holds the sources that are there, in order. -/
structure Tensor where
  op : GgmlOp
  input : Bool
  src : List ℕ
  src_le : src.length ≤ ggmlMaxSrc
  viewSrc : Option ℕ
  buffer : Option Buffer

structure Cgraph where
  tensor : ℕ → Tensor
  nodes : List ℕ
  leafs : List ℕ

/-- The backend of the first split is left from the last call when the graph has only views. -/
structure Sched where
  nBackends : ℕ
  bufts : ℕ → ℕ
  supportsOp : ℕ → ℕ → Bool
  supportsBuft : ℕ → ℕ → Bool
  offloadOp : ℕ → ℕ → Bool
  buftIsHost : ℕ → Bool
  opOffload : Bool
  nCopies : ℕ
  curCopy : ℕ
  curCopy_lt : curCopy < nCopies
  lastBackend : ℕ

inductive SchedAbort where
  | preallocated
  | unassigned
  | nodeBackend
  | srcBackend
  | graphInputs
  | splitInputs
  deriving DecidableEq

abbrev BackendIds := ℕ → Option ℕ

variable (sched : Sched) (graph : Cgraph)

def bufferOf (t : ℕ) : Option Buffer :=
  match (graph.tensor t).viewSrc with
  | some v => (graph.tensor v).buffer
  | none => (graph.tensor t).buffer

def backendFromBuffer (t op : ℕ) : Option ℕ :=
  match bufferOf graph t with
  | none => none
  | some buffer =>
    (List.range sched.nBackends).find? (fun b => sched.supportsBuft b buffer.buft && sched.supportsOp b op)

def isWeights (t : ℕ) : Bool :=
  match (graph.tensor t).buffer with
  | some buffer => buffer.weights
  | none => false

def isHost (t : ℕ) : Bool :=
  match (graph.tensor t).buffer with
  | some buffer => sched.buftIsHost buffer.buft
  | none => false

/-- Where an operation runs because of the weights it reads. -/
def backendFromWeight (t src : ℕ) : Option ℕ :=
  match backendFromBuffer sched graph src t with
  | none => none
  | some srcBackend =>
    if sched.opOffload ∧ srcBackend + 1 = sched.nBackends ∧ isHost sched graph src then
      match (List.range srcBackend).find? (fun b => sched.supportsOp b t && sched.offloadOp b t) with
      | some b => some b
      | none => some srcBackend
    else some srcBackend

def backendIdFromCur (t : ℕ) : Except SchedAbort (Option ℕ) :=
  match backendFromBuffer sched graph t t with
  | some b => .ok (some b)
  | none =>
    match (graph.tensor t).viewSrc.bind (fun v => backendFromBuffer sched graph v t) with
    | some b => .ok (some b)
    | none =>
      if (graph.tensor t).buffer.isSome ∨ (graph.tensor t).viewSrc.any (fun v => (graph.tensor v).buffer.isSome) then
        .error .preallocated
      else if (graph.tensor t).input then .ok (some (sched.nBackends - 1))
      else
        match (graph.tensor t).src.find? (fun src => (graph.tensor t).op ≠ .rope && isWeights graph src) with
        | some src => .ok (backendFromWeight sched graph t src)
        | none => .ok none

def bufferSupported (ids : BackendIds) (t backend : ℕ) : Bool :=
  match bufferOf graph t with
  | some buffer => sched.supportsBuft backend buffer.buft
  | none =>
    match (ids t).or ((graph.tensor t).viewSrc.bind ids) with
    | some b => sched.supportsBuft backend (sched.bufts b)
    | none => false

def isViewNode (t : ℕ) : Bool := ggmlIsViewOp (graph.tensor t).op

/-! Pass 1 keeps what the user assigned, and asks the buffers for the rest. -/

def assignFromCur (ids : BackendIds) (t : ℕ) : Except SchedAbort BackendIds :=
  match ids t with
  | some _ => .ok ids
  | none =>
    match backendIdFromCur sched graph t with
    | .error e => .error e
    | .ok b => .ok (Function.update ids t b)

def assignPass (ids : BackendIds) : Except SchedAbort BackendIds :=
  (graph.leafs ++ graph.nodes).foldlM (assignFromCur sched graph) ids

/-! Pass 2 extends the backends found to the nodes around. -/

def setIfSupported (ids : BackendIds) (t b : ℕ) : BackendIds :=
  if sched.supportsOp b t then Function.update ids t (some b) else ids

/-- One node of an expansion. `skipLast` leaves out the backend of lowest priority. -/
def expandNode (skipLast : Bool) (st : BackendIds × Option ℕ) (node : ℕ) : BackendIds × Option ℕ :=
  if isViewNode graph node then st
  else
    match st.1 node, st.2 with
    | some b, _ => (st.1, if skipLast ∧ b + 1 = sched.nBackends then none else some b)
    | none, some b => (setIfSupported sched st.1 node b, some b)
    | none, none => st

def expand (skipLast : Bool) (nodes : List ℕ) (ids : BackendIds) : BackendIds :=
  (nodes.foldl (expandNode sched graph skipLast) (ids, none)).1

def expandGpuDown (ids : BackendIds) : BackendIds := expand sched graph true graph.nodes ids

def expandGpuUp (ids : BackendIds) : BackendIds := expand sched graph true graph.nodes.reverse ids

def expandRestDown (ids : BackendIds) : BackendIds := expand sched graph false graph.nodes ids

def expandRestUp (ids : BackendIds) : BackendIds := expand sched graph false graph.nodes.reverse ids

def expandPass (ids : BackendIds) : BackendIds :=
  expandRestUp sched graph (expandRestDown sched graph (expandGpuUp sched graph (expandGpuDown sched graph ids)))

/-! Pass 3 moves nodes to better backends, and finds one for the nodes that have none. -/

def nSupported (ids : BackendIds) (node b : ℕ) : ℕ :=
  (graph.tensor node).src.countP (fun src =>
    ((ids src).isSome || ((graph.tensor src).viewSrc.bind ids).isSome) && bufferSupported sched graph ids src b)

def tryBackend (node : ℕ) (st : BackendIds × ℤ) (b : ℕ) : BackendIds × ℤ :=
  if sched.supportsOp b node then
    if st.2 < nSupported sched graph st.1 node b then
      (Function.update st.1 node (some b), nSupported sched graph st.1 node b)
    else st
  else st

def upgradeNode (ids : BackendIds) (node : ℕ) : BackendIds :=
  if isViewNode graph node then ids
  else
    match ids node with
    | none => ((List.range sched.nBackends).foldl (tryBackend sched graph node) (ids, -1)).1
    | some cur =>
      match (List.range cur).find? (fun b => sched.bufts b == sched.bufts cur && sched.supportsOp b node &&
          (graph.tensor node).src.all (fun src => bufferSupported sched graph ids src b)) with
      | some b => Function.update ids node (some b)
      | none => ids

def upgradePass (ids : BackendIds) : BackendIds := graph.nodes.foldl (upgradeNode sched graph) ids

/-! Pass 4 gives the views and the other sources a backend. -/

def inheritSrc (node : ℕ) (ids : BackendIds) (src : ℕ) : BackendIds :=
  match ids src with
  | some _ => ids
  | none =>
    match (graph.tensor src).viewSrc with
    | some v => Function.update ids src (ids v)
    | none => Function.update ids src (ids node)

def firstSupporting (node : ℕ) (ids : BackendIds) (b : ℕ) : BackendIds :=
  match ids node with
  | some _ => ids
  | none => setIfSupported sched ids node b

def inheritView (ids : BackendIds) (node : ℕ) : BackendIds :=
  match ids node, (graph.tensor node).viewSrc with
  | none, some v => Function.update ids node (ids v)
  | _, _ => ids

def inheritNode (ids : BackendIds) (node : ℕ) : Except SchedAbort BackendIds :=
  let ids := (graph.tensor node).src.foldl (inheritSrc graph node) (inheritView graph ids node)
  let ids := (List.range sched.nBackends).foldl (firstSupporting sched node) ids
  if ids node = none then .error .unassigned else .ok ids

def inheritPass (ids : BackendIds) : Except SchedAbort BackendIds :=
  graph.nodes.foldlM (inheritNode sched graph) ids

def assignBackends (ids : BackendIds) : Except SchedAbort BackendIds :=
  match assignPass sched graph ids with
  | .error e => .error e
  | .ok ids => inheritPass sched graph (upgradePass sched graph (expandPass sched graph ids))

/-! Pass 5 cuts the graph and makes the copies. -/

/-- A source of a node: a tensor of the graph, or copy `c` of one for a backend. -/
inductive Source where
  | tensor (t : ℕ)
  | copy (t backend c : ℕ)
  deriving DecidableEq

structure Split where
  backendId : ℕ
  iStart : ℕ
  iEnd : ℕ
  inputs : List ℕ
  deriving DecidableEq

/-- The copies of a tensor for a backend are made together, and stand in one row of the table. -/
structure SplitState where
  done : List Split
  split : Split
  copies : ℕ → ℕ → Option (ℕ → Source)
  graphInputs : List ℕ
  srcs : ℕ → List Source

def setCopies (st : SplitState) (t b : ℕ) (row : ℕ → Source) : ℕ → ℕ → Option (ℕ → Source) :=
  Function.update st.copies t (Function.update (st.copies t) b (some row))

/-- With several copies a graph input stands for its own current copy. -/
def graphInputRow (t b c : ℕ) : Source := if c = sched.curCopy then .tensor t else .copy t b c

def putGraphInput (st : SplitState) (t b : ℕ) : SplitState :=
  { st with copies := setCopies st t b (graphInputRow sched t b), graphInputs := st.graphInputs ++ [t] }

def addGraphInput (st : SplitState) (t b : ℕ) : Except SchedAbort SplitState :=
  if st.graphInputs.length < ggmlSchedMaxSplitInputs then .ok (putGraphInput sched st t b) else .error .graphInputs

def listInput (split : Split) (t : ℕ) : Split := { split with inputs := split.inputs ++ [t] }

def putInput (st : SplitState) (t : ℕ) : SplitState :=
  { st with
    copies := setCopies st t st.split.backendId (.copy t st.split.backendId), split := listInput st.split t }

def addInput (st : SplitState) (t : ℕ) : Except SchedAbort SplitState :=
  if st.split.inputs.length < ggmlSchedMaxSplitInputs then .ok (putInput st t) else .error .splitInputs

/-- A source that the backend of the split cannot read where it is. -/
def isForeign (ids : BackendIds) (b t : ℕ) : Bool := ids t ≠ some b && !bufferSupported sched graph ids t b

def registerInput (st : SplitState) (t b : ℕ) : Except SchedAbort SplitState :=
  if (graph.tensor t).input ∧ 1 < sched.nCopies ∧ (st.copies t b).isNone then addGraphInput sched st t b else .ok st

def copyInput (st : SplitState) (t : ℕ) : Except SchedAbort SplitState :=
  if (st.copies t st.split.backendId).isNone then addInput st t else .ok st

def copyOf (st : SplitState) (t : ℕ) : Source :=
  match st.copies t st.split.backendId with
  | some row => row sched.curCopy
  | none => .tensor t

def takeSource (ids : BackendIds) (st : SplitState) (src : Source) : Except SchedAbort (SplitState × Source) :=
  match src with
  | .copy _ _ _ => .error .srcBackend
  | .tensor t =>
    match ids t with
    | none => .error .srcBackend
    | some srcBackend =>
      match registerInput sched graph st t srcBackend with
      | .error e => .error e
      | .ok st =>
        if isForeign sched graph ids st.split.backendId t then
          match copyInput st t with
          | .error e => .error e
          | .ok st => .ok (st, copyOf sched st t)
        else .ok (st, .tensor t)

def takeSources (ids : BackendIds) : SplitState → List Source → Except SchedAbort (SplitState × List Source)
  | st, [] => .ok (st, [])
  | st, src :: rest =>
    match takeSource sched graph ids st src with
    | .error e => .error e
    | .ok (st, src) =>
      match takeSources ids st rest with
      | .error e => .error e
      | .ok (st, rest) => .ok (st, src :: rest)

/-- A weight on an incompatible backend, or a copy to make when the split is full. -/
def forcesSplit (ids : BackendIds) (st : SplitState) (src : Source) : Bool :=
  let full := st.split.inputs.length == ggmlSchedMaxSplitInputs
  match src with
  | .copy _ _ _ => full
  | .tensor t =>
    isForeign sched graph ids st.split.backendId t &&
      (isWeights graph t || full && (st.copies t st.split.backendId).isNone)

def needNewSplit (ids : BackendIds) (st : SplitState) (node : ℕ) : Bool :=
  !st.split.inputs.isEmpty && (st.srcs node).any (forcesSplit sched graph ids st)

def closeSplit (i : ℕ) (split : Split) : Split := { split with iEnd := i }

def startSplit (st : SplitState) (i b : ℕ) : SplitState :=
  { st with done := st.done ++ [closeSplit i st.split], split := ⟨b, i, i, []⟩ }

def enterSplit (ids : BackendIds) (st : SplitState) (i node b : ℕ) : SplitState :=
  if b ≠ st.split.backendId ∨ needNewSplit sched graph ids st node then startSplit st i b else st

def setSrcs (st : SplitState) (node : ℕ) (srcs : List Source) : SplitState :=
  { st with srcs := Function.update st.srcs node srcs }

def splitNode (ids : BackendIds) (st : SplitState) (entry : ℕ × ℕ) : Except SchedAbort SplitState :=
  if isViewNode graph entry.1 then .ok st
  else
    match ids entry.1 with
    | none => .error .nodeBackend
    | some b =>
      match takeSources sched graph ids (enterSplit sched graph ids st entry.2 entry.1 b) (st.srcs entry.1) with
      | .error e => .error e
      | .ok (st, srcs) => .ok (setSrcs st entry.1 srcs)

def firstBackend (ids : BackendIds) : ℕ :=
  match graph.nodes.find? (fun node => !isViewNode graph node) with
  | some node => (ids node).getD sched.lastBackend
  | none => sched.lastBackend

def splitStart (ids : BackendIds) : SplitState :=
  ⟨[], ⟨firstBackend sched graph ids, 0, 0, []⟩, fun _ _ => none, [], fun t => (graph.tensor t).src.map .tensor⟩

def splitNodes (ids : BackendIds) : Except SchedAbort SplitState :=
  graph.nodes.zipIdx.foldlM (splitNode sched graph ids) (splitStart sched graph ids)

def splitsOf (st : SplitState) : List Split := st.done ++ [closeSplit graph.nodes.length st.split]

structure SplitGraph where
  ids : BackendIds
  splits : List Split
  srcs : ℕ → List Source

def splitGraph (user : BackendIds) : Except SchedAbort SplitGraph :=
  match assignBackends sched graph user with
  | .error e => .error e
  | .ok ids =>
    match splitNodes sched graph ids with
    | .error e => .error e
    | .ok st => .ok ⟨ids, splitsOf graph st, st.srcs⟩

end PyannoteCpp.BackendSched
