import PyannoteCpp.ExtentPacking
import PyannoteCpp.GgufMemory
import PyannoteCpp.ReachableStates
import PyannoteCpp.TensorView

set_option autoImplicit false

/-!
# The memory pool of a context

Objects are laid end to end, each behind a header of its own. A tensor is an
object with its struct and, unless the context does not allocate, its data.
This is the code with `NDEBUG`.
-/
namespace PyannoteCpp.ContextPool
open ReachableStates TensorViews
open Gguf (ggmlMemAlign ggmlObjectSize ggmlTensorSize pad16 ggmlPad_memAlign)

inductive ObjectType where
  | tensor
  | graph
  | workBuffer
  deriving DecidableEq

structure ContextObject where
  offs : ℕ
  size : ℕ
  type : ObjectType
  deriving DecidableEq

structure Context where
  memSize : ℕ
  memBuffer : ℕ
  noAlloc : Bool
  /-- The last one first. -/
  objects : List ContextObject

/-- `noSpace` stands for no object. -/
inductive Failure where
  | noSpace
  | assertion
  deriving DecidableEq

/-- A buffer at zero is none. -/
structure InitParams where
  memSize : ℕ
  memBuffer : ℕ
  noAlloc : Bool

def ggmlInit (params : InitParams) (alignedMalloc : ℕ → ℕ) : Except Failure Context :=
  let requested := if params.memSize = 0 then ggmlMemAlign else params.memSize
  let memSize := if params.memBuffer = 0 then ggmlPad requested ggmlMemAlign else requested
  let memBuffer := if params.memBuffer = 0 then alignedMalloc memSize else params.memBuffer
  if memBuffer ≠ 0 ∧ memBuffer % ggmlMemAlign = 0 then .ok ⟨memSize, memBuffer, params.noAlloc, []⟩
  else .error .assertion

def curEnd (objects : List ContextObject) : ℕ :=
  match objects with
  | [] => 0
  | obj :: _ => wrap64 (obj.offs + obj.size)

def ggmlNewObject (ctx : Context) (type : ObjectType) (size : ℕ) : Except Failure (Context × ContextObject) :=
  let sizeNeeded := ggmlPad size ggmlMemAlign
  if ctx.memSize < wrap64 (curEnd ctx.objects + sizeNeeded + ggmlObjectSize) then .error .noSpace
  else
    let obj : ContextObject := ⟨wrap64 (curEnd ctx.objects + ggmlObjectSize), sizeNeeded, type⟩
    if (ctx.memBuffer + obj.offs) % ggmlMemAlign = 0 then .ok ({ ctx with objects := obj :: ctx.objects }, obj)
    else .error .assertion

/-- A tensor of the pool, with the offset of its data there. -/
structure PoolTensor extends Storage where
  obj : ContextObject
  data : Option ℕ

def tensorSizes (nDims : ℕ) (ne : Fin 4 → ℕ) : Fin 4 → ℤ := fun i => if i.val < nDims then ne i else 1

def objAllocSize (noAlloc : Bool) (type : GgmlType) (nDims : ℕ) (ne : Fin 4 → ℕ) : ℕ :=
  if noAlloc then 0 else dataSize type nDims (fun i => ne i)

def ggmlNewTensor (ctx : Context) (type : GgmlType) (nDims : ℕ) (ne : Fin 4 → ℕ) :
    Except Failure (Context × PoolTensor) :=
  if 1 ≤ nDims ∧ nDims ≤ 4 then
    let bytes := objAllocSize ctx.noAlloc type nDims ne
    match ggmlNewObject ctx .tensor (wrap64 (ggmlTensorSize + bytes)) with
    | .error _ => .error .assertion
    | .ok (ctx, obj) =>
      let sizes := tensorSizes nDims ne
      let data := if 0 < bytes then some (obj.offs + ggmlTensorSize) else none
      .ok (ctx, ⟨⟨type, sizes, newStrides type sizes⟩, obj, data⟩)
  else .error .assertion

inductive Request where
  | object (type : ObjectType) (size : ℕ)
  | tensor (type : GgmlType) (nDims : ℕ) (ne : Fin 4 → ℕ)

inductive Returned where
  | object (size : ℕ) (obj : ContextObject)
  | tensor (t : PoolTensor)

namespace Returned

def obj : Returned → ContextObject
  | object _ obj => obj
  | tensor t => t.obj

def extent (r : Returned) : Extent := ⟨r.obj.offs - ggmlObjectSize, ggmlObjectSize + r.obj.size⟩

/-- The object is as large as it was asked for; a tensor has its struct and, with data, the exact bytes of it. -/
def HasRoom (noAlloc : Bool) : Returned → Prop
  | object size obj => size ≤ obj.size
  | tensor t => ggmlTensorSize ≤ t.obj.size ∧ (noAlloc = true ∨ exactBytes t.type (dims t.ne) = 0 ∨
      ∃ p, t.data = some p ∧ p + exactBytes t.type (dims t.ne) ≤ t.obj.offs + t.obj.size)

end Returned

def request (ctx : Context) : Request → Except Failure (Context × Returned)
  | .object type size => (ggmlNewObject ctx type size).map fun p => (p.1, .object size p.2)
  | .tensor type nDims ne => (ggmlNewTensor ctx type nDims ne).map fun p => (p.1, .tensor p.2)

structure PoolState where
  ctx : Context
  /-- The last one first. -/
  returned : List Returned

inductive Step (s : PoolState) : Request → PoolState → Prop where
  | returned {req : Request} {ctx : Context} {r : Returned} (h : request s.ctx req = .ok (ctx, r)) :
      Step s req ⟨ctx, r :: s.returned⟩
  | noSpace {type : ObjectType} {size : ℕ} (h : request s.ctx (.object type size) = .error .noSpace) :
      Step s (.object type size) s

def Start (s : PoolState) : Prop :=
  ∃ params alignedMalloc, params.memSize < 2 ^ 64 ∧ ggmlInit params alignedMalloc = .ok s.ctx ∧ s.returned = []

structure PoolLaw (s : PoolState) : Prop where
  inside : ∀ r ∈ s.returned, ggmlObjectSize ≤ r.obj.offs ∧ r.obj.offs + r.obj.size ≤ s.ctx.memSize
  aligned : ∀ r ∈ s.returned, ggmlMemAlign ∣ s.ctx.memBuffer + r.obj.offs
  apart : s.returned.Pairwise (fun later earlier => Disjoint later.extent.points earlier.extent.points)
  room : ∀ r ∈ s.returned, r.HasRoom s.ctx.noAlloc

/-- The bytes of a tensor whose rows are each rounded down to whole bytes, in unbounded numbers. -/
def rowsBytes (type : GgmlType) (ne : Dims) : ℕ := type.typeSize * ne.n0 / type.blckSize * (ne.n1 * ne.n2 * ne.n3)

/-- What rounding rows down loses is in the padding of the object, and what a row is divided from is of type `size_t`. -/
def RowsExact (type : GgmlType) (ne : Dims) : Prop :=
  pad16 (ggmlTensorSize + exactBytes type ne) = pad16 (ggmlTensorSize + rowsBytes type ne) ∧
    (type.blckSize = 1 ∨ type.typeSize * ne.n0 < 2 ^ 64 ∨ ne.n1 * ne.n2 * ne.n3 = 0)

def neededBytes (noAlloc : Bool) : Request → ℕ
  | .object _ size => size
  | .tensor type nDims ne =>
    ggmlTensorSize + if noAlloc then 0 else exactBytes type (dims (tensorSizes nDims ne))

def exactEnd (ctx : Context) (req : Request) : ℕ :=
  curEnd ctx.objects + ggmlObjectSize + pad16 (neededBytes ctx.noAlloc req)

def RowsCounted (noAlloc : Bool) : Request → Prop
  | .object _ _ => True
  | .tensor type nDims ne => noAlloc = true ∨ RowsExact type (dims (tensorSizes nDims ne))

/-- The rows of a tensor with data are exact, and the object ends below `2 ^ 64`. -/
def SizesExact (s : PoolState) (req : Request) : Prop :=
  RowsCounted s.ctx.noAlloc req ∧ exactEnd s.ctx req < 2 ^ 64

section Sizes

variable {type : GgmlType} {nDims : ℕ} {ne : Fin 4 → ℕ}

theorem le_pad16 (x : ℕ) : x ≤ pad16 x ∧ pad16 x ≤ x + 15 ∧ 16 ∣ pad16 x := by
  unfold pad16
  refine ⟨by omega, by omega, Nat.dvd_mul_left 16 _⟩

theorem pad16_le {x y : ℕ} (h : x ≤ y) (hy : 16 ∣ y) : pad16 x ≤ y := by
  unfold pad16
  omega

theorem wrapInt_mul (a b : ℕ) : wrapInt (a * b) = wrap64 (a * b) := by
  unfold wrapInt wrap64
  omega

theorem wrap64_wrap64_mul (a b : ℕ) : wrap64 (wrap64 a * b) = wrap64 (a * b) := Nat.mod_mul_mod a b (2 ^ 64)

theorem foldl_sizes (l : List (Fin 4)) (row : ℕ) (hrow : row < 2 ^ 64) :
    l.foldl (fun size i => wrapInt (size * (ne i : ℤ))) row = wrap64 (row * (l.map ne).prod) := by
  induction l generalizing row with
  | nil => rw [List.foldl_nil, List.map_nil, List.prod_nil, Nat.mul_one, wrap64_of_lt hrow]
  | cons i l ih =>
    rw [List.foldl_cons, wrapInt_mul, ih _ (wrap64_lt _), wrap64_wrap64_mul, List.map_cons, List.prod_cons,
      Nat.mul_assoc]

theorem dataSize_eq (hn : 1 ≤ nDims ∧ nDims ≤ 4) {d : Dims} (hd : dims (tensorSizes nDims ne) = d) :
    dataSize type nDims (fun i => ne i) =
      wrap64 (wrap64 (type.typeSize * d.n0) / type.blckSize * (d.n1 * d.n2 * d.n3)) := by
  have hrow : ggmlRowSize type (ne 0 : ℕ) = wrap64 (type.typeSize * ne 0) / type.blckSize := by
    unfold ggmlRowSize
    rw [wrapInt_mul]
  have hlt : wrap64 (type.typeSize * ne 0) / type.blckSize < 2 ^ 64 :=
    (Nat.div_le_self _ _).trans_lt (wrap64_lt _)
  subst hd
  unfold dataSize
  rw [hrow, foldl_sizes _ _ hlt]
  obtain ⟨h1, h4⟩ := hn
  -- which dimensions are multiplied depends on their number only
  interval_cases nDims
  · have hlist : ((List.finRange 4).filter fun i => 1 ≤ i.val ∧ i.val < 1) = [] := by decide
    rw [hlist]
    simp [dims, tensorSizes]
  · have hlist : ((List.finRange 4).filter fun i => 1 ≤ i.val ∧ i.val < 2) = [1] := by decide
    rw [hlist]
    simp [dims, tensorSizes]
  · have hlist : ((List.finRange 4).filter fun i => 1 ≤ i.val ∧ i.val < 3) = [1, 2] := by decide
    rw [hlist]
    simp [dims, tensorSizes]
  · have hlist : ((List.finRange 4).filter fun i => 1 ≤ i.val ∧ i.val < 4) = [1, 2, 3] := by decide
    rw [hlist]
    simp [dims, tensorSizes, Nat.mul_assoc]

theorem rowsBytes_le (type : GgmlType) (d : Dims) : rowsBytes type d ≤ exactBytes type d := by
  unfold rowsBytes exactBytes
  rw [Nat.le_div_iff_mul_le type.blckSize_pos]
  calc type.typeSize * d.n0 / type.blckSize * (d.n1 * d.n2 * d.n3) * type.blckSize
      = type.typeSize * d.n0 / type.blckSize * type.blckSize * (d.n1 * d.n2 * d.n3) := by ring
    _ ≤ type.typeSize * d.n0 * (d.n1 * d.n2 * d.n3) := Nat.mul_le_mul_right _ (Nat.div_mul_le_self _ _)
    _ = d.n0 * d.n1 * d.n2 * d.n3 * type.typeSize := by ring

theorem dataSize_of_row (hn : 1 ≤ nDims ∧ nDims ≤ 4) {d : Dims} (hd : dims (tensorSizes nDims ne) = d)
    (hrow : type.blckSize = 1 ∨ type.typeSize * d.n0 < 2 ^ 64 ∨ d.n1 * d.n2 * d.n3 = 0) :
    dataSize type nDims (fun i => ne i) = wrap64 (rowsBytes type d) := by
  rw [dataSize_eq hn hd, rowsBytes]
  rcases hrow with hone | hlt | hzero
  · rw [hone, Nat.div_one, Nat.div_one, wrap64_wrap64_mul]
  · rw [wrap64_of_lt hlt]
  · rw [hzero, Nat.mul_zero, Nat.mul_zero]

/-- A row that is not of type `size_t` leaves the size far too small. -/
theorem dataSize_short (hn : 1 ≤ nDims ∧ nDims ≤ 4) {d : Dims} (hd : dims (tensorSizes nDims ne) = d)
    (hrow : ¬(type.blckSize = 1 ∨ type.typeSize * d.n0 < 2 ^ 64 ∨ d.n1 * d.n2 * d.n3 = 0)) :
    dataSize type nDims (fun i => ne i) + 16 ≤ exactBytes type d := by
  push Not at hrow
  obtain ⟨-, hlarge, hrest⟩ := hrow
  have hblock := type.blckSize_le
  have hmod : wrap64 (type.typeSize * d.n0) + 2 ^ 64 ≤ type.typeSize * d.n0 := by
    unfold wrap64
    omega
  have hone : 1 ≤ d.n1 * d.n2 * d.n3 := Nat.one_le_iff_ne_zero.mpr hrest
  have hcounted := Nat.mod_le (wrap64 (type.typeSize * d.n0) / type.blckSize * (d.n1 * d.n2 * d.n3)) (2 ^ 64)
  rw [dataSize_eq hn hd, exactBytes, Nat.le_div_iff_mul_le type.blckSize_pos]
  unfold wrap64 at hcounted hmod ⊢
  set rest := d.n1 * d.n2 * d.n3 with hdef
  set row := type.typeSize * d.n0 with hrowdef
  set counted := row % 2 ^ 64 / type.blckSize * rest % 2 ^ 64 with hcounteddef
  calc (counted + 16) * type.blckSize = counted * type.blckSize + 16 * type.blckSize := by ring
    _ ≤ row % 2 ^ 64 / type.blckSize * rest * type.blckSize + 2 ^ 64 * 1 :=
      Nat.add_le_add (Nat.mul_le_mul_right _ hcounted) (by omega)
    _ = row % 2 ^ 64 / type.blckSize * type.blckSize * rest + 2 ^ 64 * 1 := by ring
    _ ≤ row % 2 ^ 64 * rest + 2 ^ 64 * rest :=
      Nat.add_le_add (Nat.mul_le_mul_right _ (Nat.div_mul_le_self _ _)) (Nat.mul_le_mul_left _ hone)
    _ = (row % 2 ^ 64 + 2 ^ 64) * rest := by ring
    _ ≤ row * rest := Nat.mul_le_mul_right _ hmod
    _ = d.n0 * d.n1 * d.n2 * d.n3 * type.typeSize := by rw [hdef, hrowdef]; ring

theorem wrap64_pad16 (x : ℕ) : wrap64 (pad16 (wrap64 x)) = wrap64 (pad16 x) := by
  unfold wrap64 pad16
  omega

theorem wrap64_dvd {x : ℕ} (h : 16 ∣ x) : 16 ∣ wrap64 x := by
  unfold wrap64
  omega

theorem tensorSize_eq (hn : 1 ≤ nDims ∧ nDims ≤ 4) {d : Dims} (hd : dims (tensorSizes nDims ne) = d)
    (hrow : type.blckSize = 1 ∨ type.typeSize * d.n0 < 2 ^ 64 ∨ d.n1 * d.n2 * d.n3 = 0) :
    wrap64 (pad16 (ggmlTensorSize + dataSize type nDims (fun i => ne i))) =
      wrap64 (pad16 (ggmlTensorSize + rowsBytes type d)) := by
  have hsum : wrap64 (ggmlTensorSize + wrap64 (rowsBytes type d)) = wrap64 (ggmlTensorSize + rowsBytes type d) :=
    Nat.add_mod_mod _ _ _
  rw [dataSize_of_row hn hd hrow, ← wrap64_pad16, hsum, wrap64_pad16]

end Sizes

section Requests

variable {noAlloc : Bool} {ctx ctx' : Context} {req : Request} {r : Returned} {s : PoolState}

def requestedSize (noAlloc : Bool) : Request → ℕ
  | .object _ size => size
  | .tensor type nDims ne => wrap64 (ggmlTensorSize + objAllocSize noAlloc type nDims ne)

theorem newObject_ok {type : ObjectType} {size : ℕ} {obj : ContextObject}
    (h : ggmlNewObject ctx type size = .ok (ctx', obj)) :
    obj = ⟨wrap64 (curEnd ctx.objects + 32), wrap64 (pad16 size), type⟩ ∧
      ctx' = { ctx with objects := obj :: ctx.objects } ∧
      wrap64 (curEnd ctx.objects + wrap64 (pad16 size) + 32) ≤ ctx.memSize := by
  have halign : ggmlMemAlign = 16 := rfl
  have hheader : ggmlObjectSize = 32 := rfl
  unfold ggmlNewObject at h
  rw [ggmlPad_memAlign, hheader] at h
  dsimp only at h
  split_ifs at h with hfull hplaced
  cases h
  exact ⟨rfl, rfl, not_lt.mp hfull⟩

/-- What a request returns, around the object. -/
def Answers (noAlloc : Bool) (r : Returned) : Request → Prop
  | .object _ size => r = .object size r.obj
  | .tensor type nDims ne =>
    (1 ≤ nDims ∧ nDims ≤ 4) ∧ r = .tensor ⟨⟨type, tensorSizes nDims ne, newStrides type (tensorSizes nDims ne)⟩, r.obj,
      if 0 < objAllocSize noAlloc type nDims ne then some (r.obj.offs + ggmlTensorSize) else none⟩

theorem request_ok (h : request ctx req = .ok (ctx', r)) :
    (∃ type, ggmlNewObject ctx type (requestedSize ctx.noAlloc req) = .ok (ctx', r.obj)) ∧
      Answers ctx.noAlloc r req := by
  cases req with
  | object type size =>
    simp only [request] at h
    cases hobj : ggmlNewObject ctx type size with
    | error e =>
      rw [hobj] at h
      cases h
    | ok p =>
      rw [hobj] at h
      cases h
      exact ⟨⟨type, hobj⟩, rfl⟩
  | tensor type nDims ne =>
    simp only [request, ggmlNewTensor] at h
    by_cases hdims : 1 ≤ nDims ∧ nDims ≤ 4
    · rw [if_pos hdims] at h
      cases hobj : ggmlNewObject ctx .tensor (wrap64 (ggmlTensorSize + objAllocSize ctx.noAlloc type nDims ne)) with
      | error e =>
        rw [hobj] at h
        cases h
      | ok p =>
        rw [hobj] at h
        cases h
        exact ⟨⟨.tensor, hobj⟩, hdims, rfl⟩
    · rw [if_neg hdims] at h
      cases h

theorem objectSize_eq (hr : Answers noAlloc r req) (h : RowsCounted noAlloc req) :
    wrap64 (pad16 (requestedSize noAlloc req)) = wrap64 (pad16 (neededBytes noAlloc req)) := by
  cases req with
  | object type size => rfl
  | tensor type nDims ne =>
    obtain ⟨hdims, -⟩ := hr
    simp only [requestedSize, neededBytes, objAllocSize]
    rw [wrap64_pad16]
    cases noAlloc with
    | true => rfl
    | false =>
      obtain ⟨hpad, hrow⟩ := h.resolve_left Bool.false_ne_true
      simp only [Bool.false_eq_true, if_false]
      rw [tensorSize_eq hdims rfl hrow, hpad]

theorem rowsCounted_of_room (hr : Answers noAlloc r req)
    (h : neededBytes noAlloc req ≤ wrap64 (pad16 (requestedSize noAlloc req))) :
    RowsCounted noAlloc req ∧ pad16 (neededBytes noAlloc req) = wrap64 (pad16 (requestedSize noAlloc req)) := by
  have hle : wrap64 (pad16 (requestedSize noAlloc req)) ≤ pad16 (requestedSize noAlloc req) := Nat.mod_le _ _
  have hneeded := pad16_le h (wrap64_dvd (le_pad16 _).2.2)
  cases req with
  | object type size => exact ⟨trivial, le_antisymm hneeded hle⟩
  | tensor type nDims ne =>
    obtain ⟨hdims, -⟩ := hr
    cases noAlloc with
    | true => exact ⟨.inl rfl, le_antisymm hneeded hle⟩
    | false =>
      simp only [requestedSize, neededBytes, objAllocSize, RowsCounted, Bool.false_eq_true, if_false, false_or]
        at h hle hneeded ⊢
      rw [wrap64_pad16] at h hle hneeded ⊢
      set d := dims (tensorSizes nDims ne) with hd
      have hlimit := Nat.mod_le (pad16 (ggmlTensorSize + dataSize type nDims fun i => ne i)) (2 ^ 64)
      have hpadding := (le_pad16 (ggmlTensorSize + dataSize type nDims fun i => ne i)).2.1
      have hrow : type.blckSize = 1 ∨ type.typeSize * d.n0 < 2 ^ 64 ∨ d.n1 * d.n2 * d.n3 = 0 := by
        by_contra hrow
        have hshort := dataSize_short hdims hd.symm hrow
        unfold wrap64 at h
        omega
      rw [tensorSize_eq hdims hd.symm hrow] at hneeded ⊢
      have hrows : pad16 (ggmlTensorSize + rowsBytes type d) ≤ pad16 (ggmlTensorSize + exactBytes type d) :=
        pad16_le ((Nat.add_le_add_left (rowsBytes_le type d) _).trans (le_pad16 _).1) (le_pad16 _).2.2
      have hcounted : wrap64 (pad16 (ggmlTensorSize + rowsBytes type d)) ≤ pad16 (ggmlTensorSize + rowsBytes type d) :=
        Nat.mod_le _ _
      exact ⟨⟨by omega, hrow⟩, by omega⟩

theorem hasRoom_iff (hr : Answers noAlloc r req) (hsize : r.obj.size = wrap64 (pad16 (requestedSize noAlloc req))) :
    r.HasRoom noAlloc ↔ neededBytes noAlloc req ≤ r.obj.size := by
  cases req with
  | object type size =>
    rw [show r = .object size r.obj from hr]
    rfl
  | tensor type nDims ne =>
    obtain ⟨-, hanswer⟩ := hr
    obtain ⟨obj, hobj⟩ : ∃ obj, r.obj = obj := ⟨_, rfl⟩
    rw [hobj] at hanswer hsize ⊢
    subst hanswer
    simp only [Returned.HasRoom, neededBytes]
    set exact := exactBytes type (dims (tensorSizes nDims ne))
    cases noAlloc with
    | true => simp
    | false =>
      simp only [Bool.false_eq_true, if_false, false_or]
      by_cases hbytes : 0 < objAllocSize false type nDims ne
      · rw [if_pos hbytes]
        constructor
        · rintro ⟨hstruct, hzero | ⟨p, hp, hend⟩⟩
          · omega
          · obtain rfl := Option.some.inj hp
            omega
        · intro hle
          exact ⟨by omega, .inr ⟨_, rfl, by omega⟩⟩
      · have hstruct : obj.size = ggmlTensorSize := by
          rw [hsize, requestedSize, Nat.eq_zero_of_not_pos hbytes]
          rfl
        rw [if_neg hbytes]
        constructor
        · rintro ⟨-, hzero | ⟨p, hp, -⟩⟩
          · omega
          · cases hp
        · intro hle
          exact ⟨hstruct.ge, .inl (by omega)⟩

end Requests

section Runs

variable {ctx : Context} {req : Request} {r : Returned} {s : PoolState}

structure PoolInv (s : PoolState) : Prop where
  law : PoolLaw s
  memSize : s.ctx.memSize < 2 ^ 64
  below : ∀ r ∈ s.returned, r.obj.offs + r.obj.size ≤ curEnd s.ctx.objects
  inPool : curEnd s.ctx.objects ≤ s.ctx.memSize
  aligned : 16 ∣ curEnd s.ctx.objects
  buffer : 16 ∣ s.ctx.memBuffer

theorem start_inv (h : Start s) : PoolInv s := by
  obtain ⟨params, alignedMalloc, hsize, hinit, hnone⟩ := h
  unfold ggmlInit at hinit
  dsimp only at hinit
  have hrequested : (if params.memSize = 0 then ggmlMemAlign else params.memSize) < 2 ^ 64 := by
    split
    · decide
    · exact hsize
  generalize (if params.memSize = 0 then ggmlMemAlign else params.memSize) = requested at hinit hrequested
  have hmem : (if params.memBuffer = 0 then ggmlPad requested ggmlMemAlign else requested) < 2 ^ 64 := by
    split
    · rw [ggmlPad_memAlign]
      exact wrap64_lt _
    · exact hrequested
  generalize (if params.memBuffer = 0 then ggmlPad requested ggmlMemAlign else requested) = memSize at hinit hmem
  generalize (if params.memBuffer = 0 then alignedMalloc memSize else params.memBuffer) = memBuffer at hinit
  split at hinit
  · rename_i hbuffer
    have hctx := Except.ok.inj hinit
    refine ⟨⟨?_, ?_, ?_, ?_⟩, hctx ▸ hmem, ?_, hctx ▸ Nat.zero_le _, hctx ▸ dvd_zero 16,
      hctx ▸ Nat.dvd_of_mod_eq_zero hbuffer.2⟩
    all_goals rw [hnone]; simp
  · cases hinit

/-- Where the object of a request goes when its size is exact. -/
theorem request_placed (h : request s.ctx req = .ok (ctx, r)) (hexact : SizesExact s req) :
    r.obj.offs = curEnd s.ctx.objects + 32 ∧ r.obj.size = pad16 (neededBytes s.ctx.noAlloc req) ∧
      ctx = { s.ctx with objects := r.obj :: s.ctx.objects } ∧
      curEnd s.ctx.objects + 32 + r.obj.size ≤ s.ctx.memSize := by
  obtain ⟨hrows, hend⟩ := hexact
  obtain ⟨⟨type, hobj⟩, hanswer⟩ := request_ok h
  obtain ⟨heq, hctx, hfits⟩ := newObject_ok hobj
  have hheader : ggmlObjectSize = 32 := rfl
  unfold exactEnd at hend
  rw [hheader] at hend
  have hoffs : r.obj.offs = wrap64 (curEnd s.ctx.objects + 32) := congrArg ContextObject.offs heq
  have hsize : r.obj.size = wrap64 (pad16 (requestedSize s.ctx.noAlloc req)) := congrArg ContextObject.size heq
  have hpad : wrap64 (pad16 (neededBytes s.ctx.noAlloc req)) = pad16 (neededBytes s.ctx.noAlloc req) :=
    wrap64_of_lt (by omega)
  rw [wrap64_of_lt (by omega)] at hoffs
  rw [objectSize_eq hanswer hrows, hpad] at hsize hfits
  rw [wrap64_of_lt (by omega)] at hfits
  exact ⟨hoffs, hsize, hctx, by omega⟩

theorem extent_disjoint {r earlier : Returned} (h : earlier.obj.offs + earlier.obj.size ≤ r.obj.offs - 32)
    (hheader : 32 ≤ earlier.obj.offs) : Disjoint r.extent.points earlier.extent.points := by
  have hsize : ggmlObjectSize = 32 := rfl
  unfold Extent.points Extent.stop Returned.extent
  rw [hsize, Set.Ico_disjoint_Ico]
  dsimp only
  omega

/-- A returned object keeps the law when its size is exact. -/
theorem request_inv (hinv : PoolInv s) (h : request s.ctx req = .ok (ctx, r)) (hexact : SizesExact s req) :
    PoolInv ⟨ctx, r :: s.returned⟩ := by
  have hheader : ggmlObjectSize = 32 := rfl
  have halign : ggmlMemAlign = 16 := rfl
  obtain ⟨hoffs, hsize, rfl, hfits⟩ := request_placed h hexact
  obtain ⟨⟨type, hobj⟩, hanswer⟩ := request_ok h
  have hcounted := congrArg ContextObject.size (newObject_ok hobj).1
  obtain ⟨hroom, -, hdvd⟩ := le_pad16 (neededBytes s.ctx.noAlloc req)
  rw [← hsize] at hroom hdvd
  have hmem := hinv.memSize
  have hcur : curEnd (r.obj :: s.ctx.objects) = r.obj.offs + r.obj.size := wrap64_of_lt (by omega)
  have haligned := hinv.aligned
  have hbuffer := hinv.buffer
  refine ⟨⟨?_, ?_, ?_, ?_⟩, hinv.memSize, ?_, ?_, ?_, hbuffer⟩
  · refine List.forall_mem_cons.mpr ⟨⟨by omega, ?_⟩, hinv.law.inside⟩
    dsimp only
    omega
  · refine List.forall_mem_cons.mpr ⟨?_, hinv.law.aligned⟩
    rw [halign]
    dsimp only
    omega
  · refine List.pairwise_cons.mpr ⟨fun earlier hmem => ?_, hinv.law.apart⟩
    have hbelow := hinv.below earlier hmem
    exact extent_disjoint (by omega) (hinv.law.inside earlier hmem).1
  · exact List.forall_mem_cons.mpr ⟨(hasRoom_iff hanswer hcounted).mpr hroom, hinv.law.room⟩
  · refine List.forall_mem_cons.mpr ⟨hcur.ge, fun earlier hmem => ?_⟩
    have hbelow := hinv.below earlier hmem
    dsimp only
    omega
  · dsimp only
    omega
  · dsimp only
    omega

theorem sizesExact_of_law (hinv : PoolInv s) (h : request s.ctx req = .ok (ctx, r))
    (hlaw : PoolLaw ⟨ctx, r :: s.returned⟩) : SizesExact s req := by
  have hheader : ggmlObjectSize = 32 := rfl
  obtain ⟨⟨type, hobj⟩, hanswer⟩ := request_ok h
  obtain ⟨heq, rfl, -⟩ := newObject_ok hobj
  have hinside := hlaw.inside r List.mem_cons_self
  have hmem := hinv.memSize
  have hpool := hinv.inPool
  have haligned := hinv.aligned
  have hoffs : r.obj.offs = wrap64 (curEnd s.ctx.objects + 32) := congrArg ContextObject.offs heq
  have hsize : r.obj.size = wrap64 (pad16 (requestedSize s.ctx.noAlloc req)) := congrArg ContextObject.size heq
  have hroom := (hasRoom_iff hanswer hsize).mp (hlaw.room r List.mem_cons_self)
  rw [hsize] at hroom
  obtain ⟨hrows, hpad⟩ := rowsCounted_of_room hanswer hroom
  refine ⟨hrows, ?_⟩
  unfold exactEnd
  rw [hheader, hpad, ← hsize]
  rw [hheader] at hinside
  dsimp only at hinside
  unfold wrap64 at hoffs
  omega

theorem request_refused (hexact : SizesExact s req) (hlarge : s.ctx.memSize < exactEnd s.ctx req) :
    ∃ e, request s.ctx req = .error e := by
  cases h : request s.ctx req with
  | error e => exact ⟨e, rfl⟩
  | ok p =>
    obtain ⟨-, hsize, -, hfits⟩ := request_placed h hexact
    have hheader : ggmlObjectSize = 32 := rfl
    unfold exactEnd at hlarge
    rw [hheader, ← hsize] at hlarge
    omega

theorem pool_inv (h : Reachable Start (Admitted SizesExact Step) s) : PoolInv s :=
  h.invariant PoolInv (fun _ => start_inv) (fun _ _ _ hinv hstep => by
    obtain ⟨hexact, hstep⟩ := hstep
    cases hstep with
    | returned hm => exact request_inv hinv hm hexact
    | noSpace hm => exact hinv)

/-- In every run whose requests are of exact sizes the objects keep to the law and what does not fit is refused; an
object of another request breaks the law. -/
theorem pool_requests_hold (h : Reachable Start (Admitted SizesExact Step) s) :
    PoolLaw s ∧
      (∀ req, SizesExact s req → s.ctx.memSize < exactEnd s.ctx req → ∃ e, request s.ctx req = .error e) ∧
      ∀ req ctx r, request s.ctx req = .ok (ctx, r) → PoolLaw ⟨ctx, r :: s.returned⟩ → SizesExact s req :=
  ⟨(pool_inv h).law, fun _ => request_refused, fun _ _ _ => sizesExact_of_law (pool_inv h)⟩

def sixFloats : Request := .tensor .f32 2 ![3, 2, 1, 1]

def sixFloatsPool : PoolState :=
  ⟨⟨1024, 16, false, [⟨32, 368, .tensor⟩]⟩,
    [.tensor ⟨⟨.f32, tensorSizes 2 ![3, 2, 1, 1], newStrides .f32 (tensorSizes 2 ![3, 2, 1, 1])⟩,
      ⟨32, 368, .tensor⟩, some 368⟩]⟩

theorem sixFloatsPool_reachable : Reachable Start (Admitted SizesExact Step) sixFloatsPool := by
  have h0 : Reachable Start (Admitted SizesExact Step) ⟨⟨1024, 16, false, []⟩, []⟩ :=
    .start ⟨⟨1024, 16, false⟩, fun _ => 0, by decide, rfl, rfl⟩
  refine .step (i := sixFloats) h0 ⟨⟨.inr ⟨?_, .inl rfl⟩, ?_⟩, .returned ?_⟩
  · decide
  · decide
  · rfl

theorem pool_requests_hold_six : PoolLaw sixFloatsPool ∧ ∃ e, request sixFloatsPool.ctx (.object .graph 600) = .error e := by
  have h := pool_requests_hold sixFloatsPool_reachable
  exact ⟨h.1, h.2.1 (.object .graph 600) ⟨trivial, by decide⟩ (by decide)⟩

/-- A tensor of `2 ^ 66` bytes gets no data. -/
theorem not_pool_requests_hold : ∃ s, Reachable Start Step s ∧ ¬PoolLaw s := by
  have h0 : Reachable Start Step ⟨⟨2 ^ 20, 4096, false, []⟩, []⟩ :=
    .start ⟨⟨2 ^ 20, 4096, false⟩, fun _ => 0, by decide, rfl, rfl⟩
  have h1 : Reachable Start Step ⟨⟨2 ^ 20, 4096, false, [⟨32, 336, .tensor⟩]⟩,
      [.tensor ⟨⟨.f32, tensorSizes 2 ![2 ^ 62, 4, 1, 1], newStrides .f32 (tensorSizes 2 ![2 ^ 62, 4, 1, 1])⟩,
        ⟨32, 336, .tensor⟩, none⟩]⟩ :=
    .step (i := .tensor .f32 2 ![2 ^ 62, 4, 1, 1]) h0 (.returned rfl)
  refine ⟨_, h1, fun hlaw => ?_⟩
  obtain ⟨-, hroom⟩ := hlaw.room _ List.mem_cons_self
  rcases hroom with hno | hzero | ⟨p, hp, -⟩
  · cases hno
  · exact absurd hzero (by decide)
  · cases hp

end Runs

end PyannoteCpp.ContextPool
