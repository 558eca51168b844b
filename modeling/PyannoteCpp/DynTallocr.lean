import PyannoteCpp.GgmlTensor
import PyannoteCpp.ExtentPacking

set_option autoImplicit false

/-!
# The dynamic tensor allocator

Addresses are offsets inside a chunk. Each chunk keeps its free blocks sorted
by offset and the largest end of an allocation made in it, which is the size
the buffer of the chunk is created with. Offsets and sizes are of type `size_t`.
-/
namespace PyannoteCpp.Tallocr

def maxFreeBlocks : ℕ := 256

def vbufferMaxChunks : ℕ := 16

def sizeMax : ℕ := 2 ^ 64 - 1

structure TallocrChunk where
  freeBlocks : List Extent
  maxSize : ℕ
  deriving DecidableEq

structure DynTallocr where
  alignment : ℕ
  maxChunkSize : ℕ
  chunks : List TallocrChunk
  deriving DecidableEq

structure BufferAddress where
  chunk : ℕ
  offset : ℕ
  deriving DecidableEq

/-- `outOfRange` stands for a chunk or a block that is not there. -/
inductive TallocrAbort where
  | outOfFreeBlocks
  | failedToReserve (size maxAvail : ℕ)
  | outOfRange
  deriving DecidableEq

def toInt64 (n : ℕ) : ℤ := Int.bmod n (2 ^ 64)

def sub64 (a b : ℕ) : ℕ := wrap64 (a + (2 ^ 64 - wrap64 b))

def paddedOffset (offset alignment : ℕ) : ℕ := offset + (alignment - offset % alignment) % alignment

def alignedOffset (offset alignment : ℕ) : ℕ := wrap64 (paddedOffset offset alignment)

def ggmlDynTallocrNew (alignment maxBufferSize : ℕ) : DynTallocr :=
  ⟨alignment, min maxBufferSize (sizeMax / 2), []⟩

def insertBlock (blocks : List Extent) (offset size : ℕ) : Except TallocrAbort (List Extent) :=
  if blocks.length < maxFreeBlocks then
    .ok (blocks.insertIdx (blocks.findIdx (fun block => offset ≤ block.offset)) ⟨offset, size⟩)
  else .error .outOfFreeBlocks

def removeBlock (blocks : List Extent) (i : ℕ) : List Extent := blocks.eraseIdx i

/-- The last chunk a buffer can have takes every size. -/
def newChunk (alloc : DynTallocr) (minSize : ℕ) : Option (DynTallocr × ℕ) :=
  if vbufferMaxChunks ≤ alloc.chunks.length then none
  else
    let size := if alloc.chunks.length = vbufferMaxChunks - 1 then sizeMax / 2 else max minSize alloc.maxChunkSize
    some ({ alloc with chunks := alloc.chunks ++ [⟨[⟨0, size⟩], 0⟩] }, alloc.chunks.length)

/-- Chunk and block of the best fit so far, and the largest block seen. -/
structure BestFit where
  found : Option (ℕ × ℕ)
  maxAvail : ℕ

def fitBlock (size c : ℕ) (s : BestFit × ℕ) (p : Extent × ℕ) : BestFit × ℕ :=
  if size ≤ p.1.size ∧ p.1.size ≤ s.2 then (⟨some (c, p.2), max s.1.maxAvail p.1.size⟩, p.1.size)
  else (⟨s.1.found, max s.1.maxAvail p.1.size⟩, s.2)

/-- All blocks of the chunk but the last one. -/
def fitChunk (size : ℕ) (s : BestFit) (p : TallocrChunk × ℕ) : BestFit :=
  (p.1.freeBlocks.dropLast.zipIdx.foldl (fitBlock size p.2) (s, sizeMax)).1

def bestFitBlock (chunks : List TallocrChunk) (size : ℕ) : BestFit :=
  chunks.zipIdx.foldl (fitChunk size) ⟨none, 0⟩

/-- A negative reuse factor is the memory the chunk would have to grow by. -/
def fitLastBlock (size : ℕ) (s : BestFit × ℤ) (p : TallocrChunk × ℕ) : BestFit × ℤ :=
  match p.1.freeBlocks.getLast? with
  | none => s
  | some block =>
    let reuseFactor := toInt64 (sub64 (sub64 p.1.maxSize block.offset) size)
    let betterReuse := s.2 < 0 ∧ s.2 < reuseFactor
    let betterFit := 0 ≤ reuseFactor ∧ reuseFactor < s.2
    if size ≤ block.size ∧ (betterReuse ∨ betterFit) then
      (⟨some (p.2, p.1.freeBlocks.length - 1), max s.1.maxAvail block.size⟩, reuseFactor)
    else (⟨s.1.found, max s.1.maxAvail block.size⟩, s.2)

def bestLastBlock (chunks : List TallocrChunk) (size maxAvail : ℕ) : BestFit :=
  (chunks.zipIdx.foldl (fitLastBlock size) (⟨none, maxAvail⟩, -2 ^ 63)).1

/-- A block of an existing chunk when one fits, else the block of a new chunk. -/
def chooseBlock (alloc : DynTallocr) (size : ℕ) : Except TallocrAbort (DynTallocr × ℕ × ℕ) :=
  match (bestFitBlock alloc.chunks size).found with
  | some (c, i) => .ok (alloc, c, i)
  | none =>
    let last := bestLastBlock alloc.chunks size (bestFitBlock alloc.chunks size).maxAvail
    match last.found with
    | some (c, i) => .ok (alloc, c, i)
    | none =>
      match newChunk alloc size with
      | some (alloc, c) => .ok (alloc, c, 0)
      | none => .error (.failedToReserve size last.maxAvail)

def takeBlock (blocks : List Extent) (i : ℕ) (block : Extent) (size : ℕ) : List Extent :=
  if sub64 block.size size = 0 then removeBlock blocks i
  else blocks.set i ⟨wrap64 (block.offset + size), sub64 block.size size⟩

def ggmlDynTallocrAlloc (alloc : DynTallocr) (size : ℕ) : Except TallocrAbort (DynTallocr × BufferAddress) :=
  let size := alignedOffset size alloc.alignment
  match chooseBlock alloc size with
  | .error e => .error e
  | .ok (alloc, c, i) =>
    match alloc.chunks[c]? with
    | none => .error .outOfRange
    | some chunk =>
      match chunk.freeBlocks[i]? with
      | none => .error .outOfRange
      | some block =>
        .ok ({ alloc with
          chunks := alloc.chunks.set c
            ⟨takeBlock chunk.freeBlocks i block size, max chunk.maxSize (wrap64 (block.offset + size))⟩ },
          ⟨c, block.offset⟩)

/-- The blocks after the block at `i` was merged with its successor, where that one starts at its end. -/
def mergeNext (blocks : List Extent) (i : ℕ) (block : Extent) : List Extent :=
  match blocks[i + 1]? with
  | none => blocks.set i block
  | some next =>
    if wrap64 (block.offset + block.size) = next.offset then
      removeBlock (blocks.set i ⟨block.offset, wrap64 (block.size + next.size)⟩) (i + 1)
    else blocks.set i block

/-- The blocks after the block at `i` was merged with its predecessor, where that one ends at its start. -/
def mergePrev (blocks : List Extent) (i : ℕ) (block : Extent) : List Extent :=
  match i with
  | 0 => blocks.set 0 block
  | i + 1 =>
    match blocks[i]? with
    | none => blocks.set (i + 1) block
    | some prev =>
      if wrap64 (prev.offset + prev.size) = block.offset then
        removeBlock (blocks.set i ⟨prev.offset, wrap64 (prev.size + block.size)⟩) (i + 1)
      else blocks.set (i + 1) block

/-- One round of the search for a block to merge the freed bytes with. -/
def mergeBlock (blocks : List Extent) (offset size i : ℕ) : Option (List Extent) :=
  match blocks[i]? with
  | none => none
  | some block =>
    if wrap64 (block.offset + block.size) = offset then
      some (mergeNext blocks i ⟨block.offset, wrap64 (block.size + size)⟩)
    else if wrap64 (offset + size) = block.offset then
      some (mergePrev blocks i ⟨offset, wrap64 (block.size + size)⟩)
    else none

def freeBlocks (blocks : List Extent) (offset size : ℕ) : Except TallocrAbort (List Extent) :=
  match (List.range blocks.length).findSome? (mergeBlock blocks offset size) with
  | some merged => .ok merged
  | none => insertBlock blocks offset size

def ggmlDynTallocrFreeBytes (alloc : DynTallocr) (addr : BufferAddress) (size : ℕ) :
    Except TallocrAbort DynTallocr :=
  match alloc.chunks[addr.chunk]? with
  | none => .error .outOfRange
  | some chunk =>
    match freeBlocks chunk.freeBlocks addr.offset (alignedOffset size alloc.alignment) with
    | .error e => .error e
    | .ok blocks => .ok { alloc with chunks := alloc.chunks.set addr.chunk ⟨blocks, chunk.maxSize⟩ }

def vbufferChunks {Buffer : Type} (allocBuffer : ℕ → Option Buffer) : List TallocrChunk → Option (List Buffer)
  | [] => some []
  | chunk :: chunks =>
    match allocBuffer chunk.maxSize with
    | none => none
    | some buffer => (vbufferChunks allocBuffer chunks).map (fun buffers => buffer :: buffers)

def ggmlVbufferAlloc {Buffer : Type} (allocBuffer : ℕ → Option Buffer) (talloc : DynTallocr) :
    Option (List Buffer) :=
  vbufferChunks allocBuffer talloc.chunks

theorem sub64_of_le {a b : ℕ} (h : b ≤ a) (ha : a < 2 ^ 64) : sub64 a b = a - b := by
  have hb : wrap64 b = b := wrap64_of_lt (h.trans_lt ha)
  unfold sub64
  rw [hb]
  unfold wrap64
  omega

theorem le_paddedOffset (offset alignment : ℕ) : offset ≤ paddedOffset offset alignment := Nat.le_add_right _ _

theorem dvd_paddedOffset (offset : ℕ) {alignment : ℕ} (h : 0 < alignment) :
    alignment ∣ paddedOffset offset alignment := by
  unfold paddedOffset
  have hlt := Nat.mod_lt offset h
  apply Nat.dvd_of_mod_eq_zero
  rw [Nat.add_mod, Nat.mod_mod]
  rcases Nat.eq_zero_or_pos (offset % alignment) with hz | hp
  · rw [hz, Nat.sub_zero, Nat.mod_self, Nat.zero_add, Nat.zero_mod]
  · rw [Nat.mod_eq_of_lt (show alignment - offset % alignment < alignment by omega),
      Nat.add_sub_cancel' hlt.le, Nat.mod_self]

end PyannoteCpp.Tallocr
