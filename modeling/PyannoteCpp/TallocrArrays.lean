import PyannoteCpp.TallocrFreeLists
import PyannoteCpp.TallocrRuns
import PyannoteCpp.VectorShifts

set_option autoImplicit false

/-!
# The free blocks as an array

A chunk keeps its free blocks in an array of fixed length, and the calls move
them there with checked indices. What they do to the first `n_free_blocks`
cells is what the calls on lists do, as long as no index leaves the array.
-/
namespace PyannoteCpp.Tallocr
open CheckedVector VectorShifts

inductive ArrayStop where
  | abort (reason : TallocrAbort)
  | fault (reason : Fault)
  deriving DecidableEq

structure ArrayChunk where
  freeBlocks : List Extent
  nFreeBlocks : ℕ
  maxSize : ℕ

structure ArrayTallocr where
  alignment : ℕ
  maxChunkSize : ℕ
  chunks : List ArrayChunk

def access {α : Type} : Except Fault α → Except ArrayStop α
  | .ok a => .ok a
  | .error e => .error (.fault e)

namespace ArrayChunk

/-- The search for the position, with the blocks that are left. -/
def insertPos (freeBlocks : List Extent) (offset : ℕ) : ℕ → ℕ → Except Fault ℕ
  | 0, pos => .ok pos
  | left + 1, pos => do
    let block ← readAt freeBlocks pos
    if block.offset < offset then insertPos freeBlocks offset left (pos + 1) else .ok pos

def insertBlock (chunk : ArrayChunk) (offset size : ℕ) : Except ArrayStop ArrayChunk :=
  if chunk.nFreeBlocks < maxFreeBlocks then do
    let pos ← access (insertPos chunk.freeBlocks offset chunk.nFreeBlocks 0)
    let shifted ← access (shiftUp chunk.freeBlocks pos (chunk.nFreeBlocks - pos))
    let freeBlocks ← access (writeAt shifted pos ⟨offset, size⟩)
    .ok ⟨freeBlocks, chunk.nFreeBlocks + 1, chunk.maxSize⟩
  else .error (.abort .outOfFreeBlocks)

def removeBlock (chunk : ArrayChunk) (i : ℕ) : Except Fault ArrayChunk := do
  let freeBlocks ← shiftDown chunk.freeBlocks i (chunk.nFreeBlocks - i)
  .ok ⟨freeBlocks, chunk.nFreeBlocks - 1, chunk.maxSize⟩

/-- The best fit among all blocks but the last one. -/
def fit (size : ℕ) (s : BestFit) (p : ArrayChunk × ℕ) : Except Fault BestFit := do
  let s ← (List.range (p.1.nFreeBlocks - 1)).foldlM (fun s (i : ℕ) => do
    let block ← readAt p.1.freeBlocks i
    pure (fitBlock size p.2 s (block, i))) (s, sizeMax)
  .ok s.1

def fitLast (size : ℕ) (s : BestFit × ℤ) (p : ArrayChunk × ℕ) : Except Fault (BestFit × ℤ) :=
  if 0 < p.1.nFreeBlocks then do
    let block ← readAt p.1.freeBlocks (p.1.nFreeBlocks - 1 : ℕ)
    let reuseFactor := toInt64 (sub64 (sub64 p.1.maxSize block.offset) size)
    let betterReuse := s.2 < 0 ∧ s.2 < reuseFactor
    let betterFit := 0 ≤ reuseFactor ∧ reuseFactor < s.2
    if size ≤ block.size ∧ (betterReuse ∨ betterFit) then
      .ok (⟨some (p.2, p.1.nFreeBlocks - 1), max s.1.maxAvail block.size⟩, reuseFactor)
    else .ok (⟨s.1.found, max s.1.maxAvail block.size⟩, s.2)
  else .ok s

def takeBlock (chunk : ArrayChunk) (i size : ℕ) : Except Fault (ArrayChunk × ℕ) := do
  let block ← readAt chunk.freeBlocks i
  let taken : Extent := ⟨wrap64 (block.offset + size), sub64 block.size size⟩
  let freeBlocks ← writeAt chunk.freeBlocks i taken
  let chunk : ArrayChunk := ⟨freeBlocks, chunk.nFreeBlocks, max chunk.maxSize (wrap64 (block.offset + size))⟩
  if taken.size = 0 then do
    let chunk ← removeBlock chunk i
    .ok (chunk, block.offset)
  else .ok (chunk, block.offset)

/-- Puts the block at `i` and merges it with the next one, where that one starts at its end. -/
def mergeNext (chunk : ArrayChunk) (i : ℕ) (block : Extent) : Except Fault ArrayChunk := do
  let freeBlocks ← writeAt chunk.freeBlocks i block
  if i + 1 < chunk.nFreeBlocks then do
    let next ← readAt freeBlocks (i + 1 : ℕ)
    if wrap64 (block.offset + block.size) = next.offset then do
      let freeBlocks ← writeAt freeBlocks i ⟨block.offset, wrap64 (block.size + next.size)⟩
      removeBlock ⟨freeBlocks, chunk.nFreeBlocks, chunk.maxSize⟩ (i + 1)
    else .ok ⟨freeBlocks, chunk.nFreeBlocks, chunk.maxSize⟩
  else .ok ⟨freeBlocks, chunk.nFreeBlocks, chunk.maxSize⟩

/-- Puts the block at `i` and merges it with the previous one, where that one ends at its start. -/
def mergePrev (chunk : ArrayChunk) (i : ℕ) (block : Extent) : Except Fault ArrayChunk := do
  let freeBlocks ← writeAt chunk.freeBlocks i block
  if 0 < i then do
    let prev ← readAt freeBlocks (i - 1 : ℕ)
    if wrap64 (prev.offset + prev.size) = block.offset then do
      let freeBlocks ← writeAt freeBlocks (i - 1 : ℕ) ⟨prev.offset, wrap64 (prev.size + block.size)⟩
      removeBlock ⟨freeBlocks, chunk.nFreeBlocks, chunk.maxSize⟩ i
    else .ok ⟨freeBlocks, chunk.nFreeBlocks, chunk.maxSize⟩
  else .ok ⟨freeBlocks, chunk.nFreeBlocks, chunk.maxSize⟩

/-- The search for a block to merge with, with the blocks that are left. -/
def merge (chunk : ArrayChunk) (offset size : ℕ) : ℕ → ℕ → Except Fault (Option ArrayChunk)
  | 0, _ => .ok none
  | left + 1, i => do
    let block ← readAt chunk.freeBlocks i
    if wrap64 (block.offset + block.size) = offset then do
      let merged ← mergeNext chunk i ⟨block.offset, wrap64 (block.size + size)⟩
      .ok (some merged)
    else if wrap64 (offset + size) = block.offset then do
      let merged ← mergePrev chunk i ⟨offset, wrap64 (block.size + size)⟩
      .ok (some merged)
    else merge chunk offset size left (i + 1)

def freeBytes (chunk : ArrayChunk) (offset size : ℕ) : Except ArrayStop ArrayChunk := do
  match ← access (merge chunk offset size chunk.nFreeBlocks 0) with
  | some merged => .ok merged
  | none => insertBlock chunk offset size

end ArrayChunk

namespace ArrayTallocr

def newChunk (alloc : ArrayTallocr) (minSize : ℕ) : Except Fault (Option (ArrayTallocr × ℕ)) :=
  if vbufferMaxChunks ≤ alloc.chunks.length then .ok none
  else do
    let size := if alloc.chunks.length = vbufferMaxChunks - 1 then sizeMax / 2 else max minSize alloc.maxChunkSize
    let freeBlocks ← writeAt (List.replicate maxFreeBlocks ⟨0, 0⟩) (0 : ℕ) ⟨0, size⟩
    .ok (some (⟨alloc.alignment, alloc.maxChunkSize, alloc.chunks ++ [⟨freeBlocks, 1, 0⟩]⟩, alloc.chunks.length))

def bestFit (alloc : ArrayTallocr) (size : ℕ) : Except Fault BestFit :=
  alloc.chunks.zipIdx.foldlM (ArrayChunk.fit size) ⟨none, 0⟩

def bestLast (alloc : ArrayTallocr) (size maxAvail : ℕ) : Except Fault BestFit := do
  let s ← alloc.chunks.zipIdx.foldlM (ArrayChunk.fitLast size) (⟨none, maxAvail⟩, -2 ^ 63)
  .ok s.1

def chooseBlock (alloc : ArrayTallocr) (size : ℕ) : Except ArrayStop (ArrayTallocr × ℕ × ℕ) := do
  let best ← access (alloc.bestFit size)
  match best.found with
  | some (c, i) => .ok (alloc, c, i)
  | none =>
    let last ← access (alloc.bestLast size best.maxAvail)
    match last.found with
    | some (c, i) => .ok (alloc, c, i)
    | none =>
      match ← access (alloc.newChunk size) with
      | some (alloc, c) => .ok (alloc, c, 0)
      | none => .error (.abort (.failedToReserve size last.maxAvail))

def tallocrAlloc (alloc : ArrayTallocr) (size : ℕ) : Except ArrayStop (ArrayTallocr × BufferAddress) := do
  let size := alignedOffset size alloc.alignment
  let (alloc, c, i) ← alloc.chooseBlock size
  match alloc.chunks[c]? with
  | none => .error (.abort .outOfRange)
  | some chunk =>
    let (chunk, offset) ← access (chunk.takeBlock i size)
    .ok (⟨alloc.alignment, alloc.maxChunkSize, alloc.chunks.set c chunk⟩, ⟨c, offset⟩)

def tallocrFreeBytes (alloc : ArrayTallocr) (addr : BufferAddress) (size : ℕ) : Except ArrayStop ArrayTallocr :=
  match alloc.chunks[addr.chunk]? with
  | none => .error (.abort .outOfRange)
  | some chunk => do
    let chunk ← chunk.freeBytes addr.offset (alignedOffset size alloc.alignment)
    .ok ⟨alloc.alignment, alloc.maxChunkSize, alloc.chunks.set addr.chunk chunk⟩

end ArrayTallocr

/-- The array call ends as the call on lists does. -/
def Simulates {α β : Type} (p : Except ArrayStop α) (q : Except TallocrAbort β) (R : α → β → Prop) : Prop :=
  match q with
  | .ok b => ∃ a, p = .ok a ∧ R a b
  | .error e => p = .error (.abort e)

theorem access_bind {α β : Type} (a : α) (next : α → Except ArrayStop β) : access (.ok a) >>= next = next a := rfl

namespace ArrayChunk

def Holds (c : ArrayChunk) (chunk : TallocrChunk) : Prop :=
  ∃ back, c = ⟨chunk.freeBlocks ++ back, chunk.freeBlocks.length, chunk.maxSize⟩ ∧
    chunk.freeBlocks.length + back.length = maxFreeBlocks

section Shifts

variable {c : ArrayChunk} {blocks front rest : List Extent} {b : Extent} {maxSize : ℕ}

theorem insertPos_ok (front rest back : List Extent) (offset : ℕ) :
    insertPos (front ++ (rest ++ back)) offset rest.length front.length =
      .ok (front.length + rest.findIdx (fun block => offset ≤ block.offset)) := by
  induction rest generalizing front with
  | nil => rfl
  | cons block rest ih =>
    have hread := readAt_middle front (rest ++ back) block
    rw [List.cons_append, List.length_cons, insertPos, hread, ok_bind, List.findIdx_cons]
    by_cases hbelow : block.offset < offset
    · have hnext := ih (front ++ [block])
      rw [List.append_assoc, List.singleton_append, List.length_append, List.length_singleton] at hnext
      rw [if_pos hbelow, hnext, decide_eq_false (by omega), cond_false, Nat.add_right_comm, Nat.add_assoc]
    · rw [if_neg hbelow, decide_eq_true (by omega), cond_true, Nat.add_zero]

theorem insertBlock_simulates (h : Holds c ⟨blocks, maxSize⟩) (offset size : ℕ) :
    Simulates (c.insertBlock offset size) (Tallocr.insertBlock blocks offset size)
      (fun c' blocks' => Holds c' ⟨blocks', maxSize⟩) := by
  obtain ⟨back, rfl, hlength⟩ := h
  unfold insertBlock Tallocr.insertBlock
  dsimp only at hlength ⊢
  split_ifs with hroom
  · cases back with
    | nil =>
      rw [List.length_nil] at hlength
      omega
    | cons x back =>
      have hpos := insertPos_ok [] blocks (x :: back) offset
      rw [List.nil_append, List.length_nil, Nat.zero_add] at hpos
      set pos := blocks.findIdx (fun block => decide (offset ≤ block.offset)) with hdef
      have hle : pos ≤ blocks.length := List.findIdx_le_length
      have htake : (blocks.take pos).length = pos := List.length_take_of_le hle
      have hdrop : (blocks.drop pos).length = blocks.length - pos := List.length_drop
      obtain ⟨y, hshift⟩ := shiftUp_ok (blocks.take pos) (blocks.drop pos) x back
      have hwrite := writeAt_middle (blocks.take pos) (blocks.drop pos ++ back) y ⟨offset, size⟩
      have hinsert := insertIdx_middle (blocks.take pos) (blocks.drop pos) (⟨offset, size⟩ : Extent)
      rw [List.take_append_drop, htake, hdrop] at hshift
      rw [htake] at hwrite
      rw [List.take_append_drop, htake] at hinsert
      refine ⟨⟨blocks.take pos ++ ⟨offset, size⟩ :: (blocks.drop pos ++ back), blocks.length + 1, maxSize⟩, ?_, back, ?_, ?_⟩
      · rw [hpos, access_bind, hshift, access_bind, hwrite, access_bind]
      · rw [List.length_insertIdx_of_le_length hle, hinsert, List.append_assoc, List.cons_append]
      · rw [List.length_cons] at hlength
        rw [List.length_insertIdx_of_le_length hle]
        omega
  · rfl

theorem removeBlock_ok (h : Holds c ⟨front ++ b :: rest, maxSize⟩) (hroom : (front ++ b :: rest).length < maxFreeBlocks) :
    ∃ c', c.removeBlock front.length = .ok c' ∧ Holds c' ⟨front ++ rest, maxSize⟩ := by
  obtain ⟨back, rfl, hlength⟩ := h
  dsimp only at hlength ⊢
  cases back with
  | nil =>
    rw [List.length_nil] at hlength
    omega
  | cons y back =>
    obtain ⟨z, hshift⟩ := shiftDown_ok front b (rest ++ [y]) back
    have hcount : (front ++ b :: rest).length - front.length = (rest ++ [y]).length := by simp
    have harray : front ++ b :: rest ++ y :: back = front ++ b :: (rest ++ [y] ++ back) := by simp
    refine ⟨⟨front ++ (rest ++ [y]) ++ z :: back, (front ++ rest).length, maxSize⟩, ?_, y :: z :: back, ?_, ?_⟩
    · unfold removeBlock
      dsimp only
      rw [hcount, harray, hshift, ok_bind]
      simp
    · simp
    · simp at hlength ⊢
      omega

theorem removeBlock_full (h : Holds c ⟨front ++ b :: rest, maxSize⟩)
    (hfull : (front ++ b :: rest).length = maxFreeBlocks) : c.removeBlock front.length = .error .outOfBounds := by
  obtain ⟨back, rfl, hlength⟩ := h
  dsimp only at hlength ⊢
  obtain rfl : back = [] := List.eq_nil_of_length_eq_zero (by omega)
  have hcount : (front ++ b :: rest).length - front.length = rest.length + 1 := by simp
  have hleaves := shiftDown_leaves front b rest
  unfold removeBlock
  dsimp only
  rw [List.append_nil, hcount, hleaves]
  rfl

theorem length_replaced (front rest : List Extent) (b x : Extent) :
    (front ++ x :: rest).length = (front ++ b :: rest).length := by
  rw [List.length_append, List.length_append, List.length_cons, List.length_cons]

theorem Holds.read (h : Holds c ⟨front ++ b :: rest, maxSize⟩) : readAt c.freeBlocks front.length = .ok b := by
  obtain ⟨back, rfl, -⟩ := h
  dsimp only
  rw [List.append_assoc, List.cons_append]
  exact readAt_middle front (rest ++ back) b

theorem Holds.write (h : Holds c ⟨front ++ b :: rest, maxSize⟩) (x : Extent) (maxSize' : ℕ) :
    ∃ freeBlocks, writeAt c.freeBlocks front.length x = .ok freeBlocks ∧
      Holds ⟨freeBlocks, c.nFreeBlocks, maxSize'⟩ ⟨front ++ x :: rest, maxSize'⟩ := by
  obtain ⟨back, rfl, hlength⟩ := h
  have hwrite := writeAt_middle front (rest ++ back) b x
  have hcount := length_replaced front rest b x
  refine ⟨front ++ x :: (rest ++ back), ?_, back, ?_, ?_⟩
  · dsimp only
    rw [List.append_assoc, List.cons_append, hwrite]
  · dsimp only
    rw [hcount, List.append_assoc, List.cons_append]
  · dsimp only at hlength ⊢
    rw [hcount, hlength]

end Shifts

section Taking

variable {c : ArrayChunk} {front rest : List Extent} {b : Extent} {maxSize n : ℕ}

theorem takeBlock_ok (h : Holds c ⟨front ++ b :: rest, maxSize⟩)
    (hroom : sub64 b.size n = 0 → (front ++ b :: rest).length < maxFreeBlocks) :
    ∃ c', c.takeBlock front.length n = .ok (c', b.offset) ∧
      Holds c' ⟨Tallocr.takeBlock (front ++ b :: rest) front.length b n, max maxSize (wrap64 (b.offset + n))⟩ := by
  have hmax : c.maxSize = maxSize := by
    obtain ⟨back, rfl, -⟩ := h
    rfl
  have hread := h.read
  obtain ⟨freeBlocks, hwrite, hholds⟩ :=
    h.write ⟨wrap64 (b.offset + n), sub64 b.size n⟩ (max maxSize (wrap64 (b.offset + n)))
  unfold takeBlock Tallocr.takeBlock Tallocr.removeBlock
  rw [hread, ok_bind]
  dsimp only
  rw [hwrite, ok_bind, hmax, eraseIdx_middle, set_middle]
  by_cases hempty : sub64 b.size n = 0
  · obtain ⟨c', hremove, hleft⟩ := removeBlock_ok hholds ((length_replaced ..).trans_lt (hroom hempty))
    refine ⟨c', ?_, ?_⟩
    · rw [if_pos hempty, hremove]
      rfl
    · rwa [if_pos hempty]
  · refine ⟨_, if_neg hempty, ?_⟩
    rwa [if_neg hempty]

theorem takeBlock_full (h : Holds c ⟨front ++ b :: rest, maxSize⟩) (hempty : sub64 b.size n = 0)
    (hfull : (front ++ b :: rest).length = maxFreeBlocks) : c.takeBlock front.length n = .error .outOfBounds := by
  have hread := h.read
  obtain ⟨freeBlocks, hwrite, hholds⟩ :=
    h.write ⟨wrap64 (b.offset + n), sub64 b.size n⟩ (max c.maxSize (wrap64 (b.offset + n)))
  have hremove := removeBlock_full hholds ((length_replaced ..).trans hfull)
  unfold takeBlock
  rw [hread, ok_bind]
  dsimp only
  rw [hwrite, ok_bind, if_pos hempty, hremove]
  rfl

end Taking

section Merging

variable {c : ArrayChunk} {blocks front rest : List Extent} {b block : Extent} {maxSize o n : ℕ}

/-- The next block starts where the block ends. -/
def MeetsNext (block : Extent) (rest : List Extent) : Prop :=
  ∃ next ∈ rest.head?, wrap64 (block.offset + block.size) = next.offset

theorem Holds.count {c : ArrayChunk} {chunk : TallocrChunk} (h : Holds c chunk) :
    c.nFreeBlocks = chunk.freeBlocks.length ∧ c.maxSize = chunk.maxSize := by
  obtain ⟨back, rfl, -⟩ := h
  exact ⟨rfl, rfl⟩

theorem removeNext_ok {next : Extent} (h : Holds c ⟨front ++ b :: next :: rest, maxSize⟩)
    (hroom : (front ++ b :: next :: rest).length < maxFreeBlocks) :
    ∃ c', c.removeBlock (front.length + 1) = .ok c' ∧ Holds c' ⟨front ++ b :: rest, maxSize⟩ := by
  have hsplit : front ++ b :: next :: rest = front ++ [b] ++ next :: rest := by simp
  rw [hsplit] at h hroom
  obtain ⟨c', hremove, hleft⟩ := removeBlock_ok h hroom
  rw [List.length_append, List.length_singleton] at hremove
  rw [List.append_assoc, List.singleton_append] at hleft
  exact ⟨c', hremove, hleft⟩

theorem removeNext_full {next : Extent} (h : Holds c ⟨front ++ b :: next :: rest, maxSize⟩)
    (hfull : (front ++ b :: next :: rest).length = maxFreeBlocks) :
    c.removeBlock (front.length + 1) = .error .outOfBounds := by
  have hsplit : front ++ b :: next :: rest = front ++ [b] ++ next :: rest := by simp
  rw [hsplit] at h hfull
  have hremove := removeBlock_full h hfull
  rwa [List.length_append, List.length_singleton] at hremove

/-- The array with the merged block in place, before the next one is removed. -/
theorem Holds.glue {next : Extent} {rest : List Extent} (h : Holds c ⟨front ++ b :: next :: rest, maxSize⟩)
    (block glued : Extent) :
    ∃ freeBlocks glued', writeAt c.freeBlocks front.length block = .ok freeBlocks ∧
      readAt freeBlocks (front.length + 1 : ℕ) = .ok next ∧
      writeAt freeBlocks front.length glued = .ok glued' ∧
      Holds ⟨freeBlocks, c.nFreeBlocks, c.maxSize⟩ ⟨front ++ block :: next :: rest, maxSize⟩ ∧
      Holds ⟨glued', c.nFreeBlocks, c.maxSize⟩ ⟨front ++ glued :: next :: rest, maxSize⟩ := by
  obtain ⟨-, rfl⟩ := h.count
  obtain ⟨freeBlocks, hwrite, hblock⟩ := h.write block c.maxSize
  obtain ⟨glued', hwrite', hglued⟩ := hblock.write glued c.maxSize
  have hnext : Holds ⟨freeBlocks, c.nFreeBlocks, c.maxSize⟩ ⟨front ++ [block] ++ next :: rest, c.maxSize⟩ := by
    rwa [List.append_assoc, List.singleton_append]
  have hread := hnext.read
  rw [List.length_append, List.length_singleton] at hread
  exact ⟨freeBlocks, glued', hwrite, hread, hwrite', hblock, hglued⟩

theorem mergeNext_ok (h : Holds c ⟨front ++ b :: rest, maxSize⟩)
    (hroom : MeetsNext block rest → (front ++ b :: rest).length < maxFreeBlocks) :
    ∃ c', c.mergeNext front.length block = .ok c' ∧
      Holds c' ⟨Tallocr.mergeNext (front ++ b :: rest) front.length block, maxSize⟩ := by
  obtain ⟨hcount, hmax⟩ := h.count
  unfold mergeNext
  rw [mergeNext_middle]
  cases rest with
  | nil =>
    obtain ⟨freeBlocks, hwrite, hblock⟩ := h.write block maxSize
    refine ⟨⟨freeBlocks, c.nFreeBlocks, maxSize⟩, ?_, hblock⟩
    rw [hwrite, ok_bind, if_neg (by rw [hcount]; simp), hmax]
  | cons next rest =>
    obtain ⟨freeBlocks, glued', hwrite, hread, hwrite', hblock, hglued⟩ :=
      h.glue block ⟨block.offset, wrap64 (block.size + next.size)⟩
    rw [hwrite, ok_bind, if_pos (by rw [hcount]; simp), hread, ok_bind]
    by_cases hmeets : wrap64 (block.offset + block.size) = next.offset
    · simp only [if_pos hmeets]
      rw [hwrite', ok_bind]
      exact removeNext_ok hglued ((length_replaced ..).trans_lt (hroom ⟨next, rfl, hmeets⟩))
    · simp only [if_neg hmeets]
      exact ⟨_, rfl, hblock⟩

theorem mergeNext_full (h : Holds c ⟨front ++ b :: rest, maxSize⟩) (hmeets : MeetsNext block rest)
    (hfull : (front ++ b :: rest).length = maxFreeBlocks) : c.mergeNext front.length block = .error .outOfBounds := by
  obtain ⟨hcount, -⟩ := h.count
  obtain ⟨next, hhead, hmeets⟩ := hmeets
  cases rest with
  | nil => cases hhead
  | cons next' rest =>
    obtain rfl : next' = next := Option.some.inj hhead
    obtain ⟨freeBlocks, glued', hwrite, hread, hwrite', -, hglued⟩ :=
      h.glue block ⟨block.offset, wrap64 (block.size + next'.size)⟩
    have hremove := removeNext_full hglued ((length_replaced ..).trans hfull)
    unfold mergeNext
    rw [hwrite, ok_bind, if_pos (by rw [hcount]; simp), hread, ok_bind, if_pos hmeets, hwrite', ok_bind, hremove]

theorem mergePrev_ok (h : Holds c ⟨front ++ b :: rest, maxSize⟩)
    (hfront : ∀ x ∈ front, wrap64 (x.offset + x.size) ≠ block.offset) :
    ∃ c', c.mergePrev front.length block = .ok c' ∧
      Holds c' ⟨Tallocr.mergePrev (front ++ b :: rest) front.length block, maxSize⟩ := by
  obtain ⟨hcount, hmax⟩ := h.count
  obtain ⟨freeBlocks, hwrite, hblock⟩ := h.write block maxSize
  rw [mergePrev_middle hfront]
  refine ⟨⟨freeBlocks, c.nFreeBlocks, maxSize⟩, ?_, hblock⟩
  unfold mergePrev
  rw [hwrite, ok_bind, hmax]
  rcases List.eq_nil_or_concat front with rfl | ⟨init, last, rfl⟩
  · rfl
  · have hlast : wrap64 (last.offset + last.size) ≠ block.offset := hfront last (by simp)
    have hread : readAt freeBlocks init.length = .ok last := by
      have hinit : Holds ⟨freeBlocks, c.nFreeBlocks, maxSize⟩ ⟨init ++ last :: (block :: rest), maxSize⟩ := by
        rwa [List.concat_eq_append, List.append_assoc] at hblock
      exact hinit.read
    rw [List.length_concat, if_pos (by omega), Nat.add_sub_cancel, hread, ok_bind, if_neg hlast]

end Merging

section Freeing

variable {c : ArrayChunk} {blocks front mid rest : List Extent} {b : Extent} {maxSize o n : ℕ}

/-- The block ends or starts at the freed bytes. -/
def Touches (b : Extent) (o n : ℕ) : Prop := wrap64 (b.offset + b.size) = o ∨ wrap64 (o + n) = b.offset

instance (b : Extent) (o n : ℕ) : Decidable (Touches b o n) := inferInstanceAs (Decidable (_ ∨ _))

/-- The freed bytes fill the gap between two blocks, the first of which is the first that they touch. -/
def Joins (blocks : List Extent) (o n : ℕ) : Prop :=
  ∃ front b next rest, blocks = front ++ b :: next :: rest ∧ (∀ x ∈ front, ¬Touches x o n) ∧
    wrap64 (b.offset + b.size) = o ∧ wrap64 (o + n) = next.offset

theorem untouched_or (blocks : List Extent) (o n : ℕ) : (∀ x ∈ blocks, ¬Touches x o n) ∨
    ∃ front b rest, blocks = front ++ b :: rest ∧ (∀ x ∈ front, ¬Touches x o n) ∧ Touches b o n := by
  cases hfind : blocks.find? (fun x => Touches x o n) with
  | none => exact .inl (fun x hx => by simpa using List.find?_eq_none.mp hfind x hx)
  | some b =>
    obtain ⟨htouch, front, rest, rfl, hfront⟩ := List.find?_eq_some_iff_append.mp hfind
    exact .inr ⟨front, b, rest, rfl, fun x hx => by simpa using hfront x hx, by simpa using htouch⟩

theorem merge_pass (h : Holds c ⟨front ++ (mid ++ rest), maxSize⟩) (hmid : ∀ x ∈ mid, ¬Touches x o n) (left : ℕ) :
    c.merge o n (mid.length + left) front.length = c.merge o n left (front.length + mid.length) := by
  induction mid generalizing front with
  | nil => rw [List.length_nil, Nat.zero_add, Nat.add_zero]
  | cons x mid ih =>
    obtain ⟨hx, hmid⟩ := List.forall_mem_cons.mp hmid
    have hread : readAt c.freeBlocks front.length = .ok x := Holds.read h
    have hsplit : front ++ (x :: mid ++ rest) = front ++ [x] ++ (mid ++ rest) := by simp
    rw [hsplit] at h
    have hrest := ih h hmid
    rw [List.length_append, List.length_singleton] at hrest
    rw [List.length_cons, Nat.add_right_comm, merge, hread, ok_bind, if_neg (fun hend => hx (.inl hend)),
      if_neg (fun hstart => hx (.inr hstart)), hrest, Nat.add_assoc, Nat.add_comm 1]

theorem mergeBlock_untouched {i : ℕ} (hi : blocks[i]? = some b) (hb : ¬Touches b o n) :
    mergeBlock blocks o n i = none := by
  unfold mergeBlock
  rw [hi]
  simp only
  rw [if_neg (fun hend => hb (.inl hend)), if_neg (fun hstart => hb (.inr hstart))]

theorem freeBlocks_untouched (h : ∀ x ∈ blocks, ¬Touches x o n) :
    Tallocr.freeBlocks blocks o n = Tallocr.insertBlock blocks o n := by
  have hnone : (List.range blocks.length).findSome? (mergeBlock blocks o n) = none := by
    refine List.findSome?_eq_none_iff.mpr (fun i hi => ?_)
    have hlt := List.mem_range.mp hi
    exact mergeBlock_untouched (List.getElem?_eq_getElem hlt) (h _ (List.getElem_mem hlt))
  unfold Tallocr.freeBlocks
  rw [hnone]

theorem freeBlocks_touched {merged : List Extent} (hfront : ∀ x ∈ front, ¬Touches x o n)
    (hmerge : mergeBlock (front ++ b :: rest) o n front.length = some merged) :
    Tallocr.freeBlocks (front ++ b :: rest) o n = .ok merged := by
  have hrange : List.range (front ++ b :: rest).length =
      List.range front.length ++ front.length :: List.range' (front.length + 1) rest.length := by
    rw [List.length_append, List.length_cons, List.range_eq_range', List.range_eq_range', ← List.range'_append_1,
      Nat.zero_add, List.range'_succ]
  have hfound : (List.range (front ++ b :: rest).length).findSome? (mergeBlock (front ++ b :: rest) o n) = some merged := by
    refine List.findSome?_eq_some_iff.mpr ⟨_, _, _, hrange, hmerge, fun i hi => ?_⟩
    have hlt := List.mem_range.mp hi
    have hget : (front ++ b :: rest)[i]? = some front[i] := by
      rw [List.getElem?_append_left hlt, List.getElem?_eq_getElem hlt]
    exact mergeBlock_untouched hget (hfront _ (List.getElem_mem hlt))
  unfold Tallocr.freeBlocks
  rw [hfound]

theorem merged_end (hend : wrap64 (b.offset + b.size) = o) :
    wrap64 (b.offset + wrap64 (b.size + n)) = wrap64 (o + n) := by
  unfold wrap64 at hend ⊢
  omega

theorem merge_touched (h : Holds c ⟨front ++ b :: rest, maxSize⟩) (hfront : ∀ x ∈ front, ¬Touches x o n) :
    c.merge o n c.nFreeBlocks 0 = c.merge o n (rest.length + 1) front.length ∧
      readAt c.freeBlocks front.length = .ok b := by
  have hpass := @merge_pass c [] front (b :: rest) maxSize o n h hfront (rest.length + 1)
  rw [List.length_nil, Nat.zero_add] at hpass
  refine ⟨?_, h.read⟩
  rw [h.count.1, ← hpass, List.length_append, List.length_cons]

theorem freeBytes_simulates (h : Holds c ⟨blocks, maxSize⟩) (hroom : Joins blocks o n → blocks.length < maxFreeBlocks) :
    Simulates (c.freeBytes o n) (Tallocr.freeBlocks blocks o n) (fun c' blocks' => Holds c' ⟨blocks', maxSize⟩) := by
  rcases untouched_or blocks o n with hnone | ⟨front, b, rest, rfl, hfront, htouch⟩
  · have hpass : c.merge o n blocks.length 0 = .ok none := by
      have hall := @merge_pass c [] blocks [] maxSize o n (by rwa [List.append_nil]) hnone 0
      rw [List.length_nil, Nat.add_zero] at hall
      rw [hall, merge]
    unfold freeBytes
    rw [h.count.1, hpass, access_bind, freeBlocks_untouched hnone]
    exact insertBlock_simulates h o n
  · obtain ⟨hmerge, hread⟩ := merge_touched h hfront
    have hget : (front ++ b :: rest)[front.length]? = some b := getElem?_middle front rest b
    unfold freeBytes
    rw [hmerge, merge, hread, ok_bind]
    by_cases hend : wrap64 (b.offset + b.size) = o
    · obtain ⟨c', hok, hholds⟩ := @mergeNext_ok c front rest b ⟨b.offset, wrap64 (b.size + n)⟩ maxSize h (by
        rintro ⟨next, hhead, hmeets⟩
        obtain ⟨rest, rfl⟩ := List.head?_eq_some_iff.mp hhead
        exact hroom ⟨front, b, next, rest, rfl, hfront, hend, (merged_end hend).symm.trans hmeets⟩)
      rw [if_pos hend, hok, ok_bind, access_bind, freeBlocks_touched hfront (by
        unfold mergeBlock
        rw [hget]
        exact if_pos hend)]
      exact ⟨c', rfl, hholds⟩
    · have hstart := htouch.resolve_left hend
      obtain ⟨c', hok, hholds⟩ := @mergePrev_ok c front rest b ⟨o, wrap64 (b.size + n)⟩ maxSize h
        (fun x hx hx' => hfront x hx (.inl hx'))
      rw [if_neg hend, if_pos hstart, hok, ok_bind, access_bind, freeBlocks_touched hfront (by
        unfold mergeBlock
        rw [hget]
        simp only
        rw [if_neg hend, if_pos hstart])]
      exact ⟨c', rfl, hholds⟩

theorem freeBytes_full (h : Holds c ⟨blocks, maxSize⟩) (hjoins : Joins blocks o n) (hfull : blocks.length = maxFreeBlocks) :
    c.freeBytes o n = .error (.fault .outOfBounds) := by
  obtain ⟨front, b, next, rest, rfl, hfront, hend, hmeets⟩ := hjoins
  obtain ⟨hmerge, hread⟩ := merge_touched h hfront
  have herror := @mergeNext_full c front (next :: rest) b ⟨b.offset, wrap64 (b.size + n)⟩ maxSize h
    ⟨next, rfl, (merged_end hend).trans hmeets⟩ hfull
  unfold freeBytes
  rw [hmerge, merge, hread, ok_bind, if_pos hend, herror]
  rfl

end Freeing

end ArrayChunk

end PyannoteCpp.Tallocr
