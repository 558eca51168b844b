import PyannoteCpp.TallocrArrays

set_option autoImplicit false

/-!
# The indices of the free blocks over whole runs

A call on the arrays ends as the call on the lists does, unless it removes a
block from an array that is full: then the shift reads the cell behind the
last one.
-/
namespace PyannoteCpp.Tallocr
open ReachableStates CheckedVector CheckedLoops VectorShifts

def ArrayChunk.view (c : ArrayChunk) : TallocrChunk := ⟨c.freeBlocks.take c.nFreeBlocks, c.maxSize⟩

theorem ArrayChunk.Holds.view_eq {c : ArrayChunk} {chunk : TallocrChunk} (h : c.Holds chunk) : c.view = chunk := by
  obtain ⟨back, rfl, -⟩ := h
  unfold ArrayChunk.view
  rw [List.take_left]

theorem ArrayChunk.Holds.length_le {c : ArrayChunk} {chunk : TallocrChunk} (h : c.Holds chunk) :
    chunk.freeBlocks.length ≤ maxFreeBlocks := by
  obtain ⟨back, -, hlength⟩ := h
  omega

namespace ArrayTallocr

def view (a : ArrayTallocr) : DynTallocr := ⟨a.alignment, a.maxChunkSize, a.chunks.map ArrayChunk.view⟩

def Sized (a : ArrayTallocr) : Prop := ∀ c ∈ a.chunks, c.Holds c.view

section Search

variable {a : ArrayTallocr} {c : ArrayChunk}

theorem fit_eq (h : c.Holds c.view) (size k : ℕ) (s : BestFit) :
    ArrayChunk.fit size s (c, k) = .ok (fitChunk size s (c.view, k)) := by
  obtain ⟨hcount, -⟩ := h.count
  obtain ⟨back, hc, -⟩ := h
  have harray := congrArg ArrayChunk.freeBlocks hc
  unfold ArrayChunk.fit fitChunk
  dsimp only at harray ⊢
  rw [hcount, harray]
  rcases List.eq_nil_or_concat c.view.freeBlocks with hnil | ⟨init, last, hlast⟩
  · rw [hnil]
    rfl
  · have hread := foldlM_readAt (fitBlock size k) init (last :: back) (s, sizeMax)
    rw [hlast, List.concat_eq_append, List.dropLast_concat, List.length_append, List.length_singleton,
      Nat.add_sub_cancel, List.append_assoc, List.singleton_append, hread]
    rfl

theorem fitLast_eq (h : c.Holds c.view) (size k : ℕ) (s : BestFit × ℤ) :
    ArrayChunk.fitLast size s (c, k) = .ok (fitLastBlock size s (c.view, k)) := by
  obtain ⟨hcount, hmax⟩ := h.count
  obtain ⟨back, hc, -⟩ := h
  have harray := congrArg ArrayChunk.freeBlocks hc
  unfold ArrayChunk.fitLast fitLastBlock
  dsimp only at harray ⊢
  rw [hcount, harray, hmax]
  rcases List.eq_nil_or_concat c.view.freeBlocks with hnil | ⟨init, last, hlast⟩
  · rw [hnil]
    rfl
  · have hread := readAt_middle init back last
    rw [hlast, List.concat_eq_append, List.getLast?_concat, List.length_append, List.length_singleton,
      if_pos (by omega), Nat.add_sub_cancel, List.append_assoc, List.singleton_append, hread, ok_bind]
    dsimp only
    split_ifs <;> rfl

theorem zipIdx_view (a : ArrayTallocr) :
    a.view.chunks.zipIdx = a.chunks.zipIdx.map (fun p => (p.1.view, p.2)) := by
  unfold view
  rw [List.zipIdx_map]
  rfl

theorem bestFit_eq (h : a.Sized) (size : ℕ) : a.bestFit size = .ok (bestFitBlock a.view.chunks size) := by
  unfold bestFit bestFitBlock
  rw [zipIdx_view, List.foldl_map]
  exact foldlM_simulates id a.chunks.zipIdx
    (fun s p hp => fit_eq (h p.1 (List.fst_mem_of_mem_zipIdx hp)) size p.2 s) ⟨none, 0⟩

theorem bestLast_eq (h : a.Sized) (size maxAvail : ℕ) :
    a.bestLast size maxAvail = .ok (bestLastBlock a.view.chunks size maxAvail) := by
  have hloop := foldlM_simulates id a.chunks.zipIdx
    (fun s p hp => fitLast_eq (h p.1 (List.fst_mem_of_mem_zipIdx hp)) size p.2 s) (⟨none, maxAvail⟩, -2 ^ 63)
  unfold bestLast bestLastBlock
  rw [zipIdx_view, List.foldl_map]
  exact congrArg (· >>= fun s => Except.ok s.1) hloop

theorem newChunk_none {size : ℕ} (h : Tallocr.newChunk a.view size = none) : a.newChunk size = .ok none := by
  have hlength : a.view.chunks.length = a.chunks.length := List.length_map _
  unfold Tallocr.newChunk at h
  unfold newChunk
  rw [hlength] at h
  split_ifs at h with hfull
  rw [if_pos hfull]

theorem fresh_holds (size : ℕ) :
    ∃ freeBlocks, writeAt (List.replicate maxFreeBlocks (⟨0, 0⟩ : Extent)) (0 : ℕ) ⟨0, size⟩ = .ok freeBlocks ∧
      ArrayChunk.Holds ⟨freeBlocks, 1, 0⟩ ⟨[⟨0, size⟩], 0⟩ := by
  have hmax : maxFreeBlocks = 255 + 1 := rfl
  refine ⟨⟨0, size⟩ :: List.replicate 255 ⟨0, 0⟩, ?_, List.replicate 255 ⟨0, 0⟩, rfl, ?_⟩
  · rw [hmax, List.replicate_succ]
    exact writeAt_middle [] _ _ _
  · rw [List.length_replicate, List.length_singleton, hmax]

theorem newChunk_some (hsized : a.Sized) {size k : ℕ} {s : DynTallocr} (h : Tallocr.newChunk a.view size = some (s, k)) :
    ∃ a', a.newChunk size = .ok (some (a', k)) ∧ a'.view = s ∧ a'.Sized := by
  have hlength : a.view.chunks.length = a.chunks.length := List.length_map _
  unfold Tallocr.newChunk at h
  rw [hlength] at h
  by_cases hfull : vbufferMaxChunks ≤ a.chunks.length
  · rw [if_pos hfull] at h
    cases h
  · rw [if_neg hfull] at h
    cases h
    obtain ⟨freeBlocks, hwrite, hholds⟩ := fresh_holds
      (if a.chunks.length = vbufferMaxChunks - 1 then sizeMax / 2 else max size a.maxChunkSize)
    refine ⟨⟨a.alignment, a.maxChunkSize, a.chunks ++ [⟨freeBlocks, 1, 0⟩]⟩, ?_, ?_, ?_⟩
    · unfold newChunk
      rw [if_neg hfull]
      dsimp only
      rw [hwrite]
      rfl
    · unfold view
      rw [List.map_append, List.map_singleton, hholds.view_eq]
    · refine List.forall_mem_append.mpr ⟨hsized, List.forall_mem_singleton.mpr ?_⟩
      rwa [hholds.view_eq]

theorem chooseBlock_simulates (h : a.Sized) (size : ℕ) :
    Simulates (a.chooseBlock size) (Tallocr.chooseBlock a.view size)
      (fun p q => p.1.view = q.1 ∧ p.2 = q.2 ∧ p.1.Sized) := by
  unfold chooseBlock Tallocr.chooseBlock
  rw [bestFit_eq h, access_bind]
  cases hbest : (bestFitBlock a.view.chunks size).found with
  | some p => exact ⟨_, rfl, rfl, rfl, h⟩
  | none =>
    simp only
    rw [bestLast_eq h, access_bind]
    cases hlast : (bestLastBlock a.view.chunks size (bestFitBlock a.view.chunks size).maxAvail).found with
    | some p => exact ⟨_, rfl, rfl, rfl, h⟩
    | none =>
      simp only
      cases hnew : Tallocr.newChunk a.view size with
      | none =>
        rw [newChunk_none hnew, access_bind]
        rfl
      | some p =>
        obtain ⟨a', hok, hview, hsized⟩ := newChunk_some h hnew
        rw [hok, access_bind]
        exact ⟨_, rfl, hview, rfl, hsized⟩

end Search

section Calls

variable {a : ArrayTallocr} {s : DynTallocr} {c : ArrayChunk} {chunk : TallocrChunk} {k : ℕ}

theorem view_get (h : a.Sized) (hk : a.view.chunks[k]? = some chunk) :
    ∃ c, a.chunks[k]? = some c ∧ c.Holds chunk := by
  have hmap : (a.chunks[k]?).map ArrayChunk.view = some chunk := by rw [← List.getElem?_map]; exact hk
  obtain ⟨c, hc, rfl⟩ := Option.map_eq_some_iff.mp hmap
  exact ⟨c, hc, h c (List.mem_of_getElem? hc)⟩

theorem sized_set (h : a.Sized) (hc : c.Holds chunk) (k : ℕ) :
    (⟨a.alignment, a.maxChunkSize, a.chunks.set k c⟩ : ArrayTallocr).view =
        { a.view with chunks := a.view.chunks.set k chunk } ∧
      (⟨a.alignment, a.maxChunkSize, a.chunks.set k c⟩ : ArrayTallocr).Sized := by
  constructor
  · unfold view
    rw [List.map_set, hc.view_eq]
  · intro x hx
    rcases List.mem_or_eq_of_mem_set hx with hold | rfl
    · exact h x hold
    · rwa [hc.view_eq]

/-- The request takes the whole of a block from a full array. -/
def EmptiesFull (s : DynTallocr) (size : ℕ) : Prop :=
  ∃ k i chunk b, Tallocr.chooseBlock s (alignedOffset size s.alignment) = .ok (s, k, i) ∧ s.chunks[k]? = some chunk ∧
    chunk.freeBlocks[i]? = some b ∧ sub64 b.size (alignedOffset size s.alignment) = 0 ∧
      chunk.freeBlocks.length = maxFreeBlocks

/-- The freed bytes join two blocks of a full array. -/
def JoinsFull (s : DynTallocr) (addr : BufferAddress) (size : ℕ) : Prop :=
  ∃ chunk, s.chunks[addr.chunk]? = some chunk ∧
    ArrayChunk.Joins chunk.freeBlocks addr.offset (alignedOffset size s.alignment) ∧ chunk.freeBlocks.length = maxFreeBlocks

/-- The chunk and the block that a request is served from; only a chunk in use can be full. -/
theorem chosen_block {s s' : DynTallocr} {size i : ℕ} (h : Tallocr.chooseBlock s size = .ok (s', k, i)) :
    ∃ chunk b, s'.chunks[k]? = some chunk ∧ chunk.freeBlocks[i]? = some b ∧
      (chunk.freeBlocks.length = maxFreeBlocks → s' = s) := by
  rcases chooseBlock_cases h with ⟨rfl, chunk, b, hchunk, hb, -⟩ | ⟨rfl, rfl, rfl⟩
  · exact ⟨chunk, b, hchunk, hb, fun _ => rfl⟩
  · exact ⟨_, _, List.getElem?_concat_length, rfl, fun hfull => absurd hfull (show (1 : ℕ) ≠ maxFreeBlocks by decide)⟩

theorem alloc_chosen {s s' : DynTallocr} {size i : ℕ} {b : Extent}
    (h : Tallocr.chooseBlock s (alignedOffset size s.alignment) = .ok (s', k, i))
    (hchunk : s'.chunks[k]? = some chunk) (hb : chunk.freeBlocks[i]? = some b) :
    ggmlDynTallocrAlloc s size = .ok (⟨s'.alignment, s'.maxChunkSize, s'.chunks.set k
      ⟨takeBlock chunk.freeBlocks i b (alignedOffset size s.alignment),
        max chunk.maxSize (wrap64 (b.offset + alignedOffset size s.alignment))⟩⟩, ⟨k, b.offset⟩) := by
  unfold ggmlDynTallocrAlloc
  simp only [h, hchunk, hb]

theorem stop_bind {α β : Type} (x : α) (next : α → Except ArrayStop β) : Except.ok x >>= next = next x := rfl

theorem tallocrAlloc_chosen {a' : ArrayTallocr} {size i : ℕ}
    (h : a.chooseBlock (alignedOffset size a.alignment) = .ok (a', k, i)) (hc : a'.chunks[k]? = some c) :
    a.tallocrAlloc size = access (c.takeBlock i (alignedOffset size a.alignment)) >>= fun p =>
      .ok (⟨a'.alignment, a'.maxChunkSize, a'.chunks.set k p.1⟩, ⟨k, p.2⟩) := by
  unfold tallocrAlloc
  dsimp only
  rw [h]
  simp only [hc, stop_bind]

theorem chooseBlock_ok (h : a.Sized) {n i : ℕ} (hlist : Tallocr.chooseBlock a.view n = .ok (s, k, i)) :
    ∃ a' c chunk front b rest, a.chooseBlock n = .ok (a', k, i) ∧ a'.view = s ∧ a'.Sized ∧ a'.chunks[k]? = some c ∧
      s.chunks[k]? = some chunk ∧ c.Holds chunk ∧ chunk.freeBlocks = front ++ b :: rest ∧ front.length = i ∧
      (chunk.freeBlocks.length = maxFreeBlocks → s = a.view) := by
  have hchoose := chooseBlock_simulates h n
  rw [hlist] at hchoose
  obtain ⟨⟨a', k', i'⟩, hok, hview, hsame, hsized⟩ := hchoose
  cases hsame
  obtain rfl : a'.view = s := hview
  obtain ⟨chunk, b, hchunk, hb, hexisting⟩ := chosen_block hlist
  obtain ⟨c, hc, hholds⟩ := view_get hsized hchunk
  obtain ⟨front, rest, hsplit, hi⟩ := split_at hb
  exact ⟨a', c, chunk, front, b, rest, hok, rfl, hsized, hc, hchunk, hholds, hsplit, hi, hexisting⟩

theorem tallocrAlloc_simulates (h : a.Sized) {size : ℕ} (hroom : ¬EmptiesFull a.view size) :
    Simulates (a.tallocrAlloc size) (ggmlDynTallocrAlloc a.view size)
      (fun p q => p.1.view = q.1 ∧ p.2 = q.2 ∧ p.1.Sized) := by
  have halign : a.view.alignment = a.alignment := rfl
  cases hlist : Tallocr.chooseBlock a.view (alignedOffset size a.alignment) with
  | error e =>
    have hchoose := chooseBlock_simulates h (alignedOffset size a.alignment)
    rw [hlist] at hchoose
    have hstop : a.chooseBlock (alignedOffset size a.alignment) = .error (.abort e) := hchoose
    unfold tallocrAlloc ggmlDynTallocrAlloc
    dsimp only
    rw [halign, hlist, hstop]
    rfl
  | ok q =>
    obtain ⟨s, k, i⟩ := q
    obtain ⟨a', ⟨_, _, _⟩, ⟨blocks, maxSize⟩, front, b, rest, hok, rfl, hsized, hc, hchunk, hholds, hsplit, rfl, hexisting⟩ :=
      chooseBlock_ok h hlist
    obtain rfl : blocks = front ++ b :: rest := hsplit
    have hb : (front ++ b :: rest)[front.length]? = some b := getElem?_middle front rest b
    obtain ⟨c', htake, hleft⟩ := ArrayChunk.takeBlock_ok hholds (n := alignedOffset size a.alignment) (fun hempty => by
      refine lt_of_le_of_ne hholds.length_le (fun hfull => hroom ?_)
      have hsame := hexisting hfull
      rw [hsame] at hlist hchunk
      exact ⟨k, _, _, b, hlist, hchunk, hb, hempty, hfull⟩)
    rw [alloc_chosen hlist hchunk hb, tallocrAlloc_chosen hok hc, htake]
    obtain ⟨hview, hset⟩ := sized_set hsized hleft k
    exact ⟨_, rfl, hview, rfl, hset⟩

theorem tallocrAlloc_full (h : a.Sized) {size : ℕ} (hempties : EmptiesFull a.view size) :
    a.tallocrAlloc size = .error (.fault .outOfBounds) := by
  obtain ⟨k, i, ⟨blocks, maxSize⟩, b, hlist, hchunk, hb, hempty, hfull⟩ := hempties
  obtain ⟨a', c, chunk, front, b', rest, hok, -, -, hc, hchunk', hholds, hsplit, rfl, -⟩ := chooseBlock_ok h hlist
  obtain rfl : chunk = ⟨blocks, maxSize⟩ := Option.some.inj (hchunk'.symm.trans hchunk)
  obtain rfl : blocks = front ++ b' :: rest := hsplit
  obtain rfl : b' = b := Option.some.inj ((getElem?_middle front rest b').symm.trans hb)
  rw [tallocrAlloc_chosen hok hc]
  have herror := ArrayChunk.takeBlock_full hholds hempty hfull
  change access (c.takeBlock front.length (alignedOffset size a.view.alignment)) >>= _ = _
  rw [herror]
  rfl

theorem tallocrFreeBytes_simulates (h : a.Sized) {addr : BufferAddress} {size : ℕ} (hroom : ¬JoinsFull a.view addr size) :
    Simulates (a.tallocrFreeBytes addr size) (ggmlDynTallocrFreeBytes a.view addr size)
      (fun a' s' => a'.view = s' ∧ a'.Sized) := by
  unfold tallocrFreeBytes ggmlDynTallocrFreeBytes
  cases hchunk : a.view.chunks[addr.chunk]? with
  | none =>
    have hnone : a.chunks[addr.chunk]? = none := by
      rwa [view, List.getElem?_map, Option.map_eq_none_iff] at hchunk
    rw [hnone]
    rfl
  | some chunk =>
    obtain ⟨c, hc, hholds⟩ := view_get h hchunk
    rw [hc]
    dsimp only
    have hfree := @ArrayChunk.freeBytes_simulates c chunk.freeBlocks chunk.maxSize addr.offset
      (alignedOffset size a.alignment) hholds (fun hjoins =>
        lt_of_le_of_ne hholds.length_le (fun hfull => hroom ⟨chunk, hchunk, hjoins, hfull⟩))
    have halign : a.view.alignment = a.alignment := rfl
    rw [halign]
    cases hlist : freeBlocks chunk.freeBlocks addr.offset (alignedOffset size a.alignment) with
    | error e =>
      rw [hlist] at hfree
      have hstop : c.freeBytes addr.offset (alignedOffset size a.alignment) = .error (.abort e) := hfree
      rw [hstop]
      rfl
    | ok blocks =>
      rw [hlist] at hfree
      obtain ⟨c', hok, hleft⟩ := hfree
      rw [hok, stop_bind]
      exact ⟨_, rfl, sized_set h hleft addr.chunk⟩

theorem tallocrFreeBytes_full (h : a.Sized) {addr : BufferAddress} {size : ℕ} (hjoins : JoinsFull a.view addr size) :
    a.tallocrFreeBytes addr size = .error (.fault .outOfBounds) := by
  obtain ⟨chunk, hchunk, hjoins, hfull⟩ := hjoins
  obtain ⟨c, hc, hholds⟩ := view_get h hchunk
  have herror := ArrayChunk.freeBytes_full hholds hjoins hfull
  unfold tallocrFreeBytes
  rw [hc]
  dsimp only
  rw [show alignedOffset size a.alignment = alignedOffset size a.view.alignment from rfl, herror]
  rfl

end Calls

end ArrayTallocr

inductive ArrayCall where
  | alloc (size : ℕ)
  | freeBytes (addr : BufferAddress) (size : ℕ)

def arrayCall (a : ArrayTallocr) : ArrayCall → Except ArrayStop ArrayTallocr
  | .alloc size => (a.tallocrAlloc size).map Prod.fst
  | .freeBytes addr size => a.tallocrFreeBytes addr size

def listCall (s : DynTallocr) : ArrayCall → Except TallocrAbort DynTallocr
  | .alloc size => (ggmlDynTallocrAlloc s size).map Prod.fst
  | .freeBytes addr size => ggmlDynTallocrFreeBytes s addr size

def ArrayStart (alignment maxBufferSize : ℕ) (a : ArrayTallocr) : Prop :=
  a = ⟨alignment, min maxBufferSize (sizeMax / 2), []⟩

/-- A call that neither aborts nor leaves an array. -/
def ArrayStep (a : ArrayTallocr) (call : ArrayCall) (a' : ArrayTallocr) : Prop := arrayCall a call = .ok a'

/-- The call removes a block from an array that is full. -/
def RemovesFromFull (s : DynTallocr) : ArrayCall → Prop
  | .alloc size => ArrayTallocr.EmptiesFull s size
  | .freeBytes addr size => ArrayTallocr.JoinsFull s addr size

section Runs

variable {a : ArrayTallocr} {s s' : DynTallocr} {call : ArrayCall} {alignment maxBufferSize : ℕ}

theorem removes_full (h : RemovesFromFull s call) : ∃ chunk ∈ s.chunks, chunk.freeBlocks.length = maxFreeBlocks := by
  cases call with
  | alloc size =>
    obtain ⟨k, i, chunk, b, -, hchunk, -, -, hfull⟩ := h
    exact ⟨chunk, List.mem_of_getElem? hchunk, hfull⟩
  | freeBytes addr size =>
    obtain ⟨chunk, hchunk, -, hfull⟩ := h
    exact ⟨chunk, List.mem_of_getElem? hchunk, hfull⟩

theorem arrayCall_simulates (h : a.Sized) (hroom : ¬RemovesFromFull a.view call) :
    Simulates (arrayCall a call) (listCall a.view call) (fun a' s' => a'.view = s' ∧ a'.Sized) := by
  cases call with
  | alloc size =>
    have halloc := ArrayTallocr.tallocrAlloc_simulates h hroom
    unfold arrayCall listCall
    dsimp only
    cases hlist : ggmlDynTallocrAlloc a.view size with
    | error e =>
      rw [hlist] at halloc
      have hstop : a.tallocrAlloc size = .error (.abort e) := halloc
      rw [hstop]
      rfl
    | ok q =>
      rw [hlist] at halloc
      obtain ⟨p, hok, hview, -, hsized⟩ := halloc
      rw [hok]
      exact ⟨p.1, rfl, hview, hsized⟩
  | freeBytes addr size => exact ArrayTallocr.tallocrFreeBytes_simulates h hroom

theorem arrayCall_full (h : a.Sized) (hremoves : RemovesFromFull a.view call) :
    arrayCall a call = .error (.fault .outOfBounds) := by
  cases call with
  | alloc size =>
    have hfull := ArrayTallocr.tallocrAlloc_full h hremoves
    unfold arrayCall
    dsimp only
    rw [hfull]
    rfl
  | freeBytes addr size => exact ArrayTallocr.tallocrFreeBytes_full h hremoves

theorem arrayCall_cases (h : a.Sized) (call : ArrayCall) :
    (RemovesFromFull a.view call ∧ arrayCall a call = .error (.fault .outOfBounds)) ∨
    ¬RemovesFromFull a.view call ∧ ((∃ e, listCall a.view call = .error e ∧ arrayCall a call = .error (.abort e)) ∨
      ∃ a', listCall a.view call = .ok a'.view ∧ arrayCall a call = .ok a' ∧ a'.Sized) := by
  by_cases hremoves : RemovesFromFull a.view call
  · exact .inl ⟨hremoves, arrayCall_full h hremoves⟩
  · refine .inr ⟨hremoves, ?_⟩
    have hsimulates := arrayCall_simulates h hremoves
    cases hlist : listCall a.view call with
    | error e =>
      rw [hlist] at hsimulates
      exact .inl ⟨e, rfl, hsimulates⟩
    | ok s' =>
      rw [hlist] at hsimulates
      obtain ⟨a', hok, rfl, hsized⟩ := hsimulates
      exact .inr ⟨a', rfl, hok, hsized⟩

theorem arrayCall_sized {a' : ArrayTallocr} (h : a.Sized) (hstep : ArrayStep a call a') : a'.Sized := by
  unfold ArrayStep at hstep
  rcases arrayCall_cases h call with ⟨-, hfault⟩ | ⟨-, ⟨e, -, habort⟩ | ⟨b, -, hok, hsized⟩⟩
  · cases hfault.symm.trans hstep
  · cases habort.symm.trans hstep
  · cases hok.symm.trans hstep
    exact hsized

theorem reachable_sized (h : Reachable (ArrayStart alignment maxBufferSize) ArrayStep a) : a.Sized := by
  refine h.invariant ArrayTallocr.Sized ?_ (fun _ _ _ => arrayCall_sized)
  rintro a rfl c hc
  cases hc

/-- In every state that calls reach, the next call leaves the array exactly when it removes a block from a full one. -/
theorem indices_in_range_iff (h : Reachable (ArrayStart alignment maxBufferSize) ArrayStep a) (call : ArrayCall) :
    (∀ e, arrayCall a call ≠ .error (.fault e)) ↔ ¬RemovesFromFull a.view call := by
  rcases arrayCall_cases (reachable_sized h) call with ⟨hremoves, hfault⟩ | ⟨hroom, ⟨e, -, habort⟩ | ⟨b, -, hok, -⟩⟩
  · exact iff_of_false (fun hall => hall _ hfault) (fun hroom => hroom hremoves)
  · refine iff_of_true (fun e' hfault => ?_) hroom
    cases habort.symm.trans hfault
  · refine iff_of_true (fun e' hfault => ?_) hroom
    cases hok.symm.trans hfault

end Runs

section FullArray

/-- A state of the lists whose arrays a run reaches. -/
def Reached (s : DynTallocr) : Prop := ∃ a, Reachable (ArrayStart 32 19200) ArrayStep a ∧ a.view = s

variable {s s' : DynTallocr} {call : ArrayCall}

/-- Below the full array the arrays follow the lists. -/
theorem Reached.step (h : Reached s) (hroom : ∀ chunk ∈ s.chunks, chunk.freeBlocks.length < maxFreeBlocks)
    (hlist : listCall s call = .ok s') : Reached s' := by
  obtain ⟨a, ha, rfl⟩ := h
  rcases arrayCall_cases (reachable_sized ha) call with ⟨hremoves, -⟩ | ⟨-, ⟨e, herror, -⟩ | ⟨a', hok, hstep, -⟩⟩
  · obtain ⟨chunk, hchunk, hfull⟩ := removes_full hremoves
    exact absurd hfull (hroom chunk hchunk).ne
  · cases herror.symm.trans hlist
  · cases hok.symm.trans hlist
    exact ⟨a', .step ha hstep, rfl⟩

def requested (k : ℕ) : DynTallocr := ⟨32, 19200, [⟨[⟨32 * k, 32 * (600 - k)⟩], 32 * k⟩]⟩

def evenRanges (j : ℕ) : List Extent := (List.range j).map (fun i => ⟨64 * i, 32⟩)

/-- After the first `j` ranges at even places were freed, of 511 that were requested. -/
def freed (j : ℕ) : DynTallocr := ⟨32, 19200, [⟨evenRanges j ++ [⟨32 * 511, 32 * 89⟩], 32 * 511⟩]⟩

theorem requested_chosen {k : ℕ} (hk : k < 599) : chooseBlock (requested k) 32 = .ok (requested k, 0, 0) := by
  have hbest : bestFitBlock (requested k).chunks 32 = ⟨none, 0⟩ := rfl
  have hreuse : toInt64 (sub64 (sub64 (32 * k) (32 * k)) 32) = -32 := by
    rw [sub64_of_le le_rfl (by omega), Nat.sub_self]
    decide
  have hlast : fitLastBlock 32 (⟨none, 0⟩, -2 ^ 63) (⟨[⟨32 * k, 32 * (600 - k)⟩], 32 * k⟩, 0) =
      (⟨some (0, 0), max 0 (32 * (600 - k))⟩, -32) := by
    unfold fitLastBlock
    simp only [List.getLast?_singleton, hreuse]
    exact if_pos ⟨by omega, .inl ⟨by decide, by decide⟩⟩
  have hlist : bestLastBlock (requested k).chunks 32 0 = ⟨some (0, 0), max 0 (32 * (600 - k))⟩ := congrArg Prod.fst hlast
  unfold chooseBlock
  rw [hbest]
  dsimp only
  rw [hlist]

theorem requested_next {k : ℕ} (hk : k < 599) : listCall (requested k) (.alloc 32) = .ok (requested (k + 1)) := by
  have halign : alignedOffset 32 (requested k).alignment = 32 := show alignedOffset 32 32 = 32 by decide
  have halloc := @ArrayTallocr.alloc_chosen _ 0 (requested k) (requested k) 32 0 ⟨32 * k, 32 * (600 - k)⟩
    (halign.symm ▸ requested_chosen hk) rfl rfl
  have hsub : sub64 (32 * (600 - k)) 32 = 32 * (600 - (k + 1)) := by
    rw [sub64_of_le (by omega) (by omega)]
    omega
  have hoffset : wrap64 (32 * k + 32) = 32 * (k + 1) := wrap64_of_lt (by omega)
  have htake : takeBlock [⟨32 * k, 32 * (600 - k)⟩] 0 ⟨32 * k, 32 * (600 - k)⟩ 32 =
      [⟨32 * (k + 1), 32 * (600 - (k + 1))⟩] := by
    unfold takeBlock
    rw [hsub, hoffset, if_neg (by omega), List.set_cons_zero]
  rw [halign, hoffset, htake, max_eq_right (show 32 * k ≤ 32 * (k + 1) by omega)] at halloc
  unfold listCall
  dsimp only
  rw [halloc]
  rfl

theorem reached_requested {k : ℕ} (hk : k < 599) : Reached (requested (k + 1)) := by
  induction k with
  | zero =>
    refine @Reached.step ⟨32, 19200, []⟩ _ (.alloc 32) ⟨⟨32, 19200, []⟩, .start rfl, rfl⟩ ?_ rfl
    intro chunk hc
    cases hc
  | succ k ih =>
    refine Reached.step (ih (by omega)) (List.forall_mem_singleton.mpr ?_) (requested_next (by omega))
    exact show 1 < maxFreeBlocks by decide

theorem length_evenRanges (j : ℕ) : (evenRanges j).length = j := by
  unfold evenRanges
  rw [List.length_map, List.length_range]

theorem evenRanges_below {j : ℕ} : ∀ x ∈ evenRanges j, x.offset + 64 ≤ 64 * j ∧ x.size = 32 ∧ 64 ∣ x.offset := by
  refine List.forall_mem_map.mpr (fun i hi => ?_)
  have hlt := List.mem_range.mp hi
  exact ⟨by dsimp only; omega, rfl, Nat.dvd_mul_right 64 i⟩

theorem freed_next {j : ℕ} (hj : j < 255) : listCall (freed j) (.freeBytes ⟨0, 64 * j⟩ 32) = .ok (freed (j + 1)) := by
  have halign : alignedOffset 32 (freed j).alignment = 32 := show alignedOffset 32 32 = 32 by decide
  have huntouched : ∀ x ∈ evenRanges j ++ [⟨32 * 511, 32 * 89⟩], ¬ArrayChunk.Touches x (64 * j) 32 := by
    unfold ArrayChunk.Touches wrap64
    refine List.forall_mem_append.mpr ⟨fun x hx => ?_, List.forall_mem_singleton.mpr ?_⟩
    · obtain ⟨hbelow, hsize, hdvd⟩ := evenRanges_below x hx
      rw [hsize]
      omega
    · dsimp only
      omega
  have hpos : (evenRanges j ++ [(⟨32 * 511, 32 * 89⟩ : Extent)]).findIdx (fun block => decide (64 * j ≤ block.offset)) =
      (evenRanges j).length := by
    have hnone : (evenRanges j).findIdx (fun block => decide (64 * j ≤ block.offset)) = (evenRanges j).length := by
      refine List.findIdx_eq_length.mpr (fun x hx => ?_)
      have hbelow := (evenRanges_below x hx).1
      exact decide_eq_false (by omega)
    rw [List.findIdx_append, hnone, if_neg (lt_irrefl _), List.findIdx_singleton,
      if_pos (decide_eq_true (show 64 * j ≤ 32 * 511 by omega)), Nat.zero_add]
  have hinsert : insertBlock (evenRanges j ++ [⟨32 * 511, 32 * 89⟩]) (64 * j) 32 =
      .ok (evenRanges j ++ ⟨64 * j, 32⟩ :: [⟨32 * 511, 32 * 89⟩]) := by
    unfold insertBlock
    rw [if_pos (by rw [List.length_append, length_evenRanges]; exact show j + 1 < 256 by omega), hpos, insertIdx_middle]
  have hranges : evenRanges j ++ ⟨64 * j, 32⟩ :: [⟨32 * 511, 32 * 89⟩] = evenRanges (j + 1) ++ [⟨32 * 511, 32 * 89⟩] := by
    unfold evenRanges
    rw [List.range_succ, List.map_append, List.append_assoc]
    rfl
  have hfree : freeBlocks (evenRanges j ++ [⟨32 * 511, 32 * 89⟩]) (64 * j) 32 =
      .ok (evenRanges (j + 1) ++ [⟨32 * 511, 32 * 89⟩]) := by
    rw [ArrayChunk.freeBlocks_untouched huntouched, hinsert, hranges]
  have hget : (freed j).chunks[0]? = some ⟨evenRanges j ++ [⟨32 * 511, 32 * 89⟩], 32 * 511⟩ := rfl
  unfold listCall ggmlDynTallocrFreeBytes
  simp only [hget, halign, hfree]
  rfl

theorem freed_room {j : ℕ} (hj : j < 255) : ∀ chunk ∈ (freed j).chunks, chunk.freeBlocks.length < maxFreeBlocks := by
  refine List.forall_mem_singleton.mpr ?_
  rw [List.length_append, length_evenRanges]
  exact show j + 1 < 256 by omega

theorem reached_freed {j : ℕ} (hj : j ≤ 255) : Reached (freed j) := by
  induction j with
  | zero => exact @reached_requested 510 (by decide)
  | succ j ih => exact (ih (by omega)).step (freed_room (by omega)) (freed_next (by omega))

/-- The array is full when the range beside the first block is freed. -/
theorem indices_in_range_iff_freed : ∃ a, a.view = freed 255 ∧
    ((∀ e, arrayCall a (.freeBytes ⟨0, 32⟩ 32) ≠ .error (.fault e)) ↔ ¬RemovesFromFull a.view (.freeBytes ⟨0, 32⟩ 32)) := by
  obtain ⟨a, ha, hview⟩ := @reached_freed 255 le_rfl
  exact ⟨a, hview, indices_in_range_iff ha (.freeBytes ⟨0, 32⟩ 32)⟩

/-- With 256 free blocks, the range between the first two is freed. -/
theorem not_indices_in_range : ∃ a, Reachable (ArrayStart 32 19200) ArrayStep a ∧
    arrayCall a (.freeBytes ⟨0, 32⟩ 32) = .error (.fault .outOfBounds) := by
  obtain ⟨a, ha, hview⟩ := @reached_freed 255 le_rfl
  refine ⟨a, ha, arrayCall_full (reachable_sized ha) ?_⟩
  rw [hview]
  have hfirst : evenRanges 255 = ⟨0, 32⟩ :: ⟨64, 32⟩ :: (List.range' 2 253).map (fun i => ⟨64 * i, 32⟩) := by
    unfold evenRanges
    rw [List.range_eq_range', List.range'_succ, List.range'_succ]
    rfl
  have hjoins : ArrayChunk.Joins (evenRanges 255 ++ [⟨32 * 511, 32 * 89⟩]) 32 32 := by
    rw [hfirst]
    exact ⟨[], _, _, _, rfl, fun x hx => absurd hx List.not_mem_nil, by decide, by decide⟩
  refine ⟨_, rfl, hjoins, ?_⟩
  rw [List.length_append, length_evenRanges]
  rfl

end FullArray

end PyannoteCpp.Tallocr
