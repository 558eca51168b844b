import PyannoteCpp.ReachableStates
import PyannoteCpp.TallocrBlocks

set_option autoImplicit false

/-!
# Runs of the dynamic tensor allocator

The callers' side of a run is the list of ranges in use. A free names one of
them by its position and gives back the bytes after the first `kept` ones, so
`kept = 0` frees the whole range. The size of a range is the padded one the
allocator works with.
-/
namespace PyannoteCpp.Tallocr

open ReachableStates PyannoteCpp.Extent

structure LiveRange where
  chunk : ℕ
  range : Extent
  deriving DecidableEq

structure TallocrState where
  alloc : DynTallocr
  live : List LiveRange
  deriving DecidableEq

inductive TallocrCall where
  | alloc (size : ℕ)
  | free (k kept size : ℕ)

def liveIn (c : ℕ) (live : List LiveRange) : List Extent :=
  (live.filter (fun l => l.chunk = c)).map LiveRange.range

def keepPrefix (live : List LiveRange) (k : ℕ) (l : LiveRange) (kept : ℕ) : List LiveRange :=
  if kept = 0 then live.eraseIdx k else live.set k ⟨l.chunk, ⟨l.range.offset, kept⟩⟩

inductive Step (s : TallocrState) : TallocrCall → TallocrState → Prop where
  | alloc {size : ℕ} {alloc : DynTallocr} {addr : BufferAddress}
      (h : ggmlDynTallocrAlloc s.alloc size = .ok (alloc, addr)) :
      Step s (.alloc size)
        ⟨alloc, ⟨addr.chunk, ⟨addr.offset, paddedOffset size s.alloc.alignment⟩⟩ :: s.live⟩
  | free {k kept size : ℕ} {l : LiveRange} {alloc : DynTallocr} (hl : s.live[k]? = some l)
      (hkept : kept + paddedOffset size s.alloc.alignment = l.range.size)
      (h : ggmlDynTallocrFreeBytes s.alloc ⟨l.chunk, l.range.offset + kept⟩ size = .ok alloc) :
      Step s (.free k kept size) ⟨alloc, keepPrefix s.live k l kept⟩

def Start (alignment maxBufferSize : ℕ) (s : TallocrState) : Prop :=
  s = ⟨ggmlDynTallocrNew alignment maxBufferSize, []⟩

/-- The padded sizes stay below `2 ^ 63`. -/
def SizeFits (s : TallocrState) : TallocrCall → Prop
  | .alloc size => paddedOffset size s.alloc.alignment < 2 ^ 63
  | .free _ _ _ => True

structure ChunkInv (alignment : ℕ) (chunk : TallocrChunk) (live : List Extent) : Prop where
  blocks : BlocksInv alignment chunk.freeBlocks live
  aligned : ∀ r ∈ live, alignment ∣ r.offset ∧ alignment ∣ r.size
  bounded : ∀ r ∈ live, r.stop ≤ chunk.maxSize
  maxSize : chunk.maxSize < 2 ^ 63

structure TallocrInv (alignment : ℕ) (s : TallocrState) : Prop where
  alignment_eq : s.alloc.alignment = alignment
  maxChunkSize : s.alloc.maxChunkSize < 2 ^ 63
  chunks : ∀ c chunk, s.alloc.chunks[c]? = some chunk → ChunkInv alignment chunk (liveIn c s.live)
  placed : ∀ l ∈ s.live, l.chunk < s.alloc.chunks.length

variable {alignment maxBufferSize : ℕ} {chunk : TallocrChunk} {live : List LiveRange} {used used' : List Extent}

theorem liveIn_perm {live' : List LiveRange} (h : live.Perm live') (c : ℕ) :
    (liveIn c live).Perm (liveIn c live') := (h.filter _).map _

theorem liveIn_cons_self (r : LiveRange) (live : List LiveRange) :
    liveIn r.chunk (r :: live) = r.range :: liveIn r.chunk live := by
  simp only [liveIn, List.filter_cons, decide_true, if_true, List.map_cons]

theorem liveIn_cons_ne {r : LiveRange} {c : ℕ} (h : r.chunk ≠ c) (live : List LiveRange) :
    liveIn c (r :: live) = liveIn c live := by
  simp only [liveIn, List.filter_cons, decide_eq_true_eq, if_neg h]

theorem mem_liveIn {l : LiveRange} (h : l ∈ live) : l.range ∈ liveIn l.chunk live :=
  List.mem_map_of_mem (List.mem_filter.2 ⟨h, by simp⟩)

theorem liveIn_unplaced {c n : ℕ} (h : ∀ l ∈ live, l.chunk < n) (hc : n ≤ c) : liveIn c live = [] := by
  apply List.map_eq_nil_iff.2
  apply List.filter_eq_nil_iff.2
  intro l hl
  have hplaced := h l hl
  simp only [decide_eq_true_eq]
  omega

/-- A block is in the table and large enough. -/
def Offers (chunks : List TallocrChunk) (size c i : ℕ) : Prop :=
  ∃ chunk b, chunks[c]? = some chunk ∧ chunk.freeBlocks[i]? = some b ∧ size ≤ b.size

def Sound (chunks : List TallocrChunk) (size : ℕ) (s : BestFit) : Prop :=
  ∀ c i, s.found = some (c, i) → Offers chunks size c i

section search

variable {chunks : List TallocrChunk} {size : ℕ}

theorem fitBlock_sound {c : ℕ} {s : BestFit × ℕ} {p : Extent × ℕ} (hs : Sound chunks size s.1)
    (hp : size ≤ p.1.size → Offers chunks size c p.2) : Sound chunks size (fitBlock size c s p).1 := by
  unfold fitBlock
  split_ifs with h
  · intro c' i' he
    cases he
    exact hp h.1
  · exact hs

theorem fitChunk_sound {s : BestFit} {p : TallocrChunk × ℕ} (hs : Sound chunks size s)
    (hp : chunks[p.2]? = some p.1) : Sound chunks size (fitChunk size s p) := by
  unfold fitChunk
  apply List.foldlRecOn (motive := fun t : BestFit × ℕ => Sound chunks size t.1)
  · exact hs
  · intro t ht q hq
    apply fitBlock_sound ht
    intro hle
    have hget := List.mem_zipIdx_iff_getElem?.1 hq
    rw [List.getElem?_dropLast] at hget
    split_ifs at hget
    exact ⟨p.1, q.1, hp, hget, hle⟩

theorem bestFitBlock_sound (chunks : List TallocrChunk) (size : ℕ) :
    Sound chunks size (bestFitBlock chunks size) := by
  unfold bestFitBlock
  apply List.foldlRecOn (motive := Sound chunks size)
  · exact fun c i h => nomatch h
  · exact fun s hs p hp => fitChunk_sound hs (List.mem_zipIdx_iff_getElem?.1 hp)

theorem fitLastBlock_sound {s : BestFit × ℤ} {p : TallocrChunk × ℕ} (hs : Sound chunks size s.1)
    (hp : chunks[p.2]? = some p.1) : Sound chunks size (fitLastBlock size s p).1 := by
  unfold fitLastBlock
  cases hb : p.1.freeBlocks.getLast? with
  | none => exact hs
  | some b =>
    simp only
    split_ifs with h
    · intro c i he
      cases he
      rw [List.getLast?_eq_getElem?] at hb
      exact ⟨p.1, b, hp, hb, h.1⟩
    · exact hs

theorem bestLastBlock_sound (chunks : List TallocrChunk) (size maxAvail : ℕ) :
    Sound chunks size (bestLastBlock chunks size maxAvail) := by
  unfold bestLastBlock
  apply List.foldlRecOn (motive := fun s : BestFit × ℤ => Sound chunks size s.1)
  · exact fun c i h => nomatch h
  · exact fun s hs p hp => fitLastBlock_sound hs (List.mem_zipIdx_iff_getElem?.1 hp)

end search

theorem alignedOffset_of_lt {size : ℕ} (h : paddedOffset size alignment < 2 ^ 63) :
    alignedOffset size alignment = paddedOffset size alignment := wrap64_of_lt (by omega)

def newCapacity (alloc : DynTallocr) (size : ℕ) : ℕ :=
  if alloc.chunks.length = vbufferMaxChunks - 1 then sizeMax / 2 else max size alloc.maxChunkSize

/-- Chunks and blocks a request can be served from: the ones in use, and one of a new chunk. -/
theorem chooseBlock_cases {alloc alloc' : DynTallocr} {size c i : ℕ}
    (h : chooseBlock alloc size = .ok (alloc', c, i)) :
    (alloc' = alloc ∧ Offers alloc.chunks size c i) ∨
    (i = 0 ∧ c = alloc.chunks.length ∧
      alloc' = { alloc with chunks := alloc.chunks ++ [⟨[⟨0, newCapacity alloc size⟩], 0⟩] }) := by
  unfold chooseBlock at h
  cases hbest : (bestFitBlock alloc.chunks size).found with
  | some p =>
    rw [hbest] at h
    cases h
    exact .inl ⟨rfl, bestFitBlock_sound _ _ _ _ hbest⟩
  | none =>
    simp only [hbest] at h
    cases hlast : (bestLastBlock alloc.chunks size (bestFitBlock alloc.chunks size).maxAvail).found with
    | some p =>
      rw [hlast] at h
      cases h
      exact .inl ⟨rfl, bestLastBlock_sound _ _ _ _ _ hlast⟩
    | none =>
      simp only [hlast] at h
      unfold newChunk at h
      split_ifs at h with hfull hlastChunk
      · cases h
        exact .inr ⟨rfl, rfl, by rw [newCapacity, if_pos hlastChunk]⟩
      · cases h
        exact .inr ⟨rfl, rfl, by rw [newCapacity, if_neg hlastChunk]⟩

theorem chunkInv_new {n : ℕ} (hn : n < 2 ^ 63) : ChunkInv alignment ⟨[⟨0, n⟩], 0⟩ [] := by
  refine ⟨⟨packed_singleton _, ?_, ?_⟩, by simp, by simp, by simp⟩
  · intro b hb
    rw [List.mem_singleton.1 hb]
    exact dvd_zero alignment
  · intro b hb
    rw [List.mem_singleton.1 hb]
    simpa [Extent.stop] using hn

theorem ChunkInv.perm (h : ChunkInv alignment chunk used) (hp : used.Perm used') :
    ChunkInv alignment chunk used' :=
  ⟨h.blocks.perm (List.Perm.refl _) hp, fun r hr => h.aligned r (hp.mem_iff.2 hr),
    fun r hr => h.bounded r (hp.mem_iff.2 hr), h.maxSize⟩

theorem chunkInv_take {b : Extent} {i size : ℕ} (h : ChunkInv alignment chunk used)
    (hi : chunk.freeBlocks[i]? = some b) (hsize : size ≤ b.size) (ha : alignment ∣ size) :
    ChunkInv alignment
      ⟨takeBlock chunk.freeBlocks i b size, max chunk.maxSize (wrap64 (b.offset + size))⟩
      (⟨b.offset, size⟩ :: used) := by
  have hb := h.blocks.perm (perm_of_getElem? hi) (List.Perm.refl _)
  have hstop : b.offset + b.size < 2 ^ 63 := hb.head.2
  rw [wrap64_of_lt (show b.offset + size < 2 ^ 64 by omega)]
  refine ⟨takeBlock_inv h.blocks hi hsize ha, ?_, ?_, ?_⟩
  · intro r hr
    rcases List.mem_cons.1 hr with rfl | hr
    · exact ⟨hb.head.1, ha⟩
    · exact h.aligned r hr
  · intro r hr
    rcases List.mem_cons.1 hr with rfl | hr
    · exact le_max_right _ _
    · exact (h.bounded r hr).trans (le_max_left _ _)
  · have hmax := h.maxSize
    exact max_lt hmax (show b.offset + size < 2 ^ 63 by omega)

theorem chunkInv_give {blocks : List Extent} {o kept n : ℕ} (h : ChunkInv alignment chunk (⟨o, kept + n⟩ :: used))
    (hn : alignment ∣ kept) (hf : freeBlocks chunk.freeBlocks (o + kept) n = .ok blocks) :
    ChunkInv alignment ⟨blocks, chunk.maxSize⟩ (⟨o, kept⟩ :: used) := by
  have hstop : o + (kept + n) ≤ chunk.maxSize := h.bounded _ List.mem_cons_self
  have hoff : alignment ∣ o := (h.aligned ⟨o, kept + n⟩ List.mem_cons_self).1
  have hmax := h.maxSize
  have hcut : BlocksInv alignment chunk.freeBlocks (⟨o + kept, n⟩ :: ⟨o, kept⟩ :: used) := by
    have hp := (packed_split o kept n).1 (packed_used h.blocks)
    refine ⟨?_, h.blocks.aligned, h.blocks.bounded⟩
    exact (hp.perm (List.Perm.swap _ _ _)).perm
      ((List.perm_middle.symm.cons _).trans List.perm_middle.symm)
  refine ⟨freeBlocks_inv hcut (Nat.dvd_add hoff hn) (by omega) hf, ?_, ?_, hmax⟩
  · intro r hr
    rcases List.mem_cons.1 hr with rfl | hr
    · exact ⟨hoff, hn⟩
    · exact h.aligned r (List.mem_cons_of_mem _ hr)
  · intro r hr
    rcases List.mem_cons.1 hr with rfl | hr
    · exact (Nat.add_le_add_left (Nat.le_add_right kept n) o).trans hstop
    · exact h.bounded r (List.mem_cons_of_mem _ hr)

theorem chunkInv_drop {b : Extent} (h : ChunkInv alignment chunk (b :: used)) : ChunkInv alignment chunk used :=
  ⟨h.blocks.used_tail, fun r hr => h.aligned r (List.mem_cons_of_mem _ hr),
    fun r hr => h.bounded r (List.mem_cons_of_mem _ hr), h.maxSize⟩

theorem start_inv {s : TallocrState} (h : Start alignment maxBufferSize s) : TallocrInv alignment s := by
  subst h
  refine ⟨rfl, ?_, fun c chunk hc => (nomatch hc), fun l hl => (nomatch hl)⟩
  change min maxBufferSize (sizeMax / 2) < 2 ^ 63
  exact (min_le_right _ _).trans_lt (by decide)

theorem chunks_replaced {s : TallocrState} {live' : List LiveRange} {c : ℕ} {chunk' : TallocrChunk}
    (h : TallocrInv alignment s) (hsame : ∀ d, d ≠ c → (liveIn d s.live).Perm (liveIn d live'))
    (hc : ChunkInv alignment chunk' (liveIn c live')) (d : ℕ) (chunk : TallocrChunk)
    (hd : (s.alloc.chunks.set c chunk')[d]? = some chunk) : ChunkInv alignment chunk (liveIn d live') := by
  rw [List.getElem?_set] at hd
  split_ifs at hd with heq hlt
  · cases hd
    exact heq ▸ hc
  · exact (h.chunks d chunk hd).perm (hsame d (Ne.symm heq))

theorem newChunk_inv {s : TallocrState} {n : ℕ} (h : TallocrInv alignment s) (hn : n < 2 ^ 63) :
    TallocrInv alignment ⟨{ s.alloc with chunks := s.alloc.chunks ++ [⟨[⟨0, n⟩], 0⟩] }, s.live⟩ := by
  refine ⟨h.alignment_eq, h.maxChunkSize, ?_, ?_⟩
  · intro c chunk hc
    change (s.alloc.chunks ++ [⟨[⟨0, n⟩], 0⟩])[c]? = some chunk at hc
    rw [List.getElem?_append] at hc
    split_ifs at hc with hlt
    · exact h.chunks c chunk hc
    · rw [liveIn_unplaced h.placed (by omega)]
      have hmem := List.mem_of_getElem? hc
      rw [List.mem_singleton.1 hmem]
      exact chunkInv_new hn
  · intro l hl
    change l.chunk < (s.alloc.chunks ++ [_]).length
    rw [List.length_append]
    exact (h.placed l hl).trans_le (Nat.le_add_right _ _)

theorem take_inv {s : TallocrState} {c i size : ℕ} {b : Extent} (h : TallocrInv alignment s)
    (hc : s.alloc.chunks[c]? = some chunk) (hi : chunk.freeBlocks[i]? = some b) (hsize : size ≤ b.size)
    (ha : alignment ∣ size) :
    TallocrInv alignment ⟨{ s.alloc with
      chunks := s.alloc.chunks.set c
        ⟨takeBlock chunk.freeBlocks i b size, max chunk.maxSize (wrap64 (b.offset + size))⟩ },
      ⟨c, ⟨b.offset, size⟩⟩ :: s.live⟩ := by
  have hlen : c < s.alloc.chunks.length := (List.getElem?_eq_some_iff.1 hc).1
  refine ⟨h.alignment_eq, h.maxChunkSize, ?_, ?_⟩
  · apply chunks_replaced h
    · intro d hd
      rw [liveIn_cons_ne (show (⟨c, ⟨b.offset, size⟩⟩ : LiveRange).chunk ≠ d from Ne.symm hd)]
    · have hself := liveIn_cons_self ⟨c, ⟨b.offset, size⟩⟩ s.live
      change liveIn c (⟨c, ⟨b.offset, size⟩⟩ :: s.live) = _ at hself
      rw [hself]
      exact chunkInv_take (h.chunks c chunk hc) hi hsize ha
  · intro l hl
    change l.chunk < (s.alloc.chunks.set c _).length
    rw [List.length_set]
    rcases List.mem_cons.1 hl with rfl | hl
    · exact hlen
    · exact h.placed l hl

theorem alloc_inv {s : TallocrState} {size : ℕ} {alloc : DynTallocr} {addr : BufferAddress}
    (hpos : 0 < alignment) (h : TallocrInv alignment s) (hfits : paddedOffset size alignment < 2 ^ 63)
    (hm : ggmlDynTallocrAlloc s.alloc size = .ok (alloc, addr)) :
    TallocrInv alignment ⟨alloc, ⟨addr.chunk, ⟨addr.offset, paddedOffset size alignment⟩⟩ :: s.live⟩ := by
  have hdvd := dvd_paddedOffset size hpos
  unfold ggmlDynTallocrAlloc at hm
  rw [h.alignment_eq, alignedOffset_of_lt hfits] at hm
  cases hchoose : chooseBlock s.alloc (paddedOffset size alignment) with
  | error e => simp only [hchoose] at hm; cases hm
  | ok p =>
    obtain ⟨alloc', c, i⟩ := p
    simp only [hchoose] at hm
    cases hchunk : alloc'.chunks[c]? with
    | none => simp only [hchunk] at hm; cases hm
    | some chunk =>
      simp only [hchunk] at hm
      cases hblock : chunk.freeBlocks[i]? with
      | none => simp only [hblock] at hm; cases hm
      | some b =>
        simp only [hblock] at hm
        cases hm
        rcases chooseBlock_cases hchoose with ⟨rfl, hoffer⟩ | ⟨rfl, rfl, rfl⟩
        · obtain ⟨chunk', b', hchunk', hblock', hle⟩ := hoffer
          obtain rfl : chunk = chunk' := Option.some.inj (hchunk.symm.trans hchunk')
          obtain rfl : b = b' := Option.some.inj (hblock.symm.trans hblock')
          exact take_inv h hchunk hblock hle hdvd
        · have hmax := h.maxChunkSize
          have hbound : newCapacity s.alloc (paddedOffset size alignment) < 2 ^ 63 := by
            unfold newCapacity
            split_ifs
            · decide
            · exact max_lt hfits hmax
          have hlarge : paddedOffset size alignment ≤ newCapacity s.alloc (paddedOffset size alignment) := by
            unfold newCapacity
            split_ifs
            · exact Nat.le_of_lt_succ hfits
            · exact le_max_left _ _
          have hnew := newChunk_inv h hbound
          rw [List.getElem?_append_right (le_refl _), Nat.sub_self] at hchunk
          cases hchunk
          cases hblock
          refine take_inv hnew ?_ rfl hlarge hdvd
          change (s.alloc.chunks ++ [_])[s.alloc.chunks.length]? = _
          rw [List.getElem?_append_right (le_refl _), Nat.sub_self]
          rfl

theorem TallocrInv.perm {alloc : DynTallocr} {live' : List LiveRange} (h : TallocrInv alignment ⟨alloc, live⟩)
    (hp : live.Perm live') : TallocrInv alignment ⟨alloc, live'⟩ :=
  ⟨h.alignment_eq, h.maxChunkSize, fun c chunk hc => (h.chunks c chunk hc).perm (liveIn_perm hp c),
    fun l hl => h.placed l (hp.mem_iff.2 hl)⟩

theorem TallocrInv.drop {alloc : DynTallocr} {l : LiveRange} (h : TallocrInv alignment ⟨alloc, l :: live⟩) :
    TallocrInv alignment ⟨alloc, live⟩ := by
  refine ⟨h.alignment_eq, h.maxChunkSize, ?_, fun m hm => h.placed m (List.mem_cons_of_mem _ hm)⟩
  intro c chunk hc
  have hinv := h.chunks c chunk hc
  by_cases hl : l.chunk = c
  · subst hl
    rw [liveIn_cons_self] at hinv
    exact chunkInv_drop hinv
  · rwa [liveIn_cons_ne hl] at hinv

/-- Giving back the bytes of the first range in use after its first `kept` ones. -/
theorem give_inv {alloc alloc' : DynTallocr} {c o kept n size : ℕ}
    (h : TallocrInv alignment ⟨alloc, ⟨c, ⟨o, kept + n⟩⟩ :: live⟩) (hkept : alignment ∣ kept)
    (hsize : alignedOffset size alignment = n)
    (hm : ggmlDynTallocrFreeBytes alloc ⟨c, o + kept⟩ size = .ok alloc') :
    TallocrInv alignment ⟨alloc', ⟨c, ⟨o, kept⟩⟩ :: live⟩ := by
  have halign : alloc.alignment = alignment := h.alignment_eq
  unfold ggmlDynTallocrFreeBytes at hm
  rw [halign, hsize] at hm
  cases hchunk : alloc.chunks[c]? with
  | none => simp only [hchunk] at hm; cases hm
  | some chunk =>
    simp only [hchunk] at hm
    cases hfree : freeBlocks chunk.freeBlocks (o + kept) n with
    | error e => simp only [hfree] at hm; cases hm
    | ok blocks =>
      simp only [hfree] at hm
      cases hm
      have hself := liveIn_cons_self ⟨c, ⟨o, kept + n⟩⟩ live
      have hself' := liveIn_cons_self ⟨c, ⟨o, kept⟩⟩ live
      have hc : ChunkInv alignment chunk (⟨o, kept + n⟩ :: liveIn c live) := hself ▸ h.chunks c chunk hchunk
      refine ⟨rfl, h.maxChunkSize, ?_, ?_⟩
      · apply chunks_replaced h
        · intro d hd
          rw [liveIn_cons_ne (show (⟨c, ⟨o, kept + n⟩⟩ : LiveRange).chunk ≠ d from Ne.symm hd),
            liveIn_cons_ne (show (⟨c, ⟨o, kept⟩⟩ : LiveRange).chunk ≠ d from Ne.symm hd)]
        · exact hself' ▸ chunkInv_give hc hkept hfree
      · intro m hm
        change m.chunk < (alloc.chunks.set c _).length
        rw [List.length_set]
        rcases List.mem_cons.1 hm with rfl | hm
        · exact (List.getElem?_eq_some_iff.1 hchunk).1
        · exact h.placed m (List.mem_cons_of_mem _ hm)

theorem keepPrefix_perm {k kept : ℕ} {l : LiveRange} (hl : live[k]? = some l) :
    ∃ rest, live.Perm (l :: rest) ∧
      (kept = 0 → (keepPrefix live k l kept).Perm rest) ∧
      (kept ≠ 0 → (keepPrefix live k l kept).Perm (⟨l.chunk, ⟨l.range.offset, kept⟩⟩ :: rest)) := by
  obtain ⟨hk, rfl⟩ := List.getElem?_eq_some_iff.1 hl
  refine ⟨live.eraseIdx k, (List.getElem_cons_eraseIdx_perm hk).symm, fun hz => ?_, fun hz => ?_⟩
  · rw [keepPrefix, if_pos hz]
  · rw [keepPrefix, if_neg hz]
    exact List.set_perm_cons_eraseIdx hk _

theorem front_facts {alloc : DynTallocr} {l : LiveRange} (h : TallocrInv alignment ⟨alloc, l :: live⟩) :
    alignment ∣ l.range.offset ∧ alignment ∣ l.range.size ∧ l.range.stop < 2 ^ 63 := by
  have hc := h.chunks l.chunk _ (List.getElem?_eq_getElem (h.placed l List.mem_cons_self))
  rw [liveIn_cons_self] at hc
  have hal := hc.aligned _ List.mem_cons_self
  exact ⟨hal.1, hal.2, (hc.bounded _ List.mem_cons_self).trans_lt hc.maxSize⟩

theorem free_inv {s : TallocrState} {k kept size : ℕ} {l : LiveRange} {alloc : DynTallocr} (hpos : 0 < alignment)
    (h : TallocrInv alignment s) (hl : s.live[k]? = some l)
    (hkept : kept + paddedOffset size alignment = l.range.size)
    (hm : ggmlDynTallocrFreeBytes s.alloc ⟨l.chunk, l.range.offset + kept⟩ size = .ok alloc) :
    TallocrInv alignment ⟨alloc, keepPrefix s.live k l kept⟩ := by
  obtain ⟨rest, hperm, hgone, hkeep⟩ := @keepPrefix_perm s.live k kept l hl
  have hfront : TallocrInv alignment ⟨s.alloc, l :: rest⟩ := h.perm hperm
  obtain ⟨-, hsize, hstop⟩ := front_facts hfront
  have hl' : l = ⟨l.chunk, ⟨l.range.offset, kept + paddedOffset size alignment⟩⟩ := by rw [hkept]
  have hdvd : alignment ∣ kept := (Nat.dvd_add_left (dvd_paddedOffset size hpos)).1 (hkept ▸ hsize)
  have hpadded : paddedOffset size alignment < 2 ^ 63 := by
    change l.range.offset + l.range.size < 2 ^ 63 at hstop
    omega
  have hgive := give_inv (hl' ▸ hfront) hdvd (alignedOffset_of_lt hpadded) hm
  by_cases hz : kept = 0
  · exact hgive.drop.perm (hgone hz).symm
  · exact hgive.perm (hkeep hz).symm

theorem step_inv {s u : TallocrState} {call : TallocrCall} (hpos : 0 < alignment) (h : TallocrInv alignment s)
    (hstep : Admitted SizeFits Step s call u) : TallocrInv alignment u := by
  obtain ⟨hfits, hstep⟩ := hstep
  have he := h.alignment_eq
  cases hstep with
  | alloc hm =>
    rw [he]
    exact alloc_inv hpos h (he ▸ hfits) hm
  | free hl hkept hm => exact free_inv hpos h hl (he ▸ hkept) hm

theorem reachable_inv {s : TallocrState} (hpos : 0 < alignment)
    (h : Reachable (Start alignment maxBufferSize) (Admitted SizeFits Step) s) : TallocrInv alignment s :=
  h.invariant (TallocrInv alignment) (fun _ => start_inv) (fun _ _ _ hi hs => step_inv hpos hi hs)

theorem vbufferChunks_get {Buffer : Type} {allocBuffer : ℕ → Option Buffer} {chunks : List TallocrChunk}
    {buffers : List Buffer} (h : vbufferChunks allocBuffer chunks = some buffers) {c : ℕ} {chunk : TallocrChunk}
    (hc : chunks[c]? = some chunk) : ∃ buffer, buffers[c]? = some buffer ∧ allocBuffer chunk.maxSize = some buffer := by
  induction chunks generalizing buffers c with
  | nil => exact absurd hc (by simp)
  | cons x xs ih =>
    unfold vbufferChunks at h
    cases hx : allocBuffer x.maxSize with
    | none => simp only [hx] at h; cases h
    | some buffer =>
      simp only [hx, Option.map_eq_some_iff] at h
      obtain ⟨rest, hrest, rfl⟩ := h
      cases c with
      | zero =>
        obtain rfl : x = chunk := by simpa using hc
        exact ⟨buffer, rfl, hx⟩
      | succ c => exact ih hrest (by simpa using hc)

/-- Ranges in use do not overlap each other or a free block, are aligned, and end inside the buffer of their chunk. -/
theorem live_ranges_safe {s : TallocrState} (hpos : 0 < alignment)
    (h : Reachable (Start alignment maxBufferSize) (Admitted SizeFits Step) s) :
    (∀ c, (liveIn c s.live).Pairwise (fun r t => Disjoint r.points t.points)) ∧
    (∀ c chunk, s.alloc.chunks[c]? = some chunk →
      ∀ b ∈ chunk.freeBlocks, ∀ r ∈ liveIn c s.live, Disjoint b.points r.points) ∧
    ∀ l ∈ s.live, alignment ∣ l.range.offset ∧
      (∃ chunk, s.alloc.chunks[l.chunk]? = some chunk ∧ l.range.stop ≤ chunk.maxSize) ∧
      ∀ (Buffer : Type) (allocBuffer : ℕ → Option Buffer) (buffers : List Buffer),
        ggmlVbufferAlloc allocBuffer s.alloc = some buffers →
        ∃ buffer size, buffers[l.chunk]? = some buffer ∧ allocBuffer size = some buffer ∧ l.range.stop ≤ size := by
  have hinv := reachable_inv hpos h
  refine ⟨?_, ?_, ?_⟩
  · intro c
    by_cases hc : c < s.alloc.chunks.length
    · exact (hinv.chunks c _ (List.getElem?_eq_getElem hc)).blocks.packed.right.pairwise
    · rw [liveIn_unplaced hinv.placed (by omega)]
      exact List.Pairwise.nil
  · intro c chunk hc b hb r hr
    exact (hinv.chunks c chunk hc).blocks.packed.disjoint_append hb hr
  · intro l hl
    have hget := List.getElem?_eq_getElem (hinv.placed l hl)
    have hc := hinv.chunks l.chunk _ hget
    have hstop := hc.bounded _ (mem_liveIn hl)
    refine ⟨(hc.aligned _ (mem_liveIn hl)).1, ⟨_, hget, hstop⟩, ?_⟩
    intro Buffer allocBuffer buffers hbuf
    obtain ⟨buffer, hb, hsize⟩ := vbufferChunks_get hbuf hget
    exact ⟨buffer, _, hb, hsize, hstop⟩

/-- Three requests in two chunks, then the tail of one range is freed, and another range whole. -/
def smallRunEnd : TallocrState :=
  ⟨⟨32, 200, [⟨[⟨32, 32⟩, ⟨96, 104⟩], 192⟩, ⟨[⟨64, 136⟩], 64⟩]⟩, [⟨0, ⟨0, 32⟩⟩, ⟨1, ⟨0, 64⟩⟩, ⟨0, ⟨64, 32⟩⟩]⟩

theorem smallRunEnd_reachable : Reachable (Start 32 200) (Admitted SizeFits Step) smallRunEnd := by
  have h0 : Reachable (Start 32 200) (Admitted SizeFits Step) ⟨⟨32, 200, []⟩, []⟩ := .start rfl
  have h1 : Reachable (Start 32 200) (Admitted SizeFits Step)
      ⟨⟨32, 200, [⟨[⟨64, 136⟩], 64⟩]⟩, [⟨0, ⟨0, 64⟩⟩]⟩ :=
    @Reachable.step _ _ _ _ _ _ (.alloc 40) h0
      ⟨show paddedOffset 40 32 < 2 ^ 63 by decide, @Step.alloc _ 40 _ ⟨0, 0⟩ rfl⟩
  have h2 : Reachable (Start 32 200) (Admitted SizeFits Step)
      ⟨⟨32, 200, [⟨[⟨192, 8⟩], 192⟩]⟩, [⟨0, ⟨64, 128⟩⟩, ⟨0, ⟨0, 64⟩⟩]⟩ :=
    @Reachable.step _ _ _ _ _ _ (.alloc 100) h1
      ⟨show paddedOffset 100 32 < 2 ^ 63 by decide, @Step.alloc _ 100 _ ⟨0, 64⟩ rfl⟩
  have h3 : Reachable (Start 32 200) (Admitted SizeFits Step)
      ⟨⟨32, 200, [⟨[⟨192, 8⟩], 192⟩, ⟨[⟨64, 136⟩], 64⟩]⟩, [⟨1, ⟨0, 64⟩⟩, ⟨0, ⟨64, 128⟩⟩, ⟨0, ⟨0, 64⟩⟩]⟩ :=
    @Reachable.step _ _ _ _ _ _ (.alloc 50) h2
      ⟨show paddedOffset 50 32 < 2 ^ 63 by decide, @Step.alloc _ 50 _ ⟨1, 0⟩ rfl⟩
  have h4 : Reachable (Start 32 200) (Admitted SizeFits Step)
      ⟨⟨32, 200, [⟨[⟨96, 104⟩], 192⟩, ⟨[⟨64, 136⟩], 64⟩]⟩, [⟨1, ⟨0, 64⟩⟩, ⟨0, ⟨64, 32⟩⟩, ⟨0, ⟨0, 64⟩⟩]⟩ :=
    @Reachable.step _ _ _ _ _ _ (.free 1 32 90) h3 ⟨trivial, @Step.free _ 1 32 90 ⟨0, ⟨64, 128⟩⟩ _ rfl rfl rfl⟩
  have h5 : Reachable (Start 32 200) (Admitted SizeFits Step)
      ⟨⟨32, 200, [⟨[⟨0, 64⟩, ⟨96, 104⟩], 192⟩, ⟨[⟨64, 136⟩], 64⟩]⟩, [⟨1, ⟨0, 64⟩⟩, ⟨0, ⟨64, 32⟩⟩]⟩ :=
    @Reachable.step _ _ _ _ _ _ (.free 2 0 40) h4 ⟨trivial, @Step.free _ 2 0 40 ⟨0, ⟨0, 64⟩⟩ _ rfl rfl rfl⟩
  exact @Reachable.step _ _ _ _ _ _ (.alloc 30) h5
    ⟨show paddedOffset 30 32 < 2 ^ 63 by decide, @Step.alloc _ 30 _ ⟨0, 0⟩ rfl⟩

theorem live_ranges_safe_small : Disjoint (Set.Ico 0 32) (Set.Ico 64 96) ∧ Disjoint (Set.Ico 96 200) (Set.Ico 64 96) ∧
    32 ∣ 64 ∧ ∃ chunk, smallRunEnd.alloc.chunks[0]? = some chunk ∧ 96 ≤ chunk.maxSize := by
  have h := live_ranges_safe (by decide) smallRunEnd_reachable
  refine ⟨?_, ?_, (h.2.2 ⟨0, ⟨64, 32⟩⟩ (by decide)).1, (h.2.2 ⟨0, ⟨64, 32⟩⟩ (by decide)).2.1⟩
  · exact List.rel_of_pairwise_cons (h.1 0) (List.mem_singleton.2 rfl)
  · exact h.2.1 0 _ rfl ⟨96, 104⟩ (by decide) ⟨64, 32⟩ (by decide)

end PyannoteCpp.Tallocr
