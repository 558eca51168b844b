import PyannoteCpp.TallocrFreeLists
import PyannoteCpp.TallocrRuns

set_option autoImplicit false

/-!
# Free lists over whole runs

The free blocks and the ranges in use fill a chunk, and the free blocks are in
normal form. A free of no bytes makes an empty block, unless a block ends or
starts at its address.
-/
namespace PyannoteCpp.Tallocr
open ReachableStates Extent

/-- The calls of a run. The size of a range is the padded one, modulo the range of `size_t`. -/
inductive Turn (s : TallocrState) : TallocrCall → TallocrState → Prop where
  | alloc {size : ℕ} {alloc : DynTallocr} {addr : BufferAddress}
      (h : ggmlDynTallocrAlloc s.alloc size = .ok (alloc, addr)) :
      Turn s (.alloc size) ⟨alloc, ⟨addr.chunk, ⟨addr.offset, alignedOffset size s.alloc.alignment⟩⟩ :: s.live⟩
  | free {k kept size : ℕ} {l : LiveRange} {alloc : DynTallocr} (hl : s.live[k]? = some l)
      (hkept : kept + alignedOffset size s.alloc.alignment = l.range.size)
      (h : ggmlDynTallocrFreeBytes s.alloc ⟨l.chunk, l.range.offset + kept⟩ size = .ok alloc) :
      Turn s (.free k kept size) ⟨alloc, keepPrefix s.live k l kept⟩

def Served (alloc : DynTallocr) (size : ℕ) : Prop := ∃ c i, chooseBlock alloc size = .ok (alloc, c, i)

/-- A request that opens a chunk fits in it, and the chunk is not empty; no bytes are freed only where a free block ends
or starts. -/
def KeepsNormal (s : TallocrState) : TallocrCall → Prop
  | .alloc size =>
    Served s.alloc (alignedOffset size s.alloc.alignment) ∨
      alignedOffset size s.alloc.alignment ≤ newCapacity s.alloc (alignedOffset size s.alloc.alignment) ∧
        0 < newCapacity s.alloc (alignedOffset size s.alloc.alignment)
  | .free k kept size =>
    alignedOffset size s.alloc.alignment = 0 → ∀ l chunk, s.live[k]? = some l → s.alloc.chunks[l.chunk]? = some chunk →
      ∃ b ∈ chunk.freeBlocks, b.stop = l.range.offset + kept ∨ b.offset = l.range.offset + kept

structure ChunkFilled (chunk : TallocrChunk) (used : List Extent) : Prop where
  normal : Normal chunk.freeBlocks
  filled : ∃ m, 0 < m ∧ m < 2 ^ 64 ∧ Fills m (chunk.freeBlocks ++ used) ∧ ∀ r ∈ used, r.stop ≤ m

structure NormalInv (s : TallocrState) : Prop where
  maxChunkSize : s.alloc.maxChunkSize < 2 ^ 64
  chunks : ∀ c chunk, s.alloc.chunks[c]? = some chunk → ChunkFilled chunk (liveIn c s.live)
  placed : ∀ l ∈ s.live, l.chunk < s.alloc.chunks.length

variable {alignment maxBufferSize : ℕ} {chunk : TallocrChunk} {live : List LiveRange} {used used' : List Extent}

section Chunks

theorem chunkFilled_new {m : ℕ} (hm : 0 < m) (hbound : m < 2 ^ 64) : ChunkFilled ⟨[⟨0, m⟩], 0⟩ [] := by
  refine ⟨normal_singleton hm, m, hm, hbound, fun x => ?_, fun r hr => absurd hr List.not_mem_nil⟩
  rw [List.append_nil, cover_cons]
  unfold hits cover
  simp

theorem ChunkFilled.perm (h : ChunkFilled chunk used) (hp : used.Perm used') : ChunkFilled chunk used' := by
  obtain ⟨hnormal, m, hm, hbound, hfills, hin⟩ := h
  exact ⟨hnormal, m, hm, hbound, hfills.perm (hp.append_left _), fun r hr => hin r (hp.mem_iff.2 hr)⟩

theorem ChunkFilled.drop {o : ℕ} (h : ChunkFilled chunk (⟨o, 0⟩ :: used)) : ChunkFilled chunk used := by
  obtain ⟨hnormal, m, hm, hbound, hfills, hin⟩ := h
  refine ⟨hnormal, m, hm, hbound, fun x => ?_, fun r hr => hin r (List.mem_cons_of_mem _ hr)⟩
  rw [← hfills x, cover_middle, hits_empty, Nat.zero_add]

theorem ChunkFilled.blocks_stop (h : ChunkFilled chunk used) : ∀ b ∈ chunk.freeBlocks, b.stop < 2 ^ 64 := by
  obtain ⟨hnormal, m, -, hbound, hfills, -⟩ := h
  exact fun b hb => (hfills.stop_le (List.mem_append_left _ hb) (hnormal.nonempty b hb)).trans_lt hbound

theorem chunkFilled_take {b : Extent} {i size maxSize : ℕ} (h : ChunkFilled chunk used)
    (hi : chunk.freeBlocks[i]? = some b) (hsize : size ≤ b.size) :
    ChunkFilled ⟨takeBlock chunk.freeBlocks i b size, maxSize⟩ (⟨b.offset, size⟩ :: used) := by
  have hstop := h.blocks_stop b (List.mem_of_getElem? hi)
  obtain ⟨hnormal, m, hm, hbound, hfills, hin⟩ := h
  have hb := hfills.stop_le (List.mem_append_left _ (List.mem_of_getElem? hi)) (hnormal.nonempty b (List.mem_of_getElem? hi))
  obtain ⟨pre, post, hblocks, rfl⟩ := split_at hi
  rw [hblocks] at hnormal hfills ⊢
  refine ⟨take_normal hnormal hsize hstop, m, hm, hbound, fun x => ?_, fun r hr => ?_⟩
  · have htake : cover (takeBlock (pre ++ b :: post) pre.length b size) x + hits ⟨b.offset, size⟩ x =
        cover (pre ++ b :: post) x := take_cover hsize hstop x
    change cover (takeBlock (pre ++ b :: post) pre.length b size ++ ⟨b.offset, size⟩ :: used) x = _
    rw [← hfills x, cover_append, cover_append, cover_cons]
    omega
  · rcases List.mem_cons.1 hr with rfl | hr
    · exact (Nat.add_le_add_left hsize _).trans hb
    · exact hin r hr

theorem gap_of_touch {blocks : List Extent} {o : ℕ} (hnormal : Normal blocks)
    (htouch : ∃ b ∈ blocks, b.stop = o ∨ b.offset = o) : ∀ x ∈ blocks, x.stop ≤ o ∨ o ≤ x.offset := by
  obtain ⟨b, hb, htouch⟩ := htouch
  obtain ⟨pre, post, rfl⟩ := List.append_of_mem hb
  obtain ⟨-, hsize, hpre, hpost⟩ := normal_middle.1 hnormal
  have hle : b.offset ≤ b.stop := Nat.le_add_right _ _
  intro x hx
  rcases List.mem_append.1 hx with hx | hx
  · have hbefore := hpre x hx
    omega
  · rcases List.mem_cons.1 hx with rfl | hx
    · omega
    · have hafter := hpost x hx
      omega

theorem chunkFilled_give {blocks : List Extent} {o kept n maxSize : ℕ} (h : ChunkFilled chunk (⟨o, kept + n⟩ :: used))
    (htouch : n = 0 → ∃ b ∈ chunk.freeBlocks, b.stop = o + kept ∨ b.offset = o + kept)
    (hf : freeBlocks chunk.freeBlocks (o + kept) n = .ok blocks) : ChunkFilled ⟨blocks, maxSize⟩ (⟨o, kept⟩ :: used) := by
  have hstops := h.blocks_stop
  obtain ⟨hnormal, m, hm, hbound, hfills, hin⟩ := h
  have hstop : o + (kept + n) ≤ m := hin _ List.mem_cons_self
  have hfreed := freeBlocks_freed hstops (by omega) hf
  have hcut : Fills m (⟨o + kept, n⟩ :: (chunk.freeBlocks ++ ⟨o, kept⟩ :: used)) := fun x => by
    have hsplit := hits_split o kept n x
    rw [← hfills x, cover_cons, cover_middle, cover_middle, hsplit]
    omega
  have hgap : ∀ x ∈ chunk.freeBlocks, x.stop ≤ o + kept ∨ o + kept + n ≤ x.offset := fun x hx => by
    by_cases hn : n = 0
    · have hpoint := gap_of_touch hnormal (htouch hn) x hx
      omega
    · have happart := hcut.apart (Nat.pos_of_ne_zero hn) (List.mem_append_left _ hx) (hnormal.nonempty x hx)
      rwa [stop_mk] at happart
  refine ⟨freed_normal hfreed hnormal hgap htouch, m, hm, hbound, fun x => ?_, fun r hr => ?_⟩
  · have hfree := freed_cover hfreed x
    change cover (blocks ++ ⟨o, kept⟩ :: used) x = _
    rw [← hcut x, cover_cons ⟨o + kept, n⟩, cover_append, cover_append]
    omega
  · rcases List.mem_cons.1 hr with rfl | hr
    · rw [stop_mk]
      omega
    · exact hin r (List.mem_cons_of_mem _ hr)

theorem ChunkFilled.whole (h : ChunkFilled chunk []) : ∃ m, 0 < m ∧ chunk.freeBlocks = [⟨0, m⟩] := by
  obtain ⟨hnormal, m, hm, -, hfills, -⟩ := h
  rw [List.append_nil] at hfills
  exact ⟨m, hm, eq_singleton hnormal hfills hm⟩

end Chunks

section Runs

theorem normalInv_start {s : TallocrState} (h : Start alignment maxBufferSize s) : NormalInv s := by
  subst h
  refine ⟨?_, fun c chunk hc => (nomatch hc), fun l hl => (nomatch hl)⟩
  change min maxBufferSize (sizeMax / 2) < 2 ^ 64
  exact (min_le_right _ _).trans_lt (by decide)

theorem filled_replaced {s : TallocrState} {live' : List LiveRange} {c : ℕ} {chunk' : TallocrChunk} (h : NormalInv s)
    (hsame : ∀ d, d ≠ c → (liveIn d s.live).Perm (liveIn d live')) (hc : ChunkFilled chunk' (liveIn c live')) (d : ℕ)
    (chunk : TallocrChunk) (hd : (s.alloc.chunks.set c chunk')[d]? = some chunk) : ChunkFilled chunk (liveIn d live') := by
  rw [List.getElem?_set] at hd
  split_ifs at hd with heq hlt
  · obtain rfl := Option.some.inj hd
    exact heq ▸ hc
  · exact (h.chunks d chunk hd).perm (hsame d (fun hdc => heq hdc.symm))

theorem normalInv_newChunk {s : TallocrState} {m : ℕ} (h : NormalInv s) (hm : 0 < m) (hbound : m < 2 ^ 64) :
    NormalInv ⟨{ s.alloc with chunks := s.alloc.chunks ++ [⟨[⟨0, m⟩], 0⟩] }, s.live⟩ := by
  refine ⟨h.maxChunkSize, fun c chunk hc => ?_, fun l hl => ?_⟩
  · by_cases hlt : c < s.alloc.chunks.length
    · exact h.chunks c chunk ((List.getElem?_append_left hlt).symm.trans hc)
    · have hlast : [(⟨[⟨0, m⟩], 0⟩ : TallocrChunk)][c - s.alloc.chunks.length]? = some chunk :=
        (List.getElem?_append_right (by omega)).symm.trans hc
      have hzero : c - s.alloc.chunks.length = 0 := by
        have hin := (List.getElem?_eq_some_iff.1 hlast).1
        simpa using hin
      rw [hzero] at hlast
      obtain rfl := Option.some.inj hlast
      rw [liveIn_unplaced h.placed (by omega)]
      exact chunkFilled_new hm hbound
  · have hplaced := h.placed l hl
    change l.chunk < (s.alloc.chunks ++ [_]).length
    rw [List.length_append]
    omega

theorem normalInv_take {s : TallocrState} {c i size maxSize : ℕ} {b : Extent} (h : NormalInv s)
    (hc : s.alloc.chunks[c]? = some chunk) (hi : chunk.freeBlocks[i]? = some b) (hsize : size ≤ b.size) :
    NormalInv ⟨{ s.alloc with chunks := s.alloc.chunks.set c ⟨takeBlock chunk.freeBlocks i b size, maxSize⟩ },
      ⟨c, ⟨b.offset, size⟩⟩ :: s.live⟩ := by
  refine ⟨h.maxChunkSize, filled_replaced h (fun d hd => ?_) ?_, fun l hl => ?_⟩
  · rw [liveIn_cons_ne (show (⟨c, ⟨b.offset, size⟩⟩ : LiveRange).chunk ≠ d from Ne.symm hd)]
  · have hself := liveIn_cons_self ⟨c, ⟨b.offset, size⟩⟩ s.live
    exact hself ▸ chunkFilled_take (h.chunks c chunk hc) hi hsize
  · change l.chunk < (s.alloc.chunks.set c _).length
    rw [List.length_set]
    rcases List.mem_cons.1 hl with rfl | hl
    · exact (List.getElem?_eq_some_iff.1 hc).1
    · exact h.placed l hl

theorem normalInv_alloc {s : TallocrState} {size : ℕ} {alloc : DynTallocr} {addr : BufferAddress} (h : NormalInv s)
    (hkeeps : KeepsNormal s (.alloc size)) (hm : ggmlDynTallocrAlloc s.alloc size = .ok (alloc, addr)) :
    NormalInv ⟨alloc, ⟨addr.chunk, ⟨addr.offset, alignedOffset size s.alloc.alignment⟩⟩ :: s.live⟩ := by
  unfold KeepsNormal at hkeeps
  set padded := alignedOffset size s.alloc.alignment with hpadded
  unfold ggmlDynTallocrAlloc at hm
  rw [← hpadded] at hm
  cases hchoose : chooseBlock s.alloc padded with
  | error e => simp only [hchoose] at hm; cases hm
  | ok p =>
    obtain ⟨alloc', c, i⟩ := p
    simp only [hchoose] at hm
    cases hchunk : alloc'.chunks[c]? with
    | none => simp only [hchunk] at hm; cases hm
    | some chunk =>
      simp only [hchunk] at hm
      cases hblock : chunk.freeBlocks[i]? with
      | none => simp only [hblock] at hm; cases hm
      | some b =>
        simp only [hblock] at hm
        obtain ⟨rfl, rfl⟩ := Prod.mk.inj (Except.ok.inj hm)
        rcases chooseBlock_cases hchoose with ⟨rfl, hoffer⟩ | ⟨rfl, rfl, rfl⟩
        · obtain ⟨chunk', b', hchunk', hblock', hle⟩ := hoffer
          obtain rfl : chunk = chunk' := Option.some.inj (hchunk.symm.trans hchunk')
          obtain rfl : b = b' := Option.some.inj (hblock.symm.trans hblock')
          exact normalInv_take h hchunk hblock hle
        · -- a served request does not open a chunk
          have hopened : ¬Served s.alloc padded := by
            rintro ⟨c, i, hserved⟩
            rw [hchoose] at hserved
            have hsame := congrArg (fun p : DynTallocr × ℕ × ℕ => p.1.chunks.length) (Except.ok.inj hserved)
            simp only [List.length_append, List.length_singleton] at hsame
            omega
          obtain ⟨hfits, hpos⟩ := hkeeps.resolve_left hopened
          have hbound : newCapacity s.alloc padded < 2 ^ 64 := by
            have hmax := h.maxChunkSize
            have hsize : padded < 2 ^ 64 := Nat.mod_lt _ (by norm_num)
            unfold newCapacity
            split_ifs
            · decide
            · exact max_lt hsize hmax
          have hnew := normalInv_newChunk h hpos hbound
          have hlast : (s.alloc.chunks ++ [⟨[⟨0, newCapacity s.alloc padded⟩], 0⟩])[s.alloc.chunks.length]? = some chunk :=
            hchunk
          rw [List.getElem?_append_right le_rfl, Nat.sub_self] at hlast
          obtain rfl := Option.some.inj hlast
          obtain rfl := Option.some.inj hblock
          exact normalInv_take hnew hchunk rfl hfits

theorem normalInv_perm {alloc : DynTallocr} {live' : List LiveRange} (h : NormalInv ⟨alloc, live⟩) (hp : live.Perm live') :
    NormalInv ⟨alloc, live'⟩ :=
  ⟨h.maxChunkSize, fun c chunk hc => (h.chunks c chunk hc).perm (liveIn_perm hp c),
    fun l hl => h.placed l (hp.mem_iff.2 hl)⟩

theorem normalInv_drop {alloc : DynTallocr} {c o : ℕ} (h : NormalInv ⟨alloc, ⟨c, ⟨o, 0⟩⟩ :: live⟩) :
    NormalInv ⟨alloc, live⟩ := by
  refine ⟨h.maxChunkSize, fun d chunk hd => ?_, fun m hm => h.placed m (List.mem_cons_of_mem _ hm)⟩
  have hinv := h.chunks d chunk hd
  by_cases hl : c = d
  · subst hl
    have hself := liveIn_cons_self ⟨c, ⟨o, 0⟩⟩ live
    exact (hself ▸ hinv).drop
  · rwa [liveIn_cons_ne (show (⟨c, ⟨o, 0⟩⟩ : LiveRange).chunk ≠ d from hl)] at hinv

theorem normalInv_give {alloc alloc' : DynTallocr} {c o kept size : ℕ}
    (h : NormalInv ⟨alloc, ⟨c, ⟨o, kept + alignedOffset size alloc.alignment⟩⟩ :: live⟩)
    (htouch : alignedOffset size alloc.alignment = 0 → ∀ chunk, alloc.chunks[c]? = some chunk →
      ∃ b ∈ chunk.freeBlocks, b.stop = o + kept ∨ b.offset = o + kept)
    (hm : ggmlDynTallocrFreeBytes alloc ⟨c, o + kept⟩ size = .ok alloc') :
    NormalInv ⟨alloc', ⟨c, ⟨o, kept⟩⟩ :: live⟩ := by
  set n := alignedOffset size alloc.alignment with hn
  unfold ggmlDynTallocrFreeBytes at hm
  rw [← hn] at hm
  cases hchunk : alloc.chunks[c]? with
  | none => simp only [hchunk] at hm; cases hm
  | some chunk =>
    simp only [hchunk] at hm
    cases hfree : freeBlocks chunk.freeBlocks (o + kept) n with
    | error e => simp only [hfree] at hm; cases hm
    | ok blocks =>
      simp only [hfree] at hm
      obtain rfl := Except.ok.inj hm
      have hself := liveIn_cons_self ⟨c, ⟨o, kept + n⟩⟩ live
      have hself' := liveIn_cons_self ⟨c, ⟨o, kept⟩⟩ live
      have hc : ChunkFilled chunk (⟨o, kept + n⟩ :: liveIn c live) := hself ▸ h.chunks c chunk hchunk
      refine ⟨h.maxChunkSize, filled_replaced h (fun d hd => ?_) ?_, fun m hm => ?_⟩
      · rw [liveIn_cons_ne (show (⟨c, ⟨o, kept + n⟩⟩ : LiveRange).chunk ≠ d from Ne.symm hd),
          liveIn_cons_ne (show (⟨c, ⟨o, kept⟩⟩ : LiveRange).chunk ≠ d from Ne.symm hd)]
      · exact hself' ▸ chunkFilled_give hc (fun hzero => htouch hzero chunk hchunk) hfree
      · change m.chunk < (alloc.chunks.set c _).length
        rw [List.length_set]
        rcases List.mem_cons.1 hm with rfl | hm
        · exact (List.getElem?_eq_some_iff.1 hchunk).1
        · exact h.placed m (List.mem_cons_of_mem _ hm)

theorem normalInv_free {s : TallocrState} {k kept size : ℕ} {l : LiveRange} {alloc : DynTallocr} (h : NormalInv s)
    (hkeeps : KeepsNormal s (.free k kept size)) (hl : s.live[k]? = some l)
    (hkept : kept + alignedOffset size s.alloc.alignment = l.range.size)
    (hm : ggmlDynTallocrFreeBytes s.alloc ⟨l.chunk, l.range.offset + kept⟩ size = .ok alloc) :
    NormalInv ⟨alloc, keepPrefix s.live k l kept⟩ := by
  obtain ⟨rest, hperm, hgone, hkeep⟩ := @keepPrefix_perm s.live k kept l hl
  have hl' : l = ⟨l.chunk, ⟨l.range.offset, kept + alignedOffset size s.alloc.alignment⟩⟩ := by rw [hkept]
  have hfront : NormalInv ⟨s.alloc, l :: rest⟩ := normalInv_perm h hperm
  have hgive := normalInv_give (hl' ▸ hfront) (fun hzero chunk hc => hkeeps hzero l chunk hl hc) hm
  by_cases hz : kept = 0
  · subst hz
    exact normalInv_perm (normalInv_drop hgive) (hgone rfl).symm
  · exact normalInv_perm hgive (hkeep hz).symm

theorem normalInv_step {s u : TallocrState} {call : TallocrCall} (h : NormalInv s) (hstep : Admitted KeepsNormal Turn s call u) :
    NormalInv u := by
  obtain ⟨hkeeps, hstep⟩ := hstep
  cases hstep with
  | alloc hm => exact normalInv_alloc h hkeeps hm
  | free hl hkept hm => exact normalInv_free h hkeeps hl hkept hm

theorem normalInv_reachable {s : TallocrState}
    (h : Reachable (Start alignment maxBufferSize) (Admitted KeepsNormal Turn) s) : NormalInv s :=
  h.invariant NormalInv (fun _ => normalInv_start) (fun _ _ _ hi hs => normalInv_step hi hs)

/-- In every run that keeps to the condition the free lists are in normal form, and a chunk whose ranges were all freed
is one free block. -/
theorem free_lists_normal {s : TallocrState}
    (h : Reachable (Start alignment maxBufferSize) (Admitted KeepsNormal Turn) s) {c : ℕ} {chunk : TallocrChunk}
    (hc : s.alloc.chunks[c]? = some chunk) :
    Normal chunk.freeBlocks ∧ (liveIn c s.live = [] → ∃ m, 0 < m ∧ chunk.freeBlocks = [⟨0, m⟩]) := by
  have hfilled := (normalInv_reachable h).chunks c chunk hc
  exact ⟨hfilled.normal, fun hnone => (hnone ▸ hfilled).whole⟩

def splitState : TallocrState := ⟨⟨32, 200, [⟨[⟨0, 64⟩, ⟨128, 72⟩], 128⟩]⟩, [⟨0, ⟨64, 64⟩⟩]⟩

theorem splitState_reachable : Reachable (Start 32 200) (Admitted KeepsNormal Turn) splitState := by
  have h0 : Reachable (Start 32 200) (Admitted KeepsNormal Turn) ⟨⟨32, 200, []⟩, []⟩ := .start rfl
  have h1 : Reachable (Start 32 200) (Admitted KeepsNormal Turn) ⟨⟨32, 200, [⟨[⟨64, 136⟩], 64⟩]⟩, [⟨0, ⟨0, 64⟩⟩]⟩ :=
    @Reachable.step _ _ _ _ _ _ (.alloc 40) h0 ⟨.inr (by decide), @Turn.alloc _ 40 _ ⟨0, 0⟩ rfl⟩
  have h2 : Reachable (Start 32 200) (Admitted KeepsNormal Turn)
      ⟨⟨32, 200, [⟨[⟨128, 72⟩], 128⟩]⟩, [⟨0, ⟨64, 64⟩⟩, ⟨0, ⟨0, 64⟩⟩]⟩ :=
    @Reachable.step _ _ _ _ _ _ (.alloc 40) h1 ⟨.inl ⟨0, 0, rfl⟩, @Turn.alloc _ 40 _ ⟨0, 64⟩ rfl⟩
  exact @Reachable.step _ _ _ _ _ _ (.free 1 0 40) h2
    ⟨fun hzero => absurd hzero (by decide), @Turn.free _ 1 0 40 ⟨0, ⟨0, 64⟩⟩ _ rfl rfl rfl⟩

theorem joined_reachable : Reachable (Start 32 200) (Admitted KeepsNormal Turn) ⟨⟨32, 200, [⟨[⟨0, 200⟩], 128⟩]⟩, []⟩ :=
  @Reachable.step _ _ _ _ _ _ (.free 0 0 40) splitState_reachable
    ⟨fun hzero => absurd hzero (by decide), @Turn.free splitState 0 0 40 ⟨0, ⟨64, 64⟩⟩ _ rfl rfl rfl⟩

/-- The first range of two is freed beside the second one, whose free joins the three blocks. -/
theorem free_lists_normal_joined : Normal [⟨0, 64⟩, ⟨128, 72⟩] ∧ Normal [⟨0, 200⟩] ∧
    ∃ m, 0 < m ∧ [(⟨0, 200⟩ : Extent)] = [⟨0, m⟩] := by
  have hsplit := free_lists_normal splitState_reachable (c := 0) rfl
  have hjoined := free_lists_normal joined_reachable (c := 0) rfl
  exact ⟨hsplit.1, hjoined.1, hjoined.2 rfl⟩

/-- A range of no bytes is freed inside a block: the block it leaves is empty and stays after everything was freed. -/
theorem not_free_lists_normal : ∃ s chunk, Reachable (Start 32 200) Turn s ∧ s.live = [] ∧
    s.alloc.chunks[0]? = some chunk ∧ ¬Normal chunk.freeBlocks ∧ ∀ m, chunk.freeBlocks ≠ [⟨0, m⟩] := by
  have h0 : Reachable (Start 32 200) Turn ⟨⟨32, 200, []⟩, []⟩ := .start rfl
  have h1 : Reachable (Start 32 200) Turn ⟨⟨32, 200, [⟨[⟨32, 168⟩], 32⟩]⟩, [⟨0, ⟨0, 32⟩⟩]⟩ :=
    .step (i := .alloc 32) h0 (@Turn.alloc _ 32 _ ⟨0, 0⟩ rfl)
  have h2 : Reachable (Start 32 200) Turn ⟨⟨32, 200, [⟨[⟨32, 168⟩], 32⟩]⟩, [⟨0, ⟨32, 0⟩⟩, ⟨0, ⟨0, 32⟩⟩]⟩ :=
    .step (i := .alloc 0) h1 (@Turn.alloc _ 0 _ ⟨0, 32⟩ rfl)
  have h3 : Reachable (Start 32 200) Turn
      ⟨⟨32, 200, [⟨[⟨64, 136⟩], 64⟩]⟩, [⟨0, ⟨32, 32⟩⟩, ⟨0, ⟨32, 0⟩⟩, ⟨0, ⟨0, 32⟩⟩]⟩ :=
    .step (i := .alloc 32) h2 (@Turn.alloc _ 32 _ ⟨0, 32⟩ rfl)
  have h4 : Reachable (Start 32 200) Turn
      ⟨⟨32, 200, [⟨[⟨0, 32⟩, ⟨64, 136⟩], 64⟩]⟩, [⟨0, ⟨32, 32⟩⟩, ⟨0, ⟨32, 0⟩⟩]⟩ :=
    .step (i := .free 2 0 32) h3 (@Turn.free _ 2 0 32 ⟨0, ⟨0, 32⟩⟩ _ rfl rfl rfl)
  have h5 : Reachable (Start 32 200) Turn ⟨⟨32, 200, [⟨[⟨0, 200⟩], 64⟩]⟩, [⟨0, ⟨32, 0⟩⟩]⟩ :=
    .step (i := .free 0 0 32) h4 (@Turn.free _ 0 0 32 ⟨0, ⟨32, 32⟩⟩ _ rfl rfl rfl)
  have h6 : Reachable (Start 32 200) Turn ⟨⟨32, 200, [⟨[⟨0, 200⟩, ⟨32, 0⟩], 64⟩]⟩, []⟩ :=
    .step (i := .free 0 0 0) h5 (@Turn.free _ 0 0 0 ⟨0, ⟨32, 0⟩⟩ _ rfl rfl rfl)
  refine ⟨_, _, h6, rfl, rfl, fun hnormal => ?_, fun m => by simp⟩
  exact absurd (hnormal.nonempty ⟨32, 0⟩ (by simp)) (lt_irrefl 0)

end Runs

end PyannoteCpp.Tallocr
