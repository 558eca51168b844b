import PyannoteCpp.DynTallocr

set_option autoImplicit false

/-!
# The free blocks of one chunk

The blocks and the ranges in use are one packing. Taking bytes from the start
of a block, gluing freed bytes to a block and inserting a block of its own each
keep it, whatever the order of the blocks is.
-/
namespace PyannoteCpp.Tallocr

open Extent

structure BlocksInv (alignment : ℕ) (blocks used : List Extent) : Prop where
  packed : Packed (blocks ++ used)
  aligned : ∀ b ∈ blocks, alignment ∣ b.offset
  bounded : ∀ b ∈ blocks, b.stop < 2 ^ 63

variable {alignment : ℕ} {blocks blocks' used used' : List Extent} {b next : Extent} {i o n size : ℕ}

theorem BlocksInv.perm (h : BlocksInv alignment blocks used) (hb : blocks.Perm blocks') (hu : used.Perm used') :
    BlocksInv alignment blocks' used' :=
  ⟨h.packed.perm (hb.append hu), fun b hm => h.aligned b (hb.mem_iff.2 hm),
    fun b hm => h.bounded b (hb.mem_iff.2 hm)⟩

theorem BlocksInv.head (h : BlocksInv alignment (b :: blocks) used) : alignment ∣ b.offset ∧ b.stop < 2 ^ 63 :=
  ⟨h.aligned b List.mem_cons_self, h.bounded b List.mem_cons_self⟩

theorem BlocksInv.tail (h : BlocksInv alignment (b :: blocks) used) : BlocksInv alignment blocks used :=
  ⟨h.packed.tail, fun b hm => h.aligned b (List.mem_cons_of_mem _ hm),
    fun b hm => h.bounded b (List.mem_cons_of_mem _ hm)⟩

theorem BlocksInv.cons (h : BlocksInv alignment blocks used) (hp : Packed (b :: (blocks ++ used)))
    (ha : alignment ∣ b.offset) (hb : b.stop < 2 ^ 63) : BlocksInv alignment (b :: blocks) used := by
  refine ⟨hp, ?_, ?_⟩
  · intro c hc
    rcases List.mem_cons.1 hc with rfl | hc
    · exact ha
    · exact h.aligned c hc
  · intro c hc
    rcases List.mem_cons.1 hc with rfl | hc
    · exact hb
    · exact h.bounded c hc

theorem packed_used (h : BlocksInv alignment blocks (b :: used)) : Packed (b :: (blocks ++ used)) :=
  h.packed.perm List.perm_middle

theorem BlocksInv.used_tail (h : BlocksInv alignment blocks (b :: used)) : BlocksInv alignment blocks used :=
  ⟨(packed_used h).tail, h.aligned, h.bounded⟩

theorem perm_of_getElem? (h : blocks[i]? = some b) : blocks.Perm (b :: blocks.eraseIdx i) := by
  obtain ⟨hi, rfl⟩ := List.getElem?_eq_some_iff.1 h
  exact (List.getElem_cons_eraseIdx_perm hi).symm

theorem set_perm (h : blocks[i]? = some b) (c : Extent) : (blocks.set i c).Perm (c :: blocks.eraseIdx i) :=
  List.set_perm_cons_eraseIdx (List.getElem?_eq_some_iff.1 h).1 c

theorem neighbours_perm (h : blocks[i]? = some b) (hn : blocks[i + 1]? = some next) :
    ∃ rest, blocks.Perm (b :: next :: rest) ∧
      ∀ c, (removeBlock (blocks.set i c) (i + 1)).Perm (c :: rest) := by
  induction blocks generalizing i with
  | nil => exact absurd h (by simp)
  | cons x xs ih =>
    cases i with
    | zero =>
      obtain rfl : x = b := by simpa using h
      obtain ⟨hlen, hget⟩ := List.getElem?_eq_some_iff.1 (show xs[0]? = some next from hn)
      cases xs with
      | nil => exact absurd hlen (by simp)
      | cons y ys =>
        obtain rfl : y = next := hget
        exact ⟨ys, List.Perm.refl _, fun c => List.Perm.refl _⟩
    | succ i =>
      obtain ⟨rest, hperm, hset⟩ := ih (show xs[i]? = some b from h) (show xs[i + 1]? = some next from hn)
      have hswap : ∀ c, (x :: c :: rest).Perm (c :: x :: rest) := fun c => List.Perm.swap _ _ _
      refine ⟨x :: rest, ?_, fun c => ((hset c).cons x).trans (hswap c)⟩
      calc (x :: xs).Perm (x :: b :: next :: rest) := hperm.cons x
        _ |>.Perm (b :: x :: next :: rest) := List.Perm.swap _ _ _
        _ |>.Perm (b :: next :: x :: rest) := (List.Perm.swap _ _ _).cons b

theorem takeBlock_inv (h : BlocksInv alignment blocks used) (hi : blocks[i]? = some b) (hsize : size ≤ b.size)
    (ha : alignment ∣ size) : BlocksInv alignment (takeBlock blocks i b size) (⟨b.offset, size⟩ :: used) := by
  have hfront := h.perm (perm_of_getElem? hi) (List.Perm.refl _)
  obtain ⟨hoff, hstop⟩ := hfront.head
  change b.offset + b.size < 2 ^ 63 at hstop
  have hsub : sub64 b.size size = b.size - size := sub64_of_le hsize (by omega)
  have hwrap : wrap64 (b.offset + size) = b.offset + size := wrap64_of_lt (by omega)
  have hb : b = ⟨b.offset, size + (b.size - size)⟩ := by rw [Nat.add_sub_cancel' hsize]
  have hcut : Packed (⟨b.offset, size⟩ :: ⟨b.offset + size, b.size - size⟩ :: (blocks.eraseIdx i ++ used)) := by
    have hp := hfront.packed
    rw [hb] at hp
    exact (packed_split _ _ _).1 hp
  have hused : BlocksInv alignment (blocks.eraseIdx i) (⟨b.offset, size⟩ :: used) :=
    ⟨(hcut.perm (List.Perm.swap _ _ _)).tail.perm List.perm_middle.symm, hfront.tail.aligned,
      hfront.tail.bounded⟩
  unfold takeBlock
  rw [hsub, hwrap]
  split_ifs with hzero
  · exact hused
  · have hset := set_perm hi ⟨b.offset + size, b.size - size⟩
    have hrest : Packed (⟨b.offset + size, b.size - size⟩ :: (blocks.eraseIdx i ++ ⟨b.offset, size⟩ :: used)) :=
      (hcut.perm (List.Perm.swap _ _ _)).perm (List.perm_middle.symm.cons _)
    have hbound : b.offset + size + (b.size - size) < 2 ^ 63 := by omega
    exact (hused.cons hrest (Nat.dvd_add hoff ha) hbound).perm hset.symm (List.Perm.refl _)

theorem BlocksInv.glue {a k : ℕ} (h : BlocksInv alignment (⟨a, n⟩ :: ⟨o, k⟩ :: blocks) used) (ho : a + n = o) :
    BlocksInv alignment (⟨a, n + k⟩ :: blocks) used := by
  subst ho
  have hstop : a + n + k < 2 ^ 63 := h.tail.head.2
  exact h.tail.tail.cons (h.packed.glue rfl) h.head.1 (show a + (n + k) < 2 ^ 63 by omega)

theorem mergeNext_inv (hi : blocks[i]? = some b)
    (h : BlocksInv alignment (⟨b.offset, size⟩ :: blocks.eraseIdx i) used) :
    BlocksInv alignment (mergeNext blocks i ⟨b.offset, size⟩) used := by
  have hkeep := h.perm (set_perm hi ⟨b.offset, size⟩).symm (List.Perm.refl _)
  unfold mergeNext
  cases hnext : blocks[i + 1]? with
  | none => exact hkeep
  | some next =>
    obtain ⟨rest, hperm, hset⟩ := neighbours_perm hi hnext
    have herase : (blocks.eraseIdx i).Perm (next :: rest) := ((perm_of_getElem? hi).symm.trans hperm).cons_inv
    have hpair := h.perm (herase.cons _) (List.Perm.refl _)
    have hstop : b.offset + size < 2 ^ 63 := hpair.head.2
    have hnext : next.offset + next.size < 2 ^ 63 := hpair.tail.head.2
    change BlocksInv alignment (if wrap64 (b.offset + size) = next.offset then
      removeBlock (blocks.set i ⟨b.offset, wrap64 (size + next.size)⟩) (i + 1) else _) used
    rw [wrap64_of_lt (show b.offset + size < 2 ^ 64 by omega)]
    split_ifs with heq
    · rw [wrap64_of_lt (show size + next.size < 2 ^ 64 by omega)]
      exact (hpair.glue heq).perm (hset _).symm (List.Perm.refl _)
    · exact hkeep

theorem mergePrev_inv (hi : blocks[i]? = some b)
    (h : BlocksInv alignment (⟨o, size⟩ :: blocks.eraseIdx i) used) :
    BlocksInv alignment (mergePrev blocks i ⟨o, size⟩) used := by
  have hkeep := h.perm (set_perm hi ⟨o, size⟩).symm (List.Perm.refl _)
  cases i with
  | zero => exact hkeep
  | succ i =>
    simp only [mergePrev]
    cases hprev : blocks[i]? with
    | none => exact hkeep
    | some prev =>
      obtain ⟨rest, hperm, hset⟩ := neighbours_perm hprev hi
      have herase : (blocks.eraseIdx (i + 1)).Perm (prev :: rest) :=
        ((perm_of_getElem? hi).symm.trans (hperm.trans (List.Perm.swap _ _ _))).cons_inv
      have hpair := (h.perm (herase.cons _) (List.Perm.refl _)).perm (List.Perm.swap _ _ _) (List.Perm.refl _)
      have hstop : o + size < 2 ^ 63 := hpair.tail.head.2
      have hprev : prev.offset + prev.size < 2 ^ 63 := hpair.head.2
      change BlocksInv alignment (if wrap64 (prev.offset + prev.size) = o then
        removeBlock (blocks.set i ⟨prev.offset, wrap64 (prev.size + size)⟩) (i + 1) else _) used
      rw [wrap64_of_lt (show prev.offset + prev.size < 2 ^ 64 by omega)]
      split_ifs with heq
      · rw [wrap64_of_lt (show prev.size + size < 2 ^ 64 by omega)]
        exact (hpair.glue heq).perm (hset _).symm (List.Perm.refl _)
      · exact hkeep

theorem mergeBlock_inv (h : BlocksInv alignment blocks (⟨o, n⟩ :: used)) (ha : alignment ∣ o)
    (hstop : o + n < 2 ^ 63) (hm : mergeBlock blocks o n i = some blocks') : BlocksInv alignment blocks' used := by
  unfold mergeBlock at hm
  cases hi : blocks[i]? with
  | none => rw [hi] at hm; cases hm
  | some b =>
    simp only [hi] at hm
    have hfront := h.used_tail.perm (perm_of_getElem? hi) (List.Perm.refl _)
    have hfreed : Packed (⟨o, n⟩ :: b :: (blocks.eraseIdx i ++ used)) :=
      (packed_used h).perm (((perm_of_getElem? hi).append_right used).cons _)
    have hb : b.offset + b.size < 2 ^ 63 := hfront.head.2
    rw [wrap64_of_lt (show b.offset + b.size < 2 ^ 64 by omega),
      wrap64_of_lt (show o + n < 2 ^ 64 by omega), wrap64_of_lt (show b.size + n < 2 ^ 64 by omega)] at hm
    split_ifs at hm with hend hstart
    · cases hm
      have hglue : Packed (⟨b.offset, b.size + n⟩ :: (blocks.eraseIdx i ++ used)) :=
        (hfreed.perm (List.Perm.swap _ _ _)).glue hend
      exact mergeNext_inv hi (hfront.tail.cons hglue hfront.head.1 (show b.offset + (b.size + n) < 2 ^ 63 by omega))
    · cases hm
      have hglue : Packed (⟨o, n + b.size⟩ :: (blocks.eraseIdx i ++ used)) := hfreed.glue hstart
      rw [Nat.add_comm] at hglue
      exact mergePrev_inv hi (hfront.tail.cons hglue ha (show o + (b.size + n) < 2 ^ 63 by omega))

theorem insertBlock_inv (h : BlocksInv alignment blocks (⟨o, n⟩ :: used)) (ha : alignment ∣ o)
    (hstop : o + n < 2 ^ 63) (hm : insertBlock blocks o n = .ok blocks') : BlocksInv alignment blocks' used := by
  unfold insertBlock at hm
  split_ifs at hm
  cases hm
  have hperm := List.perm_insertIdx (⟨o, n⟩ : Extent) blocks
    (@List.findIdx_le_length _ (fun block => decide (o ≤ block.offset)) blocks)
  exact (h.used_tail.cons (packed_used h) ha hstop).perm hperm.symm (List.Perm.refl _)

/-- Freed bytes leave the ranges in use and nothing else does. -/
theorem freeBlocks_inv (h : BlocksInv alignment blocks (⟨o, n⟩ :: used)) (ha : alignment ∣ o)
    (hstop : o + n < 2 ^ 63) (hm : freeBlocks blocks o n = .ok blocks') : BlocksInv alignment blocks' used := by
  unfold freeBlocks at hm
  cases hfind : (List.range blocks.length).findSome? (mergeBlock blocks o n) with
  | none =>
    rw [hfind] at hm
    exact insertBlock_inv h ha hstop hm
  | some merged =>
    rw [hfind] at hm
    cases hm
    obtain ⟨i, -, hi⟩ := List.exists_of_findSome?_eq_some hfind
    exact mergeBlock_inv h ha hstop hi

end PyannoteCpp.Tallocr
