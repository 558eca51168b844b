import PyannoteCpp.DynTallocr
import PyannoteCpp.ExtentNormal

set_option autoImplicit false

/-!
# What one call does to a free list

A request takes bytes from the start of one block. Freed bytes are glued to a
block that ends or starts at them, or become a block of their own; this is the
whole effect when every block ends below `2 ^ 64`.
-/
namespace PyannoteCpp.Tallocr
open Extent

variable {α : Type*} {blocks blocks' pre post : List Extent} {b c : Extent} {o n i : ℕ}

section Lists

theorem split_at {l : List α} {x : α} (h : l[i]? = some x) : ∃ pre post, l = pre ++ x :: post ∧ pre.length = i := by
  obtain ⟨hi, rfl⟩ := List.getElem?_eq_some_iff.1 h
  refine ⟨l.take i, l.drop (i + 1), ?_, List.length_take_of_le hi.le⟩
  rw [← List.drop_eq_getElem_cons hi, List.take_append_drop]

theorem set_middle (pre post : List α) (x y : α) : (pre ++ x :: post).set pre.length y = pre ++ y :: post := by
  rw [List.set_append_right _ _ le_rfl, Nat.sub_self, List.set_cons_zero]

theorem getElem?_middle (pre post : List α) (x : α) : (pre ++ x :: post)[pre.length]? = some x := by
  rw [List.getElem?_append_right le_rfl, Nat.sub_self, List.getElem?_cons_zero]

theorem getElem?_after (pre post : List α) (x : α) : (pre ++ x :: post)[pre.length + 1]? = post.head? := by
  rw [List.getElem?_append_right (by omega), Nat.add_sub_cancel_left, List.getElem?_cons_succ, List.head?_eq_getElem?]

theorem eraseIdx_middle (pre post : List α) (x : α) : (pre ++ x :: post).eraseIdx pre.length = pre ++ post := by
  rw [List.eraseIdx_append_of_length_le le_rfl, Nat.sub_self, List.eraseIdx_cons_zero]

theorem eraseIdx_after (pre post : List α) (x y : α) :
    (pre ++ x :: y :: post).eraseIdx (pre.length + 1) = pre ++ x :: post := by
  rw [List.eraseIdx_append_of_length_le (by omega), Nat.add_sub_cancel_left, List.eraseIdx_cons_succ,
    List.eraseIdx_cons_zero]

theorem insertIdx_middle (pre post : List α) (x : α) : (pre ++ post).insertIdx pre.length x = pre ++ x :: post := by
  induction pre with
  | nil => rfl
  | cons y pre ih =>
    rw [List.cons_append, List.length_cons, List.insertIdx_succ_cons, ih, List.cons_append]

end Lists

theorem takeBlock_middle (hsize : n ≤ b.size) (hstop : b.stop < 2 ^ 64) :
    takeBlock (pre ++ b :: post) pre.length b n =
      if b.size = n then pre ++ post else pre ++ ⟨b.offset + n, b.size - n⟩ :: post := by
  unfold stop at hstop
  have hsub : sub64 b.size n = b.size - n := sub64_of_le hsize (by omega)
  have hwrap : wrap64 (b.offset + n) = b.offset + n := wrap64_of_lt (by omega)
  unfold takeBlock removeBlock
  rw [hsub, hwrap, eraseIdx_middle, set_middle]
  by_cases h : b.size = n
  · rw [if_pos h, if_pos (by omega)]
  · rw [if_neg h, if_neg (by omega)]

theorem mergeNext_middle (pre : List Extent) (b c : Extent) (post : List Extent) :
    mergeNext (pre ++ b :: post) pre.length c = match post with
      | [] => pre ++ [c]
      | next :: rest =>
        if wrap64 (c.offset + c.size) = next.offset then pre ++ ⟨c.offset, wrap64 (c.size + next.size)⟩ :: rest
        else pre ++ c :: next :: rest := by
  unfold mergeNext removeBlock
  rw [getElem?_after]
  cases post with
  | nil => rw [List.head?_nil, set_middle]
  | cons next rest => simp only [List.head?_cons, set_middle, eraseIdx_after]

theorem mergePrev_middle (hpre : ∀ x ∈ pre, wrap64 (x.offset + x.size) ≠ c.offset) :
    mergePrev (pre ++ b :: post) pre.length c = pre ++ c :: post := by
  rcases List.eq_nil_or_concat pre with rfl | ⟨front, last, rfl⟩
  · rfl
  · have hlast : wrap64 (last.offset + last.size) ≠ c.offset := hpre last (by simp)
    have hget : (front.concat last ++ b :: post)[front.length]? = some last := by
      rw [List.concat_eq_append, List.append_assoc]
      exact getElem?_middle front (b :: post) last
    rw [List.length_concat]
    simp only [mergePrev, hget, if_neg hlast]
    have hlen : front.length + 1 = (front.concat last).length := (List.length_concat).symm
    rw [hlen, set_middle]

/-- The free lists that freeing `n` bytes at `o` can leave. -/
inductive Freed (o n : ℕ) : List Extent → List Extent → Prop
  | both {pre post : List Extent} {b next : Extent} (hb : b.stop = o) (hnext : o + n = next.offset) :
      Freed o n (pre ++ b :: next :: post) (pre ++ ⟨b.offset, b.size + n + next.size⟩ :: post)
  | left {pre post : List Extent} {b : Extent} (hb : b.stop = o) (hpost : ∀ y ∈ post.head?, o + n ≠ y.offset) :
      Freed o n (pre ++ b :: post) (pre ++ ⟨b.offset, b.size + n⟩ :: post)
  | right {pre post : List Extent} {b : Extent} (hb : o + n = b.offset) (hpre : ∀ x ∈ pre, x.stop ≠ o) :
      Freed o n (pre ++ b :: post) (pre ++ ⟨o, b.size + n⟩ :: post)
  | alone {pre post : List Extent} (hpre : ∀ x ∈ pre, x.offset < o) (hpost : ∀ y ∈ post.head?, o ≤ y.offset)
      (hends : ∀ x ∈ pre ++ post, x.stop ≠ o ∧ o + n ≠ x.offset) : Freed o n (pre ++ post) (pre ++ ⟨o, n⟩ :: post)

section Freeing

variable (hblocks : ∀ x ∈ blocks, x.stop < 2 ^ 64) (hbytes : o + n < 2 ^ 64)
include hblocks hbytes

theorem mergeBlock_eq_none_iff (hi : blocks[i]? = some b) :
    mergeBlock blocks o n i = none ↔ b.stop ≠ o ∧ o + n ≠ b.offset := by
  have hb : b.offset + b.size < 2 ^ 64 := hblocks b (List.mem_of_getElem? hi)
  unfold mergeBlock
  rw [hi]
  simp only [wrap64_of_lt hb, wrap64_of_lt hbytes, stop]
  split_ifs with hend hstart
  · exact iff_of_false (by simp) (fun h => h.1 hend)
  · exact iff_of_false (by simp) (fun h => h.2 hstart)
  · exact iff_of_true rfl ⟨hend, hstart⟩

/-- A block that the search finds, after the earlier ones were passed. -/
theorem mergeBlock_freed (hm : mergeBlock blocks o n i = some blocks')
    (hpassed : ∀ j < i, mergeBlock blocks o n j = none) : Freed o n blocks blocks' := by
  cases hi : blocks[i]? with
  | none =>
    unfold mergeBlock at hm
    rw [hi] at hm
    exact absurd hm (by simp)
  | some b =>
    obtain ⟨pre, post, rfl, rfl⟩ := split_at hi
    have hb : b.offset + b.size < 2 ^ 64 := hblocks b (by simp)
    have hpre : ∀ x ∈ pre, x.stop ≠ o := fun x hx => by
      obtain ⟨j, hj, hget⟩ := List.mem_iff_getElem.1 hx
      have hat : (pre ++ b :: post)[j]? = some x := by
        rw [List.getElem?_append_left hj, List.getElem?_eq_getElem hj, hget]
      exact ((mergeBlock_eq_none_iff hblocks hbytes hat).1 (hpassed j hj)).1
    unfold mergeBlock at hm
    rw [hi] at hm
    simp only [wrap64_of_lt hb, wrap64_of_lt hbytes] at hm
    split_ifs at hm with hend hstart
    · have hsum : wrap64 (b.size + n) = b.size + n := wrap64_of_lt (by omega)
      rw [hsum, mergeNext_middle] at hm
      cases post with
      | nil =>
        obtain rfl := Option.some.inj hm
        exact .left hend (fun y hy => absurd hy (by simp))
      | cons next rest =>
        have hnext : next.offset + next.size < 2 ^ 64 := hblocks next (by simp)
        have hstop : wrap64 (b.offset + (b.size + n)) = o + n := by
          rw [wrap64_of_lt (by omega)]
          omega
        simp only [hstop] at hm
        split_ifs at hm with hglue
        · have htotal : wrap64 (b.size + n + next.size) = b.size + n + next.size := wrap64_of_lt (by omega)
          rw [htotal] at hm
          obtain rfl := Option.some.inj hm
          exact .both hend hglue
        · obtain rfl := Option.some.inj hm
          refine .left hend (fun y hy => ?_)
          obtain rfl : next = y := by simpa using hy
          exact hglue
    · have hsum : wrap64 (b.size + n) = b.size + n := wrap64_of_lt (by omega)
      have hprev : ∀ x ∈ pre, wrap64 (x.offset + x.size) ≠ o := fun x hx => by
        have hx64 : x.offset + x.size < 2 ^ 64 := hblocks x (by simp [hx])
        rw [wrap64_of_lt hx64]
        exact hpre x hx
      rw [hsum, mergePrev_middle hprev] at hm
      obtain rfl := Option.some.inj hm
      exact .right hstart hpre

omit hblocks hbytes in
theorem insertBlock_split (hm : insertBlock blocks o n = .ok blocks') : ∃ pre post, blocks = pre ++ post ∧
    blocks' = pre ++ ⟨o, n⟩ :: post ∧ (∀ x ∈ pre, x.offset < o) ∧ ∀ y ∈ post.head?, o ≤ y.offset := by
  unfold insertBlock at hm
  split_ifs at hm
  obtain rfl := Except.ok.inj hm
  set k := blocks.findIdx (fun block => decide (o ≤ block.offset)) with hk
  have hle : k ≤ blocks.length := List.findIdx_le_length
  refine ⟨blocks.take k, blocks.drop k, (List.take_append_drop k blocks).symm, ?_, ?_, ?_⟩
  · have hinsert := insertIdx_middle (blocks.take k) (blocks.drop k) (⟨o, n⟩ : Extent)
    rwa [List.take_append_drop, List.length_take_of_le hle] at hinsert
  · intro x hx
    obtain ⟨j, hj, rfl⟩ := List.mem_iff_getElem.1 hx
    rw [List.length_take_of_le hle] at hj
    have hnot := List.not_of_lt_findIdx (hk ▸ hj)
    rw [List.getElem_take]
    simpa using hnot
  · intro y hy
    rw [List.head?_drop] at hy
    obtain ⟨hlt, hget⟩ := List.getElem?_eq_some_iff.1 (Option.mem_def.1 hy)
    have hfound := @List.findIdx_getElem _ (fun block : Extent => decide (o ≤ block.offset)) blocks hlt
    rw [← hget]
    simpa using hfound

theorem freeBlocks_freed (hm : freeBlocks blocks o n = .ok blocks') : Freed o n blocks blocks' := by
  unfold freeBlocks at hm
  cases hfind : (List.range blocks.length).findSome? (mergeBlock blocks o n) with
  | none =>
    rw [hfind] at hm
    have hall : ∀ x ∈ blocks, x.stop ≠ o ∧ o + n ≠ x.offset := fun x hx => by
      obtain ⟨j, hj, hget⟩ := List.mem_iff_getElem.1 hx
      have hat : blocks[j]? = some x := by rw [List.getElem?_eq_getElem hj, hget]
      exact (mergeBlock_eq_none_iff hblocks hbytes hat).1 (List.findSome?_eq_none_iff.1 hfind j (List.mem_range.2 hj))
    obtain ⟨pre, post, rfl, rfl, hpre, hpost⟩ := insertBlock_split hm
    exact .alone hpre hpost hall
  | some merged =>
    rw [hfind] at hm
    obtain rfl := Except.ok.inj hm
    obtain ⟨before, i, after, hrange, hi, hpassed⟩ := List.findSome?_eq_some_iff.1 hfind
    have hindex : (List.range blocks.length)[before.length]? = some i := by rw [hrange, getElem?_middle]
    obtain ⟨hlen, hlast⟩ := List.getElem?_eq_some_iff.1 hindex
    rw [List.getElem_range] at hlast
    refine mergeBlock_freed hblocks hbytes hi (fun j hj => hpassed j ?_)
    have hj' : j < before.length := hlast ▸ hj
    have hget : (List.range blocks.length)[j]? = some before[j] := by
      rw [hrange, List.getElem?_append_left hj', List.getElem?_eq_getElem hj']
    obtain ⟨_, hsame⟩ := List.getElem?_eq_some_iff.1 hget
    rw [List.getElem_range] at hsame
    rw [hsame]
    exact List.getElem_mem hj'

end Freeing

section Effects

variable {x : ℕ}

theorem freed_cover (h : Freed o n blocks blocks') (x : ℕ) : cover blocks' x = cover blocks x + hits ⟨o, n⟩ x := by
  cases h with
  | @both pre post b next hb hnext =>
    have hsplit := hits_split b.offset (b.size + n) next.size x
    have hsplit' := hits_split b.offset b.size n x
    have hstart : b.offset + b.size = o := hb
    have hend : b.offset + (b.size + n) = next.offset := by omega
    rw [hend] at hsplit
    rw [hstart] at hsplit'
    rw [cover_middle, cover_middle, cover_middle, hsplit, hsplit']
    change hits b x + hits ⟨o, n⟩ x + hits next x + cover (pre ++ post) x = _
    omega
  | @left pre post b hb hpost =>
    have hsplit := hits_split b.offset b.size n x
    have hstart : b.offset + b.size = o := hb
    rw [hstart] at hsplit
    rw [cover_middle, cover_middle, hsplit]
    change hits b x + hits ⟨o, n⟩ x + cover (pre ++ post) x = _
    omega
  | @right pre post b hb hpre =>
    have hsplit := hits_split o n b.size x
    rw [hb, Nat.add_comm n] at hsplit
    rw [cover_middle, cover_middle, hsplit]
    change hits ⟨o, n⟩ x + hits b x + cover (pre ++ post) x = _
    omega
  | @alone pre post hpre hpost hends =>
    rw [cover_middle]
    omega

/-- Bytes between the blocks keep a normal form; no bytes do where a block ends or starts. -/
theorem freed_normal (h : Freed o n blocks blocks') (hnormal : Normal blocks)
    (hgap : ∀ x ∈ blocks, x.stop ≤ o ∨ o + n ≤ x.offset) (htouch : n = 0 → ∃ x ∈ blocks, x.stop = o ∨ x.offset = o) :
    Normal blocks' := by
  cases h with
  | @both pre post b next hb hnext =>
    obtain ⟨hrest, hbsize, hpre, hpost⟩ := normal_middle.1 hnormal
    obtain ⟨hrest, hnsize, hpre', hpost'⟩ := normal_middle.1 hrest
    have hstop : (⟨b.offset, b.size + n + next.size⟩ : Extent).stop = next.stop := by
      rw [stop_mk]
      unfold stop at hb ⊢
      omega
    exact normal_middle.2 ⟨hrest, Nat.add_pos_right _ hnsize, hpre, fun y hy => hstop ▸ hpost' y hy⟩
  | @left pre post b hb hpost =>
    obtain ⟨hrest, hbsize, hpre, hright⟩ := normal_middle.1 hnormal
    have hstop : (⟨b.offset, b.size + n⟩ : Extent).stop = o + n := by
      rw [stop_mk]
      unfold stop at hb
      omega
    have hbelow : ∀ y ∈ post, o + n ≤ y.offset := fun y hy => by
      have hy' := hgap y (by simp [hy])
      have hgap' := hright y hy
      have hsize := hnormal.nonempty y (by simp [hy])
      unfold stop at hy' hgap' hb
      omega
    refine normal_middle.2 ⟨hrest, Nat.add_pos_left hbsize _, hpre, fun y hy => ?_⟩
    rw [hstop]
    cases post with
    | nil => exact absurd hy List.not_mem_nil
    | cons head rest =>
      have hhead := hbelow head List.mem_cons_self
      have hne := hpost head rfl
      rcases List.mem_cons.1 hy with rfl | hy
      · omega
      · have hlater := (List.pairwise_cons.1 ((List.pairwise_append.1 hrest.separated).2.1)).1 y hy
        unfold stop at hlater
        omega
  | @right pre post b hb hpre =>
    obtain ⟨hrest, hbsize, hleft, hright⟩ := normal_middle.1 hnormal
    have hstop : (⟨o, b.size + n⟩ : Extent).stop = b.stop := by
      rw [stop_mk]
      unfold stop
      omega
    refine normal_middle.2 ⟨hrest, Nat.add_pos_left hbsize _, fun x hx => ?_, fun y hy => hstop ▸ hright y hy⟩
    have hx' := hgap x (by simp [hx])
    have hbefore := hleft x hx
    have hne := hpre x hx
    have hle : x.offset ≤ x.stop := Nat.le_add_right _ _
    change x.stop < o
    omega
  | @alone pre post hpre hpost hends =>
    have hsize : 0 < n := by
      refine Nat.pos_of_ne_zero (fun hzero => ?_)
      obtain ⟨x, hx, htouch⟩ := htouch hzero
      have hne := hends x hx
      omega
    have hbelow : ∀ y ∈ post, o ≤ y.offset := fun y hy => by
      cases post with
      | nil => exact absurd hy List.not_mem_nil
      | cons head rest =>
        have hhead := hpost head rfl
        rcases List.mem_cons.1 hy with rfl | hy
        · exact hhead
        · have hlater := (List.pairwise_cons.1 ((List.pairwise_append.1 hnormal.separated).2.1)).1 y hy
          unfold stop at hlater
          omega
    refine normal_middle.2 ⟨hnormal, hsize, fun x hx => ?_, fun y hy => ?_⟩
    · have hx' := hgap x (List.mem_append_left _ hx)
      have hne := hends x (List.mem_append_left _ hx)
      have hlt := hpre x hx
      change x.stop < o
      omega
    · have hy' := hgap y (List.mem_append_right _ hy)
      have hne := hends y (List.mem_append_right _ hy)
      have hle := hbelow y hy
      have hysize := hnormal.nonempty y (List.mem_append_right _ hy)
      unfold stop at hy' ⊢
      change o + n < y.offset
      omega

theorem take_cover (hsize : n ≤ b.size) (hstop : b.stop < 2 ^ 64) (x : ℕ) :
    cover (takeBlock (pre ++ b :: post) pre.length b n) x + hits ⟨b.offset, n⟩ x = cover (pre ++ b :: post) x := by
  rw [takeBlock_middle hsize hstop]
  split_ifs with h
  · have hb : hits b x = hits ⟨b.offset, n⟩ x := by rw [← h]
    rw [cover_middle, hb]
    omega
  · have hsplit := hits_split b.offset n (b.size - n) x
    rw [Nat.add_sub_cancel' hsize] at hsplit
    have hb : hits b x = hits ⟨b.offset, n⟩ x + hits ⟨b.offset + n, b.size - n⟩ x := hsplit
    rw [cover_middle, cover_middle, hb]
    omega

theorem take_normal (hnormal : Normal (pre ++ b :: post)) (hsize : n ≤ b.size) (hstop : b.stop < 2 ^ 64) :
    Normal (takeBlock (pre ++ b :: post) pre.length b n) := by
  obtain ⟨hrest, hbsize, hleft, hright⟩ := normal_middle.1 hnormal
  rw [takeBlock_middle hsize hstop]
  split_ifs with h
  · exact hrest
  · have hsame : (⟨b.offset + n, b.size - n⟩ : Extent).stop = b.stop := by
      rw [stop_mk]
      unfold stop
      omega
    have hpos : 0 < b.size - n := by omega
    refine normal_middle.2 ⟨hrest, hpos, fun x hx => ?_, fun y hy => hsame ▸ hright y hy⟩
    exact (hleft x hx).trans_le (Nat.le_add_right _ _)

end Effects

end PyannoteCpp.Tallocr
