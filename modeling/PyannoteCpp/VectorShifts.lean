import PyannoteCpp.CheckedVector

set_option autoImplicit false

/-!
# Loops that move the cells of a vector

A gap is closed by moving the cells behind it one place down, and opened by
moving them one place up, the last one first. Closing a gap reads one cell
behind the last one it overwrites, so at the end of the vector it leaves it.
-/
namespace PyannoteCpp.VectorShifts
open CheckedVector

variable {F σ : Type}

def copyCell (v : List F) (source target : ℕ) : Except Fault (List F) := do
  let x ← readAt v source
  writeAt v target x

/-- Each of `count` cells from `i` on gets the next one. -/
def shiftDown (v : List F) (i count : ℕ) : Except Fault (List F) :=
  (List.range' i count).foldlM (fun v j => copyCell v (j + 1) j) v

/-- Each of the `count` cells behind `i` gets the one before it, the last one first. -/
def shiftUp (v : List F) (i count : ℕ) : Except Fault (List F) :=
  (List.range' (i + 1) count).reverse.foldlM (fun v j => copyCell v (j - 1) j) v

theorem readAt_middle (front back : List F) (x : F) : readAt (front ++ x :: back) front.length = .ok x := by
  unfold readAt
  rw [if_neg (by omega), Int.toNat_natCast, List.getElem?_append_right le_rfl, Nat.sub_self, List.getElem?_cons_zero]

theorem readAt_next (front back : List F) (x y : F) :
    readAt (front ++ x :: y :: back) (front.length + 1 : ℕ) = .ok y := by
  have h := readAt_middle (front ++ [x]) back y
  rwa [List.append_assoc, List.singleton_append, List.length_append, List.length_singleton] at h

theorem readAt_behind (v : List F) {i : ℕ} (h : v.length ≤ i) : readAt v i = .error .outOfBounds := by
  unfold readAt
  rw [if_neg (by omega), Int.toNat_natCast, List.getElem?_eq_none h]

theorem writeAt_middle (front back : List F) (x y : F) :
    writeAt (front ++ x :: back) front.length y = .ok (front ++ y :: back) := by
  unfold writeAt
  rw [if_pos (by simp), Int.toNat_natCast, List.set_append_right _ _ le_rfl, Nat.sub_self, List.set_cons_zero]

theorem copyCell_down (front back : List F) (x y : F) :
    copyCell (front ++ x :: y :: back) (front.length + 1) front.length = .ok (front ++ y :: y :: back) := by
  unfold copyCell
  rw [readAt_next]
  exact writeAt_middle front (y :: back) x y

theorem copyCell_up (front back : List F) (x y : F) :
    copyCell (front ++ x :: y :: back) front.length (front.length + 1) = .ok (front ++ x :: x :: back) := by
  have hwrite := writeAt_middle (front ++ [x]) back y x
  rw [List.append_assoc, List.singleton_append, List.append_assoc, List.singleton_append, List.length_append,
    List.length_singleton] at hwrite
  unfold copyCell
  rw [readAt_middle]
  exact hwrite

theorem shiftDown_ok (front : List F) (x : F) (moved back : List F) :
    ∃ y, shiftDown (front ++ x :: (moved ++ back)) front.length moved.length = .ok (front ++ moved ++ y :: back) := by
  unfold shiftDown
  induction moved generalizing front x with
  | nil => exact ⟨x, by rw [List.append_nil]; rfl⟩
  | cons z moved ih =>
    obtain ⟨y, hy⟩ := ih (front ++ [z]) z
    rw [List.length_append, List.length_singleton, List.append_assoc, List.singleton_append] at hy
    refine ⟨y, ?_⟩
    rw [List.length_cons, List.range'_succ, List.foldlM_cons, List.cons_append, copyCell_down]
    exact hy.trans (by simp)

theorem shiftDown_leaves (front : List F) (x : F) (moved : List F) :
    shiftDown (front ++ x :: moved) front.length (moved.length + 1) = .error .outOfBounds := by
  unfold shiftDown
  induction moved generalizing front x with
  | nil =>
    have hbehind := readAt_behind (front ++ [x]) (i := front.length + 1) (by simp)
    rw [List.length_nil, Nat.zero_add, List.range'_one, List.foldlM_cons, copyCell, hbehind]
    rfl
  | cons z moved ih =>
    have hrest := ih (front ++ [z]) z
    rw [List.length_append, List.length_singleton, List.append_assoc, List.singleton_append] at hrest
    rw [List.length_cons, List.range'_succ, List.foldlM_cons, copyCell_down]
    exact hrest

theorem shiftUp_ok (front moved : List F) (x : F) (back : List F) :
    ∃ y, shiftUp (front ++ moved ++ x :: back) front.length moved.length = .ok (front ++ y :: (moved ++ back)) := by
  unfold shiftUp
  induction moved using List.reverseRecOn generalizing x back with
  | nil => exact ⟨x, by rw [List.append_nil]; rfl⟩
  | append_singleton moved z ih =>
    obtain ⟨y, hy⟩ := ih z (z :: back)
    refine ⟨y, ?_⟩
    have hcopy := copyCell_up (front ++ moved) back z x
    rw [List.length_append] at hcopy
    have hindex : front.length + 1 + moved.length = front.length + moved.length + 1 := by omega
    rw [List.length_append, List.length_singleton, List.range'_concat, List.reverse_append, List.reverse_singleton,
      List.singleton_append, List.foldlM_cons, Nat.one_mul, hindex, Nat.add_sub_cancel, ← List.append_assoc,
      List.append_assoc (front ++ moved), List.singleton_append, hcopy, List.append_assoc moved, List.singleton_append]
    exact hy

theorem foldlM_readAt (g : σ → F × ℕ → σ) (l back : List F) (s : σ) :
    (List.range l.length).foldlM (fun s i => do
      let x ← readAt (l ++ back) i
      pure (g s (x, i))) s = .ok (l.zipIdx.foldl g s) := by
  induction l using List.reverseRecOn generalizing back with
  | nil => rfl
  | append_singleton l x ih =>
    rw [List.length_append, List.length_singleton, List.range_succ, List.foldlM_append, List.append_assoc,
      List.singleton_append, ih (x :: back), List.zipIdx_append, List.foldl_append]
    rw [ok_bind, List.foldlM_cons, readAt_middle, Nat.zero_add]
    rfl

end PyannoteCpp.VectorShifts
