import PyannoteCpp.ExtentPacking

set_option autoImplicit false

/-!
# Extents in normal form

Extents that are not empty, in order, with a gap between any two. A list in
normal form that covers an interval once is that interval.
-/
namespace PyannoteCpp.Extent

variable {l pre post : List Extent} {b : Extent} {m o n x : ℕ}

structure Normal (l : List Extent) : Prop where
  nonempty : ∀ b ∈ l, 0 < b.size
  separated : l.Pairwise (fun a b => a.stop < b.offset)

/-- Every point below `m` lies in one extent and no other point does. -/
def Fills (m : ℕ) (l : List Extent) : Prop := ∀ x, cover l x = if x < m then 1 else 0

theorem stop_mk (o n : ℕ) : (⟨o, n⟩ : Extent).stop = o + n := rfl

theorem normal_middle : Normal (pre ++ b :: post) ↔ Normal (pre ++ post) ∧ 0 < b.size ∧
    (∀ x ∈ pre, x.stop < b.offset) ∧ ∀ y ∈ post, b.stop < y.offset := by
  constructor
  · rintro ⟨hne, hsep⟩
    rw [List.pairwise_append, List.pairwise_cons] at hsep
    obtain ⟨hpre, ⟨hb, hpost⟩, hcross⟩ := hsep
    refine ⟨⟨fun c hc => hne c ?_, List.pairwise_append.2 ⟨hpre, hpost, fun x hx y hy =>
      hcross x hx y (List.mem_cons_of_mem _ hy)⟩⟩, hne b (by simp), fun x hx => hcross x hx b List.mem_cons_self, hb⟩
    rcases List.mem_append.1 hc with hc | hc
    · exact List.mem_append_left _ hc
    · exact List.mem_append_right _ (List.mem_cons_of_mem _ hc)
  · rintro ⟨⟨hne, hsep⟩, hsize, hleft, hright⟩
    rw [List.pairwise_append] at hsep
    obtain ⟨hpre, hpost, hcross⟩ := hsep
    refine ⟨fun c hc => ?_, List.pairwise_append.2 ⟨hpre, List.pairwise_cons.2 ⟨hright, hpost⟩, fun x hx y hy => ?_⟩⟩
    · rcases List.mem_append.1 hc with hc | hc
      · exact hne c (List.mem_append_left _ hc)
      · rcases List.mem_cons.1 hc with rfl | hc
        · exact hsize
        · exact hne c (List.mem_append_right _ hc)
    · rcases List.mem_cons.1 hy with rfl | hy
      · exact hleft x hx
      · exact hcross x hx y hy

theorem normal_singleton (h : 0 < n) : Normal [⟨o, n⟩] :=
  ⟨fun _ hb => List.mem_singleton.1 hb ▸ h, List.pairwise_singleton _ _⟩

theorem cover_middle (x : ℕ) : cover (pre ++ b :: post) x = hits b x + cover (pre ++ post) x := by
  rw [cover_append, cover_cons, cover_append]
  omega

theorem hits_empty (o x : ℕ) : hits ⟨o, 0⟩ x = 0 :=
  if_neg (fun h : o ≤ x ∧ x < o + 0 => absurd h.2 (not_lt.2 h.1))

theorem exists_hit (h : 0 < cover l x) : ∃ r ∈ l, r.offset ≤ x ∧ x < r.stop := by
  induction l with
  | nil => exact absurd h (by simp [cover])
  | cons r l ih =>
    by_cases hr : r.offset ≤ x ∧ x < r.stop
    · exact ⟨r, List.mem_cons_self, hr⟩
    · have hzero : hits r x = 0 := if_neg hr
      rw [cover_cons, hzero, Nat.zero_add] at h
      obtain ⟨s, hs, hhit⟩ := ih h
      exact ⟨s, List.mem_cons_of_mem _ hs, hhit⟩

theorem cover_pos {r : Extent} (hr : r ∈ l) (hx : r.offset ≤ x ∧ x < r.stop) : 0 < cover l x := by
  obtain ⟨pre, post, rfl⟩ := List.append_of_mem hr
  have hone : hits r x = 1 := if_pos hx
  rw [cover_middle, hone]
  omega

theorem Fills.perm {k : List Extent} (h : Fills m l) (hp : l.Perm k) : Fills m k := fun x => by
  rw [← cover_perm hp, h x]

theorem Fills.stop_le {r : Extent} (h : Fills m l) (hr : r ∈ l) (hsize : 0 < r.size) : r.stop ≤ m := by
  have hlast : r.offset ≤ r.stop - 1 ∧ r.stop - 1 < r.stop := by
    unfold stop
    omega
  have hpos := cover_pos hr hlast
  rw [h] at hpos
  split_ifs at hpos with hlt
  · omega
  · exact absurd hpos (lt_irrefl 0)

theorem Fills.apart {r : Extent} (h : Fills m (r :: l)) (hr : 0 < r.size) {s : Extent} (hs : s ∈ l) (hsize : 0 < s.size) :
    s.stop ≤ r.offset ∨ r.stop ≤ s.offset := by
  by_contra hmeet
  rw [not_or, not_le, not_le] at hmeet
  have hpoint : ∃ x, (r.offset ≤ x ∧ x < r.stop) ∧ s.offset ≤ x ∧ x < s.stop := by
    unfold stop at hmeet ⊢
    exact ⟨max r.offset s.offset, by omega, by omega⟩
  obtain ⟨x, hrx, hsx⟩ := hpoint
  have hone : hits r x = 1 := if_pos hrx
  have hpos := cover_pos hs hsx
  have htotal := h x
  rw [cover_cons, hone] at htotal
  split_ifs at htotal <;> omega

theorem eq_singleton (hnormal : Normal l) (hfills : Fills m l) (hm : 0 < m) : l = [⟨0, m⟩] := by
  cases l with
  | nil =>
    have hzero := hfills 0
    rw [if_pos hm] at hzero
    exact absurd hzero (by simp [cover])
  | cons b rest =>
    have hright := (List.pairwise_cons.1 hnormal.separated).1
    have hsize := hnormal.nonempty b List.mem_cons_self
    have hstop := hfills.stop_le List.mem_cons_self hsize
    have hfirst : b.offset = 0 := by
      obtain ⟨r, hr, hhit⟩ := exists_hit (l := b :: rest) (x := 0) (by rw [hfills, if_pos hm]; exact Nat.one_pos)
      rcases List.mem_cons.1 hr with rfl | hr
      · omega
      · have hgap := hright r hr
        omega
    have hlast : b.stop = m := by
      by_contra hne
      obtain ⟨r, hr, hhit⟩ := exists_hit (l := b :: rest) (x := b.stop)
        (by rw [hfills, if_pos (lt_of_le_of_ne hstop hne)]; exact Nat.one_pos)
      rcases List.mem_cons.1 hr with rfl | hr
      · exact absurd hhit.2 (lt_irrefl _)
      · have hgap := hright r hr
        omega
    have hrest : rest = [] := by
      refine List.eq_nil_iff_forall_not_mem.2 (fun r hr => ?_)
      have hgap := hright r hr
      have hin := hfills.stop_le (List.mem_cons_of_mem _ hr) (hnormal.nonempty r (List.mem_cons_of_mem _ hr))
      unfold stop at hgap hin hlast
      omega
    have hsizes : b.size = m := by
      unfold stop at hlast
      omega
    rw [hrest, ← hsizes, ← hfirst]

end PyannoteCpp.Extent
