import PyannoteCpp.GraphCopy

set_option autoImplicit false

/-!
# The slots of a copied graph

The loop over the slots of the source returns exactly when no tensor of the source is in
the destination and the table has room for both. A tensor that is there already has no
slot to return, and its use count is written far behind the array.
-/
namespace PyannoteCpp.GraphCopy
open LinearProbing PrefixGrammar CheckedLoops HashSets

variable {src dst : Cgraph}

/-- The tensors that have been copied after `n` slots, with their counts. -/
structure SlotsCopied (src dst : Cgraph) (n : ℕ) (st : HashSet × List (BitVec 32)) : Prop where
  holds : Holds st.1 (dst.visited.members ∪ src.visited.keysBelow n)
  size : st.1.size = dst.visited.size
  length : st.2.length = dst.visited.size
  counts : ∀ i < n, ggmlBitsetGet src.visited.used i = true →
    ∃ p, At st.1.table ggmlHash (src.visited.keys.getD i 0) p ∧ st.2[p]? = src.useCounts[i]?
  apart : Disjoint dst.visited.members (src.visited.keysBelow n)

theorem keysBelow_succ (s : HashSet) (n : ℕ) :
    s.keysBelow (n + 1) = if ggmlBitsetGet s.used n = true then insert (s.keys.getD n 0) (s.keysBelow n) else s.keysBelow n := by
  unfold HashSet.keysBelow
  rw [Finset.range_add_one, Finset.filter_insert]
  split
  · rw [Finset.image_insert]
  · rfl

theorem keysBelow_mono (s : HashSet) {m n : ℕ} (h : m ≤ n) : s.keysBelow m ⊆ s.keysBelow n := by
  intro key hkey
  obtain ⟨i, hi, hused, hsame⟩ := mem_keysBelow.mp hkey
  exact mem_keysBelow.mpr ⟨i, hi.trans_le h, hused, hsame⟩

theorem key_notMem_keysBelow {s : HashSet} (h : Placed s.table ggmlHash) {n : ℕ} (hn : n < s.size)
    (hused : ggmlBitsetGet s.used n = true) : s.keys.getD n 0 ∉ s.keysBelow n := by
  intro hkey
  obtain ⟨i, hi, hearlier, hsame⟩ := mem_keysBelow.mp hkey
  have hat := at_of_used h (hi.trans hn) hearlier
  rw [hsame] at hat
  exact absurd (hat.unique (at_of_used h hn hused)) hi.ne

theorem SlotsCopied.start (hdst : WellFormed dst) : SlotsCopied src dst 0 (dst.visited, dst.useCounts) := by
  have hnone : src.visited.keysBelow 0 = ∅ := rfl
  refine ⟨?_, rfl, hdst.useCounts, fun i hi => absurd hi (Nat.not_lt_zero i), ?_⟩
  · rw [hnone, Finset.union_empty]
    exact Holds.ofPlaced hdst.placed
  · rw [hnone]
    exact Finset.disjoint_empty_right _

theorem copySlot_free {st : HashSet × List (BitVec 32)} {n : ℕ} (hfree : ¬ggmlBitsetGet src.visited.used n = true) :
    copySlot src st n = .ok st := if_neg hfree

/-- A used slot is copied exactly when its key is new and gets a free slot. -/
theorem copySlot_used {st st' : HashSet × List (BitVec 32)} {n : ℕ} (hsrc : WellFormed src) (h : SlotsCopied src dst n st)
    (hn : n < src.visited.size) (hused : ggmlBitsetGet src.visited.used n = true) :
    copySlot src st n = .ok st' ↔
      src.visited.keys.getD n 0 ∉ dst.visited.members ∧
      ∃ p c, st.1.place (src.visited.keys.getD n 0) = some p ∧ ggmlBitsetGet st.1.used p = false ∧
        src.useCounts[n]? = some c ∧ st' = (fill st.1 p (src.visited.keys.getD n 0), st.2.set p c) := by
  have hkeys : src.visited.keys[n]? = some (src.visited.keys.getD n 0) := by
    have hlt : n < src.visited.keys.length := src.visited.keys_length ▸ hn
    rw [List.getD_eq_getElem?_getD, List.getElem?_eq_getElem hlt]
    rfl
  have hearlier := key_notMem_keysBelow hsrc.placed hn hused
  generalize src.visited.keys.getD n 0 = key at *
  have hmem : key ∈ dst.visited.members ∪ src.visited.keysBelow n ↔ key ∈ dst.visited.members := by
    rw [Finset.mem_union, or_iff_left hearlier]
  have hlaws := h.holds.laws
  constructor
  · intro hcopy
    unfold copySlot at hcopy
    rw [if_pos hused] at hcopy
    obtain ⟨key', hkey', hcopy⟩ := except_bind_ok.mp hcopy
    obtain ⟨r, hr, hcopy⟩ := except_bind_ok.mp hcopy
    obtain ⟨c, hc, hcopy⟩ := except_bind_ok.mp hcopy
    obtain ⟨counts, hcounts, hcopy⟩ := except_bind_ok.mp hcopy
    cases Option.some.inj (hkeys.symm.trans (readAt_ok.mp hkey'))
    obtain ⟨hlt, rfl⟩ := writeAt_ok.mp hcounts
    have hinsert : ggmlHashInsert st.1 key = .ok r := by
      cases hrun : ggmlHashInsert st.1 key with
      | error e =>
        rw [hrun] at hr
        cases hr
      | ok r' =>
        rw [hrun] at hr
        exact congrArg Except.ok (Except.ok.inj hr)
    -- the sentinel is no index of the counts
    have hslot : r.2 ≠ hashsetAlreadyExists := by
      refine (slot_ne (s := st.1) ?_).2
      rw [h.size, ← h.length]
      exact hlt
    have hnew : key ∉ dst.visited.members := fun hkey =>
      hslot ((hlaws.alreadyExists key r.1 r.2 hinsert).mpr (hmem.mpr hkey))
    obtain ⟨p, hplace, ⟨hfree, rfl⟩ | ⟨hfull, rfl⟩⟩ := inserted_cases hinsert
    · exact ⟨hnew, p, c, hplace, hfree, readAt_ok.mp hc, (Except.ok.inj hcopy).symm⟩
    · exact absurd rfl hslot
  · rintro ⟨hnew, p, c, hplace, hfree, hc, rfl⟩
    have hp : p < st.2.length := by
      rw [h.length, ← h.size]
      exact place_lt hplace
    have hinsert : ggmlHashInsert st.1 key = .ok (fill st.1 p key, p) := by
      rw [ggmlHashInsert_eq, hplace]
      exact if_pos hfree
    unfold copySlot
    rw [if_pos hused]
    refine except_bind_ok.mpr ⟨key, readAt_ok.mpr hkeys, except_bind_ok.mpr ⟨(fill st.1 p key, p), ?_, ?_⟩⟩
    · rw [hinsert]
      rfl
    · exact except_bind_ok.mpr ⟨c, readAt_ok.mpr hc, except_bind_ok.mpr ⟨_, writeAt_ok.mpr ⟨hp, rfl⟩, rfl⟩⟩

theorem SlotsCopied.step {st st' : HashSet × List (BitVec 32)} {n : ℕ} (hsrc : WellFormed src)
    (h : SlotsCopied src dst n st) (hn : n < src.visited.size) (hcopy : copySlot src st n = .ok st') :
    SlotsCopied src dst (n + 1) st' := by
  by_cases hused : ggmlBitsetGet src.visited.used n = true
  · obtain ⟨hnew, p, c, hplace, hfree, hc, rfl⟩ := (copySlot_used hsrc h hn hused).mp hcopy
    have hp := place_lt hplace
    have hbelow : src.visited.keysBelow (n + 1) = insert (src.visited.keys.getD n 0) (src.visited.keysBelow n) := by
      rw [keysBelow_succ, if_pos hused]
    have htable : st.1.table.used p = false := (table_used hp).trans hfree
    have hearlier := key_notMem_keysBelow hsrc.placed hn hused
    refine ⟨?_, h.size, by rw [List.length_set, h.length], fun i hi hiused => ?_, ?_⟩
    · rw [hbelow, Finset.union_insert]
      exact h.holds.filled hplace hfree
    · rw [fill_table hp]
      rcases Nat.lt_succ_iff_lt_or_eq.mp hi with hlt | rfl
      · obtain ⟨q, hat, hcount⟩ := h.counts i hlt hiused
        refine ⟨q, hat.put htable, ?_⟩
        rw [List.getElem?_set_ne (used_ne hat.2 htable).symm]
        exact hcount
      · refine ⟨p, at_put_self hplace htable, ?_⟩
        rw [List.getElem?_set_self (by rw [h.length, ← h.size]; exact hp), hc]
    · rw [hbelow]
      exact Finset.disjoint_insert_right.mpr ⟨hnew, h.apart⟩
  · rw [copySlot_free hused] at hcopy
    cases hcopy
    have hbelow : src.visited.keysBelow (n + 1) = src.visited.keysBelow n := by rw [keysBelow_succ, if_neg hused]
    refine ⟨hbelow ▸ h.holds, h.size, h.length, fun i hi hiused => ?_, hbelow ▸ h.apart⟩
    rcases Nat.lt_succ_iff_lt_or_eq.mp hi with hlt | rfl
    · exact h.counts i hlt hiused
    · exact absurd hiused hused

theorem SlotsCopied.run {st : HashSet × List (BitVec 32)} (hsrc : WellFormed src) (hdst : WellFormed dst) {n : ℕ}
    (hn : n ≤ src.visited.size) (hrun : (List.range n).foldlM (copySlot src) (dst.visited, dst.useCounts) = .ok st) :
    SlotsCopied src dst n st := by
  induction n generalizing st with
  | zero =>
    cases hrun
    exact SlotsCopied.start hdst
  | succ n ih =>
    rw [List.range_succ, List.foldlM_append] at hrun
    obtain ⟨mid, hfirst, hlast⟩ := except_bind_ok.mp hrun
    rw [List.foldlM_cons] at hlast
    obtain ⟨st', hstep, hend⟩ := except_bind_ok.mp hlast
    cases hend
    exact (ih (by omega) hfirst).step hsrc hn hstep

/-- The destination has none of the tensors of the source, and room for them. -/
structure SlotsFree (src dst : Cgraph) : Prop where
  apart : Disjoint dst.visited.members src.visited.members
  room : dst.visited.members.card + src.visited.members.card ≤ dst.visited.size

theorem SlotsCopied.next {st : HashSet × List (BitVec 32)} {n : ℕ} (hsrc : WellFormed src) (hfree : SlotsFree src dst)
    (h : SlotsCopied src dst n st) (hn : n < src.visited.size) : ∃ st', copySlot src st n = .ok st' := by
  by_cases hused : ggmlBitsetGet src.visited.used n = true
  · have hkey : src.visited.keys.getD n 0 ∈ src.visited.members := mem_keysBelow.mpr ⟨n, hn, hused, rfl⟩
    have hnew : src.visited.keys.getD n 0 ∉ dst.visited.members := Finset.disjoint_right.mp hfree.apart hkey
    have hearlier := key_notMem_keysBelow hsrc.placed hn hused
    have hout : src.visited.keys.getD n 0 ∉ dst.visited.members ∪ src.visited.keysBelow n := by
      rw [Finset.mem_union]
      exact not_or.mpr ⟨hnew, hearlier⟩
    have hsubset : insert (src.visited.keys.getD n 0) (src.visited.keysBelow n) ⊆ src.visited.members :=
      Finset.insert_subset hkey (keysBelow_mono _ hn.le)
    have hroom : (dst.visited.members ∪ src.visited.keysBelow n).card < st.1.size := by
      have hcard := Finset.card_le_card hsubset
      have hunion := Finset.card_union_le dst.visited.members (src.visited.keysBelow n)
      have hmax := hfree.room
      rw [Finset.card_insert_of_notMem hearlier] at hcard
      rw [h.size]
      omega
    obtain ⟨p, hplace, hslot, -⟩ := h.holds.insert_new hout hroom
    have hlt : n < src.useCounts.length := hsrc.useCounts ▸ hn
    exact ⟨_, (copySlot_used hsrc h hn hused).mpr ⟨hnew, p, _, hplace, hslot, List.getElem?_eq_getElem hlt, rfl⟩⟩
  · exact ⟨st, copySlot_free hused⟩

theorem copySlots_returns (hsrc : WellFormed src) (hdst : WellFormed dst) (hfree : SlotsFree src dst) {n : ℕ}
    (hn : n ≤ src.visited.size) :
    ∃ st, (List.range n).foldlM (copySlot src) (dst.visited, dst.useCounts) = .ok st := by
  induction n with
  | zero => exact ⟨_, rfl⟩
  | succ n ih =>
    obtain ⟨mid, hfirst⟩ := ih (by omega)
    obtain ⟨st, hstep⟩ := (SlotsCopied.run hsrc hdst (by omega) hfirst).next hsrc hfree hn
    refine ⟨st, ?_⟩
    rw [List.range_succ, List.foldlM_append]
    exact except_bind_ok.mpr ⟨mid, hfirst, except_bind_ok.mpr ⟨st, hstep, rfl⟩⟩

theorem SlotsCopied.free {st : HashSet × List (BitVec 32)} (h : SlotsCopied src dst src.visited.size st) :
    SlotsFree src dst := by
  have hcount := h.holds.count
  rw [Finset.card_union_of_disjoint h.apart, h.size] at hcount
  exact ⟨h.apart, Nat.le.intro ((Nat.add_comm ..).trans hcount)⟩

theorem SlotsCopied.lookup {st : HashSet × List (BitVec 32)} (hsrc : WellFormed src)
    (h : SlotsCopied src dst src.visited.size st) {t : BitVec 64} (ht : t ∈ src.visited.members) :
    ∃ count, slotValue src.visited src.useCounts t = some count ∧ slotValue st.1 st.2 t = some count := by
  obtain ⟨i, hi, hused, rfl⟩ := mem_keysBelow.mp ht
  obtain ⟨p, hat, hcount⟩ := h.counts i hi hused
  have hlt : i < src.useCounts.length := hsrc.useCounts ▸ hi
  unfold slotValue
  rw [find_some (at_of_used hsrc.placed hi hused).1, find_some hat.1]
  change ∃ count, src.useCounts[i]? = some count ∧ st.2[p]? = some count
  rw [hcount]
  exact ⟨_, List.getElem?_eq_getElem hlt, List.getElem?_eq_getElem hlt⟩

end PyannoteCpp.GraphCopy
