import PyannoteCpp.HashSet
import PyannoteCpp.PrefixGrammar

set_option autoImplicit false

/-!
# The hash set refines a finite set of pointers

The loops are searches in a table of linear probing. After every run of calls a pointer
has a slot exactly when it is a member, and keeps it until the set is reset.
-/
namespace PyannoteCpp.HashSets
open LinearProbing PrefixGrammar

def HashSet.table (s : HashSet) : Table (BitVec 64) where
  size := s.size
  size_pos := s.size_pos
  used i := decide (i < s.size) && ggmlBitsetGet s.used i
  keys i := s.keys.getD i 0

section Searches

variable {s : HashSet} {key : BitVec 64} {h i : ℕ}

theorem table_used (hi : i < s.size) : s.table.used i = ggmlBitsetGet s.used i := by
  change (decide (i < s.size) && _) = _
  rw [decide_eq_true hi, Bool.true_and]

theorem fill_table (hi : i < s.size) : (fill s i key).table = put s.table i key := by
  have hword : i / 32 < s.used.length := s.used_length ▸ word_lt hi
  have hused : (fill s i key).table.used = Function.update s.table.used i true := by
    funext j
    change (decide (j < s.size) && ggmlBitsetGet (ggmlBitsetSet s.used i) j) = _
    rw [get_set hword]
    by_cases hsame : j = i
    · subst hsame
      rw [Function.update_self, decide_eq_true hi, decide_eq_true rfl]
      rfl
    · rw [Function.update_of_ne hsame, decide_eq_false hsame, Bool.false_or]
      rfl
  have hkeys : (fill s i key).table.keys = Function.update s.table.keys i key := by
    funext j
    change (s.keys.set i key).getD j 0 = _
    rw [List.getD_eq_getElem?_getD, List.getElem?_set]
    by_cases hsame : i = j
    · subst hsame
      rw [Function.update_self, if_pos rfl, if_pos (s.keys_length ▸ hi)]
      rfl
    · rw [Function.update_of_ne (Ne.symm hsame), if_neg hsame]
      exact (List.getD_eq_getElem?_getD ..).symm
  change Table.mk _ _ (fill s i key).table.used (fill s i key).table.keys = _
  rw [hused, hkeys]
  rfl

theorem walk_table {fuel : ℕ} (hi : i < s.size) :
    walk s.table key h (fuel + 1) i =
      if ggmlBitsetGet s.used i = true ∧ s.keys.getD i 0 ≠ key then
        if (i + 1) % s.size = h then none else walk s.table key h fuel ((i + 1) % s.size)
      else some i := by
  rw [walk, table_used hi]
  rfl

theorem findLoop_eq {fuel : ℕ} (hh : h < s.size) (hi : i < s.size) (hfuel : remaining s.size h i ≤ fuel) :
    findLoop s key h fuel i = some ((walk s.table key h fuel i).getD hashsetFull) := by
  induction fuel generalizing i with
  | zero =>
    have hpos := @remaining_pos h i s.size hi
    omega
  | succ fuel ih =>
    rw [findLoop, walk_table hi]
    by_cases hother : ggmlBitsetGet s.used i = true ∧ s.keys.getD i 0 ≠ key
    · rw [if_pos hother, if_pos hother]
      by_cases hback : (i + 1) % s.size = h
      · rw [if_pos hback, if_pos hback]
        rfl
      · have hnext := remaining_next hh hi hback
        rw [if_neg hback, if_neg hback]
        exact ih (Nat.mod_lt _ s.size_pos) (by omega)
    · rw [if_neg hother, if_neg hother]
      rfl

theorem insertLoop_eq {found : ℕ → ℕ} {fuel : ℕ} (hh : h < s.size) (hi : i < s.size)
    (hfuel : remaining s.size h i ≤ fuel) :
    insertLoop s key h found fuel i =
      match walk s.table key h fuel i with
      | none => .error .fatalError
      | some j => if ggmlBitsetGet s.used j = false then .ok (fill s j key, j) else .ok (s, found j) := by
  induction fuel generalizing i with
  | zero =>
    have hpos := @remaining_pos h i s.size hi
    omega
  | succ fuel ih =>
    rw [insertLoop, walk_table hi]
    by_cases hfree : ggmlBitsetGet s.used i = false
    · have hstop : ¬(ggmlBitsetGet s.used i = true ∧ s.keys.getD i 0 ≠ key) := fun hother => by
        rw [hfree] at hother
        cases hother.1
      rw [if_pos hfree, if_neg hstop]
      exact (if_pos hfree).symm
    · rw [if_neg hfree]
      by_cases hkey : s.keys.getD i 0 = key
      · have hstop : ¬(ggmlBitsetGet s.used i = true ∧ s.keys.getD i 0 ≠ key) := fun hother => hother.2 hkey
        rw [if_pos hkey, if_neg hstop]
        exact (if_neg hfree).symm
      · have hgo : ggmlBitsetGet s.used i = true ∧ s.keys.getD i 0 ≠ key := ⟨by simpa using hfree, hkey⟩
        rw [if_neg hkey, if_pos hgo]
        by_cases hback : (i + 1) % s.size = h
        · rw [if_neg (not_not.mpr hback), if_pos hback]
        · have hnext := remaining_next hh hi hback
          rw [if_pos hback, if_neg hback]
          exact ih (Nat.mod_lt _ s.size_pos) (by omega)

def HashSet.place (s : HashSet) (key : BitVec 64) : Option ℕ := find s.table ggmlHash key

theorem remaining_start (hh : h < s.size) : remaining s.size h h ≤ s.size := by
  unfold remaining
  split <;> omega

theorem ggmlHashFind_eq (s : HashSet) (key : BitVec 64) :
    ggmlHashFind s key = some ((s.place key).getD hashsetFull) := by
  have hh : ggmlHash key % s.size < s.size := Nat.mod_lt _ s.size_pos
  exact findLoop_eq hh hh (remaining_start hh)

theorem ggmlHashInsert_eq (s : HashSet) (key : BitVec 64) :
    ggmlHashInsert s key =
      match s.place key with
      | none => .error .fatalError
      | some j => if ggmlBitsetGet s.used j = false then .ok (fill s j key, j) else .ok (s, hashsetAlreadyExists) := by
  have hh : ggmlHash key % s.size < s.size := Nat.mod_lt _ s.size_pos
  exact insertLoop_eq hh hh (remaining_start hh)

theorem ggmlHashFindOrInsert_eq (s : HashSet) (key : BitVec 64) :
    ggmlHashFindOrInsert s key =
      match s.place key with
      | none => .error .fatalError
      | some j => if ggmlBitsetGet s.used j = false then .ok (fill s j key, j) else .ok (s, j) := by
  have hh : ggmlHash key % s.size < s.size := Nat.mod_lt _ s.size_pos
  exact insertLoop_eq hh hh (remaining_start hh)

end Searches

section Members

variable {s s' : HashSet} {M : Finset (BitVec 64)} {key : BitVec 64} {i j : ℕ}

/-- The members are the keys that have a slot. -/
structure Holds (s : HashSet) (M : Finset (BitVec 64)) : Prop where
  placed : Placed s.table ggmlHash
  members : ∀ key, key ∈ M ↔ ∃ i, At s.table ggmlHash key i
  count : (free s.table).card + M.card = s.size

theorem place_lt (h : s.place key = some i) : i < s.size := find_lt h

theorem at_iff : At s.table ggmlHash key i ↔ s.place key = some i ∧ ggmlBitsetGet s.used i = true := by
  constructor
  · rintro ⟨hplace, hused⟩
    exact ⟨hplace, (table_used (place_lt hplace)).symm.trans hused⟩
  · rintro ⟨hplace, hused⟩
    exact ⟨hplace, (table_used (place_lt hplace)).trans hused⟩

theorem Holds.mem_iff (h : Holds s M) (hplace : s.place key = some i) : key ∈ M ↔ ggmlBitsetGet s.used i = true := by
  rw [h.members]
  constructor
  · rintro ⟨j, hat⟩
    obtain ⟨hj, hused⟩ := at_iff.mp hat
    rw [hplace] at hj
    cases hj
    exact hused
  · exact fun hused => ⟨i, at_iff.mpr ⟨hplace, hused⟩⟩

theorem Holds.full_iff (h : Holds s M) : s.place key = none ↔ M.card = s.size ∧ key ∉ M := by
  have hcount := h.count
  constructor
  · intro hnone
    have hall := find_none_iff.mp hnone
    have hempty : free s.table = ∅ := by
      refine Finset.filter_eq_empty_iff.mpr fun j hj => ?_
      rw [(hall j (Finset.mem_range.mp hj)).1]
      decide
    rw [hempty, Finset.card_empty, Nat.zero_add] at hcount
    refine ⟨hcount, fun hkey => ?_⟩
    obtain ⟨j, hat⟩ := (h.members key).mp hkey
    exact Option.some_ne_none j ((at_iff.mp hat).1.symm.trans hnone)
  · rintro ⟨hcard, hkey⟩
    cases hplace : s.place key with
    | none => rfl
    | some j =>
      have hempty : free s.table = ∅ := Finset.card_eq_zero.mp (by omega)
      have hfree : s.table.used j = false := by
        rw [table_used (place_lt hplace)]
        simpa [h.mem_iff hplace] using hkey
      have hmem : j ∈ free s.table := Finset.mem_filter.mpr ⟨Finset.mem_range.mpr (place_lt hplace), hfree⟩
      rw [hempty] at hmem
      cases hmem

def HashSet.keysBelow (s : HashSet) (n : ℕ) : Finset (BitVec 64) :=
  ((Finset.range n).filter fun i => ggmlBitsetGet s.used i = true).image (s.keys.getD · 0)

def HashSet.members (s : HashSet) : Finset (BitVec 64) := s.keysBelow s.size

theorem mem_keysBelow {n : ℕ} : key ∈ s.keysBelow n ↔ ∃ i < n, ggmlBitsetGet s.used i = true ∧ s.keys.getD i 0 = key := by
  unfold HashSet.keysBelow
  simp only [Finset.mem_image, Finset.mem_filter, Finset.mem_range, and_assoc]

theorem at_of_used (h : Placed s.table ggmlHash) (hi : i < s.size) (hused : ggmlBitsetGet s.used i = true) :
    At s.table ggmlHash (s.keys.getD i 0) i := h i ((table_used hi).trans hused)

theorem Holds.ofPlaced (h : Placed s.table ggmlHash) : Holds s s.members := by
  refine ⟨h, fun key => ?_, ?_⟩
  · unfold HashSet.members
    rw [mem_keysBelow]
    constructor
    · rintro ⟨i, hi, hused, rfl⟩
      exact ⟨i, at_of_used h hi hused⟩
    · rintro ⟨i, hat⟩
      obtain ⟨hplace, hused⟩ := at_iff.mp hat
      exact ⟨i, place_lt hplace, hused, hat.keys_eq⟩
  · have hinj : Set.InjOn (s.keys.getD · 0) ((Finset.range s.size).filter fun i => ggmlBitsetGet s.used i = true) := by
      intro i hi j hj hsame
      rw [Finset.mem_coe, Finset.mem_filter, Finset.mem_range] at hi hj
      have hat := at_of_used h hi.1 hi.2
      rw [show s.keys.getD i 0 = s.keys.getD j 0 from hsame] at hat
      exact hat.unique (at_of_used h hj.1 hj.2)
    have hfree : free s.table = (Finset.range s.size).filter fun i => ¬ggmlBitsetGet s.used i = true := by
      refine Finset.filter_congr fun i hi => ?_
      rw [table_used (Finset.mem_range.mp hi)]
      simp
    unfold HashSet.members HashSet.keysBelow
    rw [Finset.card_image_of_injOn hinj, hfree, Nat.add_comm, Finset.card_filter_add_card_filter_not, Finset.card_range]

theorem Holds.filled (h : Holds s M) (hplace : s.place key = some j) (hfree : ggmlBitsetGet s.used j = false) :
    Holds (fill s j key) (insert key M) := by
  have hj := place_lt hplace
  have htable : s.table.used j = false := (table_used hj).trans hfree
  have hnew : key ∉ M := fun hkey => by
    rw [(h.mem_iff hplace).mp hkey] at hfree
    cases hfree
  have hself : At (put s.table j key) ggmlHash key j := at_put_self hplace htable
  refine ⟨?_, fun k => ?_, ?_⟩
  · rw [fill_table hj]
    exact h.placed.put hplace htable
  · rw [fill_table hj, Finset.mem_insert, h.members]
    constructor
    · rintro (rfl | ⟨i, hat⟩)
      · exact ⟨j, hself⟩
      · exact ⟨i, hat.put htable⟩
    · rintro ⟨i, hat⟩
      exact (h.placed.at_of_put hat).imp id fun hold => ⟨i, hold⟩
  · have hcount := h.count
    have hless := free_put (k := key) hj htable
    rw [fill_table hj, Finset.card_insert_of_notMem hnew]
    change _ = s.size
    omega

theorem Holds.insert_member (h : Holds s M) (hplace : s.place key = some j) (hused : ¬ggmlBitsetGet s.used j = false) :
    insert key M = M :=
  Finset.insert_eq_of_mem ((h.mem_iff hplace).mpr (by simpa using hused))

/-- A set that is new or has been reset; its keys mean nothing. -/
def Fresh (s : HashSet) : Prop := s.used = List.replicate (ggmlBitsetSize s.size) 0#32

theorem Fresh.holds (h : Fresh s) : Holds s ∅ := by
  have hfree : ∀ i, s.table.used i = false := fun i => by
    change (decide (i < s.size) && ggmlBitsetGet s.used i) = false
    rw [h, get_clear, Bool.and_false]
  refine ⟨fun i hused => ?_, fun key => ?_, ?_⟩
  · rw [hfree i] at hused
    cases hused
  · refine iff_of_false (Finset.notMem_empty key) ?_
    rintro ⟨i, -, hused⟩
    rw [hfree i] at hused
    cases hused
  · have hall : free s.table = Finset.range s.size := Finset.filter_true_of_mem fun i _ => hfree i
    rw [hall, Finset.card_range, Finset.card_empty, Nat.add_zero]

end Members

section Runs

inductive Op where
  | insert (key : BitVec 64)
  | findOrInsert (key : BitVec 64)
  | find (key : BitVec 64)
  | contains (key : BitVec 64)
  | reset
  deriving DecidableEq

def Op.apply (s : HashSet) : Op → Except Stop HashSet
  | .insert key => (ggmlHashInsert s key).map Prod.fst
  | .findOrInsert key => (ggmlHashFindOrInsert s key).map Prod.fst
  | .find _ | .contains _ => .ok s
  | .reset => .ok (ggmlHashSetReset s)

def runOps (s : HashSet) (ops : List Op) : Except Stop HashSet := ops.foldlM Op.apply s

def Op.members (M : Finset (BitVec 64)) : Op → Finset (BitVec 64)
  | .insert key | .findOrInsert key => Insert.insert key M
  | .find _ | .contains _ => M
  | .reset => ∅

def membersAfter (ops : List Op) : Finset (BitVec 64) := ops.foldl Op.members ∅

structure SetLaws (s : HashSet) (M : Finset (BitVec 64)) : Prop where
  contains : ∀ key, ggmlHashContains s key = some (decide (key ∈ M))
  alreadyExists : ∀ key s' i, ggmlHashInsert s key = .ok (s', i) → (i = hashsetAlreadyExists ↔ key ∈ M)
  member : ∀ key ∈ M, ∃ i < s.size, ggmlHashFind s key = some i ∧ ggmlHashFindOrInsert s key = .ok (s, i)
  distinct : ∀ key ∈ M, ∀ key' ∈ M, ggmlHashFind s key = ggmlHashFind s key' → key = key'
  nonMember : ∀ key ∉ M, ∀ i, ggmlHashFind s key = some i → i ≠ hashsetFull →
    i < s.size ∧ ggmlBitsetGet s.used i = false ∧ ∃ s', ggmlHashInsert s key = .ok (s', i) ∧
      ggmlHashFindOrInsert s key = .ok (s', i) ∧ ggmlHashFind s' key = some i
  full : ∀ key, ggmlHashFind s key = some hashsetFull ↔ M.card = s.size ∧ key ∉ M
  aborts : ∀ key, (∀ r, ggmlHashInsert s key ≠ .ok r) ↔ M.card = s.size ∧ key ∉ M

variable {s s' : HashSet} {M : Finset (BitVec 64)} {key : BitVec 64} {i j : ℕ} {op : Op} {ops : List Op}

theorem slot_ne (h : i < s.size) : i ≠ hashsetFull ∧ i ≠ hashsetAlreadyExists := by
  have hfits := s.fits
  unfold hashsetFull hashsetAlreadyExists
  omega

theorem find_some (h : s.place key = some i) : ggmlHashFind s key = some i := by
  rw [ggmlHashFind_eq, h]
  rfl

theorem find_full : ggmlHashFind s key = some hashsetFull ↔ s.place key = none := by
  rw [ggmlHashFind_eq, Option.some_inj]
  cases hplace : s.place key with
  | none => exact iff_of_true rfl rfl
  | some i => exact iff_of_false (slot_ne (place_lt hplace)).1 (Option.some_ne_none i)

theorem Holds.laws (h : Holds s M) : SetLaws s M := by
  have hmember : ∀ key ∈ M, ∃ i, s.place key = some i ∧ ggmlBitsetGet s.used i = true := fun key hkey => by
    obtain ⟨i, hat⟩ := (h.members key).mp hkey
    exact ⟨i, at_iff.mp hat⟩
  constructor
  case contains =>
    intro key
    unfold ggmlHashContains
    rw [ggmlHashFind_eq]
    change some _ = _
    cases hplace : s.place key with
    | none =>
      have hkey := (h.full_iff.mp hplace).2
      rw [decide_eq_false hkey]
      rfl
    | some i =>
      have hanswer : ggmlBitsetGet s.used i = decide (key ∈ M) := by
        rw [Bool.eq_iff_iff, decide_eq_true_iff]
        exact (h.mem_iff hplace).symm
      rw [Option.getD_some, decide_eq_true (slot_ne (place_lt hplace)).1, Bool.true_and, hanswer]
  case alreadyExists =>
    intro key s' i hinsert
    rw [ggmlHashInsert_eq] at hinsert
    cases hplace : s.place key with
    | none =>
      rw [hplace] at hinsert
      cases hinsert
    | some j =>
      rw [hplace] at hinsert
      rw [h.mem_iff hplace]
      dsimp only at hinsert
      split at hinsert
      · rename_i hfree
        cases hinsert
        rw [hfree]
        exact iff_of_false (slot_ne (place_lt hplace)).2 Bool.false_ne_true
      · rename_i hused
        cases hinsert
        exact iff_of_true rfl (by simpa using hused)
  case member =>
    intro key hkey
    obtain ⟨i, hplace, hused⟩ := hmember key hkey
    refine ⟨i, place_lt hplace, find_some hplace, ?_⟩
    rw [ggmlHashFindOrInsert_eq, hplace]
    exact if_neg (by simpa using hused)
  case distinct =>
    intro key hkey key' hkey' hsame
    obtain ⟨i, hat⟩ := (h.members key).mp hkey
    obtain ⟨i', hat'⟩ := (h.members key').mp hkey'
    rw [find_some hat.1, find_some hat'.1] at hsame
    by_contra hne
    exact hat.ne hat' hne (Option.some.inj hsame)
  case nonMember =>
    intro key hkey i hfind hnotFull
    cases hplace : s.place key with
    | none =>
      rw [find_full.mpr hplace] at hfind
      exact absurd (Option.some.inj hfind).symm hnotFull
    | some j =>
      rw [find_some hplace] at hfind
      cases hfind
      have hfree : ggmlBitsetGet s.used i = false := by simpa [h.mem_iff hplace] using hkey
      refine ⟨place_lt hplace, hfree, fill s i key, ?_, ?_, ?_⟩
      · rw [ggmlHashInsert_eq, hplace]
        exact if_pos hfree
      · rw [ggmlHashFindOrInsert_eq, hplace]
        exact if_pos hfree
      · refine find_some ?_
        unfold HashSet.place
        rw [fill_table (place_lt hplace)]
        exact (at_put_self hplace ((table_used (place_lt hplace)).trans hfree)).1
  case full => exact fun key => find_full.trans h.full_iff
  case aborts =>
    intro key
    rw [← h.full_iff, ggmlHashInsert_eq]
    cases s.place key with
    | none => exact iff_of_true nofun rfl
    | some j =>
      refine iff_of_false (fun hnever => ?_) (Option.some_ne_none j)
      dsimp only at hnever
      split at hnever
      · exact hnever _ rfl
      · exact hnever _ rfl

/-- A call that inserts fills the free place of its key, or finds the key. -/
theorem inserted_cases {found : ℕ → ℕ} {r : HashSet × ℕ}
    (hloop : insertLoop s key (ggmlHash key % s.size) found s.size (ggmlHash key % s.size) = .ok r) :
    ∃ j, s.place key = some j ∧ ((ggmlBitsetGet s.used j = false ∧ r = (fill s j key, j)) ∨
      (¬ggmlBitsetGet s.used j = false ∧ r = (s, found j))) := by
  have hh : ggmlHash key % s.size < s.size := Nat.mod_lt _ s.size_pos
  rw [insertLoop_eq hh hh (remaining_start hh)] at hloop
  change (match s.place key with | none => _ | some j => _) = _ at hloop
  cases hplace : s.place key with
  | none =>
    rw [hplace] at hloop
    cases hloop
  | some j =>
    rw [hplace] at hloop
    dsimp only at hloop
    refine ⟨j, rfl, ?_⟩
    split at hloop
    · exact .inl ⟨‹_›, (Except.ok.inj hloop).symm⟩
    · exact .inr ⟨‹_›, (Except.ok.inj hloop).symm⟩

theorem Holds.insert_new (h : Holds s M) (hkey : key ∉ M) (hroom : M.card < s.size) :
    ∃ j, s.place key = some j ∧ ggmlBitsetGet s.used j = false ∧ ggmlHashInsert s key = .ok (fill s j key, j) := by
  cases hplace : s.place key with
  | none => exact absurd (h.full_iff.mp hplace).1 hroom.ne
  | some j =>
    have hfree : ggmlBitsetGet s.used j = false := by simpa [h.mem_iff hplace] using hkey
    refine ⟨j, rfl, hfree, ?_⟩
    rw [ggmlHashInsert_eq, hplace]
    exact if_pos hfree

theorem Holds.inserted (h : Holds s M) {found : ℕ → ℕ} {r : HashSet × ℕ}
    (hloop : insertLoop s key (ggmlHash key % s.size) found s.size (ggmlHash key % s.size) = .ok r) :
    Holds r.1 (Insert.insert key M) ∧ ∀ k i, At s.table ggmlHash k i → At r.1.table ggmlHash k i := by
  obtain ⟨j, hplace, ⟨hfree, rfl⟩ | ⟨hused, rfl⟩⟩ := inserted_cases hloop
  · refine ⟨h.filled hplace hfree, fun k i hat => ?_⟩
    rw [fill_table (place_lt hplace)]
    exact hat.put ((table_used (place_lt hplace)).trans hfree)
  · rw [h.insert_member hplace hused]
    exact ⟨h, fun k i hat => hat⟩

/-- A call does to the set what it does to the members, and without a reset members keep their slots. -/
theorem Holds.step (h : Holds s M) (hop : op.apply s = .ok s') :
    Holds s' (op.members M) ∧ (op ≠ .reset → ∀ k i, At s.table ggmlHash k i → At s'.table ggmlHash k i) := by
  cases op with
  | insert key =>
    obtain ⟨r, hloop, rfl⟩ := except_map_ok.mp hop
    exact ⟨(h.inserted hloop).1, fun _ => (h.inserted hloop).2⟩
  | findOrInsert key =>
    obtain ⟨r, hloop, rfl⟩ := except_map_ok.mp hop
    exact ⟨(h.inserted hloop).1, fun _ => (h.inserted hloop).2⟩
  | find key =>
    cases hop
    exact ⟨h, fun _ k i hat => hat⟩
  | contains key =>
    cases hop
    exact ⟨h, fun _ k i hat => hat⟩
  | reset =>
    cases hop
    exact ⟨@Fresh.holds (ggmlHashSetReset s) rfl, fun hreset => absurd rfl hreset⟩

theorem Holds.run (h : Holds s M) (hrun : runOps s ops = .ok s') :
    Holds s' (ops.foldl Op.members M) ∧
      (.reset ∉ ops → ∀ k i, At s.table ggmlHash k i → At s'.table ggmlHash k i) := by
  unfold runOps at hrun
  induction ops generalizing s M with
  | nil =>
    cases hrun
    exact ⟨h, fun _ k i hat => hat⟩
  | cons op ops ih =>
    obtain ⟨mid, hop, hrest⟩ := except_bind_ok.mp hrun
    obtain ⟨hmid, hkeep⟩ := h.step hop
    obtain ⟨hend, hlater⟩ := ih hmid hrest
    refine ⟨hend, fun hreset k i hat => ?_⟩
    obtain ⟨hfirst, hothers⟩ := not_or.mp (List.mem_cons.not.mp hreset)
    exact hlater hothers k i (hkeep (Ne.symm hfirst) k i hat)

/-- After every run of calls the set answers as the finite set does, and members keep their slots until a reset. -/
theorem hash_set_refines {s₀ s : HashSet} {ops : List Op} (hfresh : Fresh s₀) (hrun : runOps s₀ ops = .ok s) :
    SetLaws s (membersAfter ops) ∧
      ∀ later s', .reset ∉ later → runOps s later = .ok s' →
        ∀ key ∈ membersAfter ops, ggmlHashFind s' key = ggmlHashFind s key := by
  obtain ⟨hholds, -⟩ := hfresh.holds.run hrun
  refine ⟨hholds.laws, fun later s' hreset hlater key hkey => ?_⟩
  obtain ⟨i, hat⟩ := (hholds.members key).mp hkey
  rw [find_some hat.1, find_some ((hholds.run hlater).2 hreset key i hat).1]

def twoSlots : HashSet := ggmlHashSetNew 2 [48, 64] rfl (by decide)

/-- Both keys begin at slot 1, and the third finds the table full. -/
theorem hash_set_refines_full :
    ∃ s, runOps twoSlots [.insert 16, .findOrInsert 48] = .ok s ∧ SetLaws s {48, 16} ∧
      ggmlHashFind s 80 = some hashsetFull := by
  have hlaws := (@hash_set_refines twoSlots _ [.insert 16, .findOrInsert 48] rfl rfl).1
  exact ⟨_, rfl, hlaws, (hlaws.full 80).mpr (by decide)⟩

end Runs

end PyannoteCpp.HashSets
