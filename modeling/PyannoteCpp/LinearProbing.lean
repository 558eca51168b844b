import Mathlib.Data.Finset.Card
import Mathlib.Logic.Function.Basic

set_option autoImplicit false

/-!
# Linear probing

A table of slots. A key is looked for from the slot of its hash on, around the
table, until a slot has it or is free. Filling a free slot moves no key that is
in the table.
-/
namespace PyannoteCpp.LinearProbing

/-- The key of a slot means something only when the slot is used. -/
structure Table (α : Type) where
  size : ℕ
  size_pos : 0 < size
  used : ℕ → Bool
  keys : ℕ → α

variable {α : Type} [DecidableEq α]

def walk (table : Table α) (key : α) (h : ℕ) : ℕ → ℕ → Option ℕ
  | 0, _ => none
  | fuel + 1, i =>
    if table.used i = true ∧ table.keys i ≠ key then
      if (i + 1) % table.size = h then none else walk table key h fuel ((i + 1) % table.size)
    else some i

def find (table : Table α) (hash : α → ℕ) (key : α) : Option ℕ :=
  walk table key (hash key % table.size) table.size (hash key % table.size)

def put (table : Table α) (i : ℕ) (key : α) : Table α :=
  { table with used := Function.update table.used i true, keys := Function.update table.keys i key }

def At (table : Table α) (hash : α → ℕ) (key : α) (i : ℕ) : Prop :=
  find table hash key = some i ∧ table.used i = true

def free (table : Table α) : Finset ℕ := {i ∈ Finset.range table.size | table.used i = false}

variable {table : Table α} {hash : α → ℕ} {key k : α} {h i j e : ℕ}

def remaining (n h i : ℕ) : ℕ := if i < h then h - i else n + h - i

theorem remaining_pos {n : ℕ} (hi : i < n) : 0 < remaining n h i := by
  unfold remaining
  split <;> omega

theorem remaining_next {n : ℕ} (hh : h < n) (hi : i < n) (hback : (i + 1) % n ≠ h) :
    remaining n h ((i + 1) % n) + 1 = remaining n h i := by
  unfold remaining
  by_cases hend : i + 1 = n
  · rw [hend, Nat.mod_self] at hback ⊢
    split <;> split <;> omega
  · rw [Nat.mod_eq_of_lt (by omega)] at hback ⊢
    split <;> split <;> omega

theorem remaining_last {n : ℕ} (hi : i < n) (hback : (i + 1) % n = h) : remaining n h i = 1 := by
  unfold remaining
  by_cases hend : i + 1 = n
  · rw [hend, Nat.mod_self] at hback
    split <;> omega
  · rw [Nat.mod_eq_of_lt (by omega)] at hback
    split <;> omega

theorem remaining_inj {n : ℕ} (hi : i < n) (hj : j < n) (hsame : remaining n h i = remaining n h j) : i = j := by
  unfold remaining at hsame
  split at hsame <;> split at hsame <;> omega

/-- A search that finds no place has seen every slot up to its start. -/
theorem walk_none {fuel : ℕ} (hh : h < table.size) (hi : i < table.size) (hfuel : remaining table.size h i ≤ fuel)
    (hw : walk table key h fuel i = none) (hj : j < table.size)
    (hseen : remaining table.size h j ≤ remaining table.size h i) : table.used j = true ∧ table.keys j ≠ key := by
  induction fuel generalizing i with
  | zero =>
    have hpos := @remaining_pos h i table.size hi
    omega
  | succ fuel ih =>
    rw [walk] at hw
    by_cases hused : table.used i = true ∧ table.keys i ≠ key
    · rw [if_pos hused] at hw
      by_cases hsame : j = i
      · rw [hsame]
        exact hused
      have hless : remaining table.size h j < remaining table.size h i :=
        hseen.lt_of_ne fun heq => hsame (remaining_inj hj hi heq)
      by_cases hback : (i + 1) % table.size = h
      · have hone := remaining_last hi hback
        have hpos := @remaining_pos h j table.size hj
        omega
      · rw [if_neg hback] at hw
        have hnext := remaining_next hh hi hback
        exact ih (Nat.mod_lt _ table.size_pos) (by omega) hw (by omega)
    · rw [if_neg hused] at hw
      cases hw

theorem walk_some {fuel : ℕ} (hi : walk table key h fuel i = some j) :
    table.used j = true → table.keys j = key := by
  induction fuel generalizing i with
  | zero => cases hi
  | succ fuel ih =>
    rw [walk] at hi
    by_cases hused : table.used i = true ∧ table.keys i ≠ key
    · rw [if_pos hused] at hi
      split at hi
      · cases hi
      · exact ih hi
    · rw [if_neg hused] at hi
      cases hi
      intro hu
      by_contra hne
      exact hused ⟨hu, hne⟩

theorem walk_lt {fuel : ℕ} (hi : i < table.size) (hw : walk table key h fuel i = some j) : j < table.size := by
  induction fuel generalizing i with
  | zero => cases hw
  | succ fuel ih =>
    rw [walk] at hw
    split at hw
    · split at hw
      · cases hw
      · exact ih (Nat.mod_lt _ table.size_pos) hw
    · cases hw
      exact hi

/-- Every slot before the one found is used, so a filled slot is not among them. -/
theorem walk_put {fuel : ℕ} (hfree : table.used j = false) (hw : walk table key h fuel i = some e)
    (hend : table.used e = true ∨ e = j ∧ k = key) : walk (put table j k) key h fuel i = some e := by
  induction fuel generalizing i with
  | zero => cases hw
  | succ fuel ih =>
    rw [walk] at hw ⊢
    by_cases hused : table.used i = true ∧ table.keys i ≠ key
    · have hij : i ≠ j := by
        intro hij
        rw [hij, hfree] at hused
        cases hused.1
      have hsame : (put table j k).used i = true ∧ (put table j k).keys i ≠ key := by
        simp only [put, Function.update_of_ne hij]
        exact hused
      rw [if_pos hused] at hw
      rw [if_pos hsame]
      change (if (i + 1) % table.size = h then none else _) = _
      split at hw
      · cases hw
      · rename_i hback
        rw [if_neg hback]
        exact ih hw
    · rw [if_neg hused] at hw
      cases hw
      refine if_neg ?_
      rintro ⟨-, hne⟩
      rcases hend with hend | ⟨rfl, rfl⟩
      · have hij : e ≠ j := by
          intro hij
          rw [hij, hfree] at hend
          cases hend
        simp only [put, Function.update_of_ne hij] at hne
        exact hused ⟨hend, hne⟩
      · simp [put] at hne

theorem find_lt (h : find table hash key = some i) : i < table.size :=
  walk_lt (Nat.mod_lt _ table.size_pos) h

theorem find_none_iff : find table hash key = none ↔ ∀ i < table.size, table.used i = true ∧ table.keys i ≠ key := by
  have hh : hash key % table.size < table.size := Nat.mod_lt _ table.size_pos
  have hround : remaining table.size (hash key % table.size) (hash key % table.size) = table.size := by
    unfold remaining
    rw [if_neg (Nat.lt_irrefl _), Nat.add_sub_cancel]
  constructor
  · intro hnone i hi
    refine walk_none hh hh hround.le hnone hi ?_
    rw [hround]
    unfold remaining
    split <;> omega
  · intro hall
    cases hfind : find table hash key with
    | none => rfl
    | some i =>
      obtain ⟨hused, hne⟩ := hall i (find_lt hfind)
      exact absurd (walk_some hfind hused) hne

theorem At.keys_eq (h : At table hash key i) : table.keys i = key := walk_some h.1 h.2

theorem At.unique (h : At table hash key i) (h' : At table hash key j) : i = j :=
  Option.some.inj (h.1.symm.trans h'.1)

theorem At.ne (h : At table hash key i) (h' : At table hash k j) (hne : key ≠ k) : i ≠ j := by
  intro hij
  subst hij
  exact hne (h.keys_eq.symm.trans h'.keys_eq)

omit [DecidableEq α] in
theorem used_ne (h : table.used i = true) (hfree : table.used j = false) : i ≠ j := by
  intro hij
  rw [hij, hfree] at h
  cases h

omit [DecidableEq α] in
theorem put_used (h : i ≠ j) : (put table j k).used i = table.used i := Function.update_of_ne h ..

omit [DecidableEq α] in
theorem put_keys (h : i ≠ j) : (put table j k).keys i = table.keys i := Function.update_of_ne h ..

theorem At.put (h : At table hash key i) (hfree : table.used j = false) : At (put table j k) hash key i :=
  ⟨walk_put hfree h.1 (.inl h.2), (put_used (used_ne h.2 hfree)).trans h.2⟩

theorem at_put_self (h : find table hash key = some j) (hfree : table.used j = false) :
    At (put table j key) hash key j :=
  ⟨walk_put hfree h (.inr ⟨rfl, rfl⟩), Function.update_self ..⟩

/-- Every used slot is the one where a search for its key ends. -/
def Placed (table : Table α) (hash : α → ℕ) : Prop := ∀ i, table.used i = true → At table hash (table.keys i) i

theorem Placed.put (h : Placed table hash) (hfind : find table hash k = some j) (hfree : table.used j = false) :
    Placed (put table j k) hash := by
  intro i hused
  by_cases hij : i = j
  · subst hij
    have hkey : (LinearProbing.put table i k).keys i = k := Function.update_self ..
    rw [hkey]
    exact at_put_self hfind hfree
  · rw [put_used hij] at hused
    rw [put_keys hij]
    exact (h i hused).put hfree

theorem Placed.at_of_put (h : Placed table hash) (hput : At (LinearProbing.put table j k) hash key i) :
    key = k ∨ At table hash key i := by
  by_cases hij : i = j
  · subst hij
    have hkey : (LinearProbing.put table i k).keys i = k := Function.update_self ..
    exact .inl (hput.keys_eq.symm.trans hkey)
  · have hkey := hput.keys_eq
    have hused := hput.2
    rw [put_used hij] at hused
    rw [put_keys hij] at hkey
    exact .inr (hkey ▸ h i hused)

omit [DecidableEq α] in
theorem free_put (hj : j < table.size) (hfree : table.used j = false) :
    (free (put table j k)).card + 1 = (free table).card := by
  have herase : free (put table j k) = (free table).erase j := by
    ext i
    unfold free
    rw [Finset.mem_filter, Finset.mem_erase, Finset.mem_filter]
    change i ∈ Finset.range table.size ∧ Function.update table.used j true i = false ↔ _
    by_cases hij : i = j
    · subst hij
      simp
    · rw [Function.update_of_ne hij]
      simp [hij]
  have hmem : j ∈ free table := by simp [free, hj, hfree]
  rw [herase]
  exact Finset.card_erase_add_one hmem

end PyannoteCpp.LinearProbing
