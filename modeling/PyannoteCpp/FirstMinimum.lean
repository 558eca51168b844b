import Mathlib.Data.List.Basic
import Mathlib.Tactic

set_option autoImplicit false

/-!
# Scanning for the first smallest candidate

The scan keeps a candidate that lies strictly below the best one so far; the
first one kept has to lie below the value the best one is initialised with.
-/
namespace PyannoteCpp.FirstMinimum

variable {K P : Type*} [LinearOrder K]

/-- One comparison; `none` is the initial value, which `below` compares with. -/
def keep (below : K → Bool) (value : P → K) (best : Option P) (p : P) : Option P :=
  match best with
  | none => if below (value p) then some p else none
  | some b => if value p < value b then some p else some b

def scan (below : K → Bool) (value : P → K) (candidates : List P) : Option P :=
  candidates.foldl (keep below value) none

variable {below : K → Bool} {value : P → K}

theorem foldl_keep_some (below : K → Bool) (l : List P) (b : P) : ∃ m, l.foldl (keep below value) (some b) = some m ∧
    (m = b ∨ m ∈ l) ∧ value m ≤ value b ∧ ∀ p ∈ l, value m ≤ value p := by
  induction l generalizing b with
  | nil => exact ⟨b, rfl, Or.inl rfl, le_refl _, by simp⟩
  | cons a l ih =>
    rw [List.foldl_cons]
    by_cases ha : value a < value b
    · obtain ⟨m, hm, hmem, hle, hall⟩ := ih a
      refine ⟨m, by rw [keep, if_pos ha, hm], Or.inr ?_, hle.trans ha.le, ?_⟩
      · rcases hmem with rfl | hmem
        · exact List.mem_cons_self
        · exact List.mem_cons_of_mem _ hmem
      · rintro p (_ | ⟨_, hp⟩)
        · exact hle
        · exact hall p hp
    · obtain ⟨m, hm, hmem, hle, hall⟩ := ih b
      refine ⟨m, by rw [keep, if_neg ha, hm], hmem.imp_right (List.mem_cons_of_mem _), hle, ?_⟩
      rintro p (_ | ⟨_, hp⟩)
      · exact hle.trans (not_lt.1 ha)
      · exact hall p hp

theorem scan_some {l : List P} (h : ∀ p ∈ l, below (value p) = true) (hne : l ≠ []) :
    ∃ m ∈ l, scan below value l = some m ∧ ∀ p ∈ l, value m ≤ value p := by
  cases l with
  | nil => exact absurd rfl hne
  | cons a l =>
    obtain ⟨m, hm, hmem, hle, hall⟩ := foldl_keep_some below l a
    refine ⟨m, List.mem_cons.2 hmem, ?_, ?_⟩
    · rw [scan, List.foldl_cons, keep, if_pos (h a List.mem_cons_self), hm]
    · rintro p (_ | ⟨_, hp⟩)
      · exact hle
      · exact hall p hp

theorem foldl_keep_mem {l : List P} {best : Option P} {m : P}
    (h : l.foldl (keep below value) best = some m) : best = some m ∨ m ∈ l := by
  induction l generalizing best with
  | nil => exact Or.inl h
  | cons a l ih =>
    rcases ih h with hk | hm
    · unfold keep at hk
      split at hk <;> split_ifs at hk <;> cases hk <;> simp
    · exact Or.inr (List.mem_cons_of_mem _ hm)

theorem scan_mem {l : List P} {m : P} (h : scan below value l = some m) : m ∈ l :=
  (foldl_keep_mem h).resolve_left (by simp)

theorem scan_eq_none_iff {l : List P} (h : ∀ p ∈ l, below (value p) = true) :
    scan below value l = none ↔ l = [] := by
  constructor
  · intro hn
    by_contra hne
    obtain ⟨m, _, hm, _⟩ := scan_some h hne
    rw [hn] at hm
    cases hm
  · rintro rfl
    rfl

theorem scan_spec {l : List P} (h : ∀ p ∈ l, below (value p) = true) {m : P}
    (hm : scan below value l = some m) : m ∈ l ∧ ∀ p ∈ l, value m ≤ value p := by
  have hne : l ≠ [] := by
    rintro rfl
    cases hm
  obtain ⟨b, hb, hs, hall⟩ := scan_some h hne
  rw [hm] at hs
  cases hs
  exact ⟨hb, hall⟩

end PyannoteCpp.FirstMinimum
