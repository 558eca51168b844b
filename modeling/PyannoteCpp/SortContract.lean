import Mathlib.Data.List.Pairwise
import Mathlib.Data.List.Perm.Basic
import Mathlib.Data.List.Sort
import Mathlib.Data.Prod.Lex
import Mathlib.Order.Defs.LinearOrder

set_option autoImplicit false

/-!
# The contract of an unstable sort

`std::sort` leaves the order of equivalent elements open, so its result is a
relation and not a function. The contract is owed only when the comparator is
a strict weak order on the elements; otherwise nothing is promised.
-/
namespace PyannoteCpp.SortContract

variable {α : Type*}

structure StrictWeakOn (lt : α → α → Bool) (l : List α) : Prop where
  irrefl : ∀ a ∈ l, lt a a = false
  trans : ∀ a ∈ l, ∀ b ∈ l, ∀ c ∈ l, lt a b = true → lt b c = true → lt a c = true
  incomparable : ∀ a ∈ l, ∀ b ∈ l, ∀ c ∈ l, lt a b = false → lt b a = false →
    lt b c = false → lt c b = false → lt a c = false ∧ lt c a = false

/-- No later element compares strictly before an earlier one. -/
def Sorted (lt : α → α → Bool) (l : List α) : Prop := l.Pairwise (fun a b => lt b a = false)

def SortResult (lt : α → α → Bool) (l out : List α) : Prop :=
  StrictWeakOn lt l → out.Perm l ∧ Sorted lt out

theorem strictWeakOn_key {κ : Type*} [LinearOrder κ] (key : α → κ) (lt : α → α → Bool) (l : List α)
    (h : ∀ a ∈ l, ∀ b ∈ l, lt a b = decide (key a < key b)) : StrictWeakOn lt l := by
  refine ⟨fun a ha => ?_, fun a ha b hb c hc hab hbc => ?_, fun a ha b hb c hc hab hba hbc hcb => ?_⟩
  · rw [h a ha a ha]
    exact decide_eq_false (lt_irrefl _)
  · rw [h a ha b hb] at hab
    rw [h b hb c hc] at hbc
    rw [h a ha c hc]
    exact decide_eq_true (lt_trans (of_decide_eq_true hab) (of_decide_eq_true hbc))
  · rw [h a ha b hb, decide_eq_false_iff_not, not_lt] at hab
    rw [h b hb a ha, decide_eq_false_iff_not, not_lt] at hba
    rw [h b hb c hc, decide_eq_false_iff_not, not_lt] at hbc
    rw [h c hc b hb, decide_eq_false_iff_not, not_lt] at hcb
    rw [h a ha c hc, h c hc a ha, decide_eq_false_iff_not, decide_eq_false_iff_not, not_lt, not_lt]
    exact ⟨le_trans hbc hab, le_trans hba hcb⟩

/-- Sorting by keys of a linear order yields a permutation with weakly rising keys. -/
theorem SortResult.key_le {κ : Type*} [LinearOrder κ] (key : α → κ) {lt : α → α → Bool}
    {l out : List α} (h : ∀ a ∈ l, ∀ b ∈ l, lt a b = decide (key a < key b))
    (hs : SortResult lt l out) : out.Perm l ∧ out.Pairwise (fun a b => key a ≤ key b) := by
  obtain ⟨hp, hsorted⟩ := hs (strictWeakOn_key key lt l h)
  refine ⟨hp, List.Pairwise.imp_of_mem ?_ hsorted⟩
  intro a b ha hb hab
  rw [h b (hp.mem_iff.1 hb) a (hp.mem_iff.1 ha), decide_eq_false_iff_not, not_lt] at hab
  exact hab

/-- Equal keys may be left in the order of any rank. -/
theorem exists_sortResult_ranked {κ ρ : Type*} [LinearOrder κ] [LinearOrder ρ] (key : α → κ)
    (rank : α → ρ) (lt : α → α → Bool) (l : List α)
    (h : ∀ a ∈ l, ∀ b ∈ l, lt a b = decide (key a < key b)) :
    ∃ out, SortResult lt l out ∧
      out.Pairwise (fun a b => toLex (key a, rank a) ≤ toLex (key b, rank b)) := by
  have perm := List.mergeSort_perm l
    (fun a b => decide (toLex (key a, rank a) ≤ toLex (key b, rank b)))
  have ranked : (l.mergeSort
      (fun a b => decide (toLex (key a, rank a) ≤ toLex (key b, rank b)))).Pairwise
      (fun a b => toLex (key a, rank a) ≤ toLex (key b, rank b)) := by
    refine (List.pairwise_mergeSort ?_ ?_ l).imp of_decide_eq_true
    · intro a b c hab hbc
      exact decide_eq_true (le_trans (of_decide_eq_true hab) (of_decide_eq_true hbc))
    · intro a b
      rcases le_total (toLex (key a, rank a)) (toLex (key b, rank b)) with le | le <;> simp [le]
  refine ⟨_, fun _ => ⟨perm, ranked.imp_of_mem ?_⟩, ranked⟩
  intro a b ha hb hab
  rw [h b (perm.mem_iff.1 hb) a (perm.mem_iff.1 ha), decide_eq_false_iff_not, not_lt]
  rcases Prod.Lex.toLex_le_toLex.1 hab with low | ⟨same, _⟩
  · exact low.le
  · exact same.le

theorem exists_between {κ : Type*} [LinearOrder κ] (key : α → κ) {l : List α}
    (hl : l.Pairwise (fun a b => key a ≤ key b)) {a b c : α} (ha : a ∈ l) (hb : b ∈ l)
    (hc : c ∈ l) (hac : key a < key c) (hcb : key c < key b) :
    ∃ pre mid post, l = pre ++ a :: (mid ++ b :: post) ∧ c ∈ mid := by
  obtain ⟨pre, rest, rfl⟩ := List.append_of_mem ha
  obtain ⟨_, tail, cross⟩ := List.pairwise_append.1 hl
  have behind : ∀ x ∈ pre ++ a :: rest, key a < key x → x ∈ rest := by
    intro x hx hax
    rcases List.mem_append.1 hx with low | high
    · exact absurd (cross x low a List.mem_cons_self) (not_le.2 hax)
    · rcases List.mem_cons.1 high with rfl | high
      · exact absurd hax (lt_irrefl _)
      · exact high
  obtain ⟨mid, post, rfl⟩ := List.append_of_mem (behind b hb (hac.trans hcb))
  obtain ⟨_, tail, _⟩ := List.pairwise_append.1 (List.pairwise_cons.1 tail).2
  refine ⟨pre, mid, post, rfl, ?_⟩
  rcases List.mem_append.1 (behind c hc hac) with low | high
  · exact low
  · rcases List.mem_cons.1 high with rfl | high
    · exact absurd hcb (lt_irrefl _)
    · exact absurd ((List.pairwise_cons.1 tail).1 c high) (not_le.2 hcb)

end PyannoteCpp.SortContract
