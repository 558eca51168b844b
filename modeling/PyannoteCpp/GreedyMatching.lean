import Mathlib.Logic.Function.Basic
import Mathlib.Tactic

set_option autoImplicit false

/-!
# Greedy matching along a list of candidate edges

Edges are tried in the order of the list. The first edge refused by `stop`
ends the scan; an edge with a used endpoint is skipped; any other edge joins
its endpoints and marks both as used.
-/
namespace PyannoteCpp.GreedyMatching

variable {Edge Left Right : Type*}

structure Matching (Left Right : Type*) where
  partner : Left → Option Right
  usedLeft : Left → Bool
  usedRight : Right → Bool

def unmatched : Matching Left Right := ⟨fun _ => none, fun _ => false, fun _ => false⟩

/-- The marks record exactly who is matched, and no right endpoint is shared. -/
structure Consistent (m : Matching Left Right) : Prop where
  usedLeft : ∀ l, m.usedLeft l = true ↔ ∃ r, m.partner l = some r
  usedRight : ∀ r, m.usedRight r = true ↔ ∃ l, m.partner l = some r
  injective : ∀ l k r, m.partner l = some r → m.partner k = some r → l = k

theorem unmatched_consistent : Consistent (unmatched : Matching Left Right) := by
  refine ⟨fun l => ?_, fun r => ?_, fun l k r h => ?_⟩ <;> simp [unmatched] at *

variable [DecidableEq Left] [DecidableEq Right]

def Matching.join (m : Matching Left Right) (l : Left) (r : Right) : Matching Left Right where
  partner := Function.update m.partner l (some r)
  usedLeft := Function.update m.usedLeft l true
  usedRight := Function.update m.usedRight r true

@[simp] theorem join_partner (m : Matching Left Right) (l : Left) (r : Right) :
    (m.join l r).partner = Function.update m.partner l (some r) := rfl

@[simp] theorem join_usedLeft (m : Matching Left Right) (l : Left) (r : Right) :
    (m.join l r).usedLeft = Function.update m.usedLeft l true := rfl

@[simp] theorem join_usedRight (m : Matching Left Right) (l : Left) (r : Right) :
    (m.join l r).usedRight = Function.update m.usedRight r true := rfl

def greedy (left : Edge → Left) (right : Edge → Right) (stop : Edge → Bool) :
    List Edge → Matching Left Right → Matching Left Right
  | [], m => m
  | e :: es, m =>
    if stop e then m
    else if m.usedLeft (left e) || m.usedRight (right e) then greedy left right stop es m
    else greedy left right stop es (m.join (left e) (right e))

theorem Consistent.join {m : Matching Left Right} (h : Consistent m) {l : Left} {r : Right}
    (hl : m.usedLeft l = false) (hr : m.usedRight r = false) : Consistent (m.join l r) := by
  have free : m.partner l = none := by
    rw [← Option.not_isSome_iff_eq_none, Option.isSome_iff_exists, ← h.usedLeft, hl]
    decide
  have fresh : ∀ k, m.partner k ≠ some r := by
    intro k hk
    have used := (h.usedRight r).2 ⟨k, hk⟩
    rw [hr] at used
    contradiction
  refine ⟨fun k => ?_, fun q => ?_, fun j k q hj hk => ?_⟩
  · by_cases hk : k = l
    · subst k
      simp
    · simpa [Function.update_of_ne hk] using h.usedLeft k
  · by_cases hq : q = r
    · subst q
      simp only [join_usedRight, join_partner, Function.update_self, true_iff]
      exact ⟨l, Function.update_self ..⟩
    · rw [join_usedRight, join_partner, Function.update_of_ne hq, h.usedRight q]
      constructor
      · rintro ⟨k, hk⟩
        refine ⟨k, ?_⟩
        rw [Function.update_of_ne]
        · exact hk
        · rintro rfl
          rw [free] at hk
          contradiction
      · rintro ⟨k, hk⟩
        by_cases hkl : k = l
        · subst k
          rw [Function.update_self, Option.some.injEq] at hk
          exact absurd hk.symm hq
        · exact ⟨k, by rwa [Function.update_of_ne hkl] at hk⟩
  · by_cases ej : j = l <;> by_cases ek : k = l
    · exact ej.trans ek.symm
    · subst j
      simp only [join_partner, Function.update_self, Option.some.injEq,
        Function.update_of_ne ek] at hj hk
      exact absurd (hj ▸ hk) (fresh k)
    · subst k
      simp only [join_partner, Function.update_self, Option.some.injEq,
        Function.update_of_ne ej] at hj hk
      exact absurd (hk ▸ hj) (fresh j)
    · simp only [join_partner, Function.update_of_ne ej, Function.update_of_ne ek] at hj hk
      exact h.injective j k q hj hk

section Scan

variable (left : Edge → Left) (right : Edge → Right) (stop : Edge → Bool)

/-- Whatever the order of the edges, the scan keeps the marks truthful. -/
theorem greedy_consistent (es : List Edge) {m : Matching Left Right} (h : Consistent m) :
    Consistent (greedy left right stop es m) := by
  induction es generalizing m with
  | nil => exact h
  | cons e es ih =>
    rw [greedy]
    split_ifs with hs hu
    · exact h
    · exact ih h
    · rw [Bool.or_eq_true, not_or, Bool.not_eq_true, Bool.not_eq_true] at hu
      exact ih (h.join hu.1 hu.2)

theorem greedy_partner (es : List Edge) (m : Matching Left Right) {l : Left} {r : Right}
    (h : (greedy left right stop es m).partner l = some r) :
    m.partner l = some r ∨ ∃ e ∈ es, left e = l ∧ right e = r ∧ stop e = false := by
  induction es generalizing m with
  | nil => exact Or.inl h
  | cons e es ih =>
    rw [greedy] at h
    split_ifs at h with hs hu
    · exact Or.inl h
    · rcases ih m h with old | ⟨e', he, hl, hr, hst⟩
      · exact Or.inl old
      · exact Or.inr ⟨e', List.mem_cons_of_mem _ he, hl, hr, hst⟩
    · rcases ih _ h with old | ⟨e', he, hl, hr, hst⟩
      · by_cases hl : l = left e
        · subst hl
          rw [join_partner, Function.update_self, Option.some.injEq] at old
          exact Or.inr ⟨e, List.mem_cons_self, rfl, old, by simpa using hs⟩
        · rw [join_partner, Function.update_of_ne hl] at old
          exact Or.inl old
      · exact Or.inr ⟨e', List.mem_cons_of_mem _ he, hl, hr, hst⟩

theorem greedy_keeps (es : List Edge) (m : Matching Left Right) {l : Left} (h : m.usedLeft l = true) :
    (greedy left right stop es m).partner l = m.partner l := by
  induction es generalizing m with
  | nil => rfl
  | cons e es ih =>
    rw [greedy]
    split_ifs with hs hu
    · rfl
    · exact ih m h
    · have other : l ≠ left e := by
        rintro rfl
        rw [Bool.or_eq_true, not_or] at hu
        exact hu.1 h
      rw [ih (m.join (left e) (right e)) (by rw [join_usedLeft, Function.update_of_ne other, h]),
        join_partner, Function.update_of_ne other]

variable {κ : Type*} [LinearOrder κ] (key : Edge → κ)

/-- Along rising keys an edge is left out only for one that shares an endpoint and is no longer. -/
theorem greedy_stable_from (es : List Edge) (m : Matching Left Right)
    (rising : es.Pairwise (fun a b => key a ≤ key b))
    (upward : ∀ a ∈ es, ∀ b ∈ es, key a ≤ key b → stop a = true → stop b = true)
    {e : Edge} (he : e ∈ es) (hstop : stop e = false) :
    (m.usedLeft (left e) = true ∨ m.usedRight (right e) = true) ∨
      ∃ f ∈ es, key f ≤ key e ∧ (left f = left e ∨ right f = right e) ∧
        (greedy left right stop es m).partner (left f) = some (right f) := by
  induction es generalizing m with
  | nil => cases he
  | cons a es ih =>
    obtain ⟨first, rest⟩ := List.pairwise_cons.1 rising
    have le : key a ≤ key e := by
      rcases List.mem_cons.1 he with rfl | he
      · exact le_rfl
      · exact first e he
    have going : ¬stop a = true := by
      intro ends
      rw [upward a List.mem_cons_self e he le ends] at hstop
      cases hstop
    have upward' : ∀ a ∈ es, ∀ b ∈ es, key a ≤ key b → stop a = true → stop b = true := fun b hb c hc =>
      upward b (List.mem_cons_of_mem a hb) c (List.mem_cons_of_mem a hc)
    rw [greedy, if_neg going]
    by_cases used : (m.usedLeft (left a) || m.usedRight (right a)) = true
    · rw [if_pos used]
      rcases List.mem_cons.1 he with rfl | he
      · exact Or.inl (by rwa [Bool.or_eq_true] at used)
      · refine (ih m rest upward' he).imp_right ?_
        rintro ⟨f, hf, short, shared, joined⟩
        exact ⟨f, List.mem_cons_of_mem a hf, short, shared, joined⟩
    · rw [if_neg used]
      have joined : (greedy left right stop es (m.join (left a) (right a))).partner (left a) = some (right a) := by
        rw [greedy_keeps left right stop es _ (by simp), join_partner, Function.update_self]
      by_cases shared : left a = left e ∨ right a = right e
      · exact Or.inr ⟨a, List.mem_cons_self, le, shared, joined⟩
      · rw [not_or] at shared
        have tail : e ∈ es := by
          rcases List.mem_cons.1 he with rfl | he
          · exact absurd rfl shared.1
          · exact he
        rcases ih (m.join (left a) (right a)) rest upward' tail with old | ⟨f, hf, short, common, joined⟩
        · rw [join_usedLeft, join_usedRight, Function.update_of_ne (Ne.symm shared.1),
            Function.update_of_ne (Ne.symm shared.2)] at old
          exact Or.inl old
        · exact Or.inr ⟨f, List.mem_cons_of_mem a hf, short, common, joined⟩

theorem greedy_stable (es : List Edge) (rising : es.Pairwise (fun a b => key a ≤ key b))
    (upward : ∀ a ∈ es, ∀ b ∈ es, key a ≤ key b → stop a = true → stop b = true) {e : Edge} (he : e ∈ es)
    (hstop : stop e = false) :
    ∃ f ∈ es, key f ≤ key e ∧ (left f = left e ∨ right f = right e) ∧
      (greedy left right stop es unmatched).partner (left f) = some (right f) := by
  rcases greedy_stable_from left right stop key es unmatched rising upward he hstop with used | found
  · simp [unmatched] at used
  · exact found

end Scan
end PyannoteCpp.GreedyMatching
