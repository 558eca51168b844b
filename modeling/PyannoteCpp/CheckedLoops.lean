import PyannoteCpp.PrefixGrammar

set_option autoImplicit false

/-!
# Loops that may stop

A loop that stops with an error has an invariant over the elements that are
still to come, and an error of the loop is the error of one of its steps.
-/
namespace PyannoteCpp.CheckedLoops

open PrefixGrammar

variable {σ α ε : Type} {f : σ → α → Except ε σ} {I : List α → σ → Prop}

theorem foldlM_steps (h : ∀ x rest s s', I (x :: rest) s → f s x = .ok s' → I rest s') :
    ∀ {l : List α} {s s' : σ}, I l s → l.foldlM f s = .ok s' → I [] s' := by
  intro l
  induction l with
  | nil =>
    intro s s' hs hm
    cases hm
    exact hs
  | cons x rest ih =>
    intro s s' hs hm
    rw [List.foldlM_cons] at hm
    obtain ⟨u, hu, hm⟩ := except_bind_ok.1 hm
    exact ih (h x rest s u hs hu) hm

theorem foldlM_error_iff {l : List α} {s : σ} {e : ε} :
    l.foldlM f s = .error e ↔
      ∃ i x u, l[i]? = some x ∧ (l.take i).foldlM f s = .ok u ∧ f u x = .error e := by
  induction l generalizing s with
  | nil =>
    constructor
    · intro h
      cases h
    · rintro ⟨i, x, u, hx, -, -⟩
      simp at hx
  | cons y rest ih =>
    rw [List.foldlM_cons]
    cases hy : f s y with
    | error e' =>
      constructor
      · intro h
        exact ⟨0, y, s, rfl, rfl, hy.trans h⟩
      · rintro ⟨i, x, u, hx, hu, hstop⟩
        cases i with
        | zero =>
          cases hx
          cases hu
          exact hy.symm.trans hstop
        | succ i =>
          rw [List.take_succ_cons, List.foldlM_cons, hy] at hu
          cases hu
    | ok v =>
      change rest.foldlM f v = .error e ↔ _
      rw [ih]
      constructor
      · rintro ⟨i, x, u, hx, hu, hstop⟩
        refine ⟨i + 1, x, u, hx, ?_, hstop⟩
        rw [List.take_succ_cons, List.foldlM_cons, hy]
        exact hu
      · rintro ⟨i, x, u, hx, hu, hstop⟩
        cases i with
        | zero =>
          cases hx
          cases hu
          rw [hy] at hstop
          cases hstop
        | succ i =>
          rw [List.take_succ_cons, List.foldlM_cons, hy] at hu
          exact ⟨i, x, u, hx, hu, hstop⟩

/-- An invariant of a loop that may stop, by the number of elements that are done. -/
theorem foldlM_take {J : ℕ → σ → Prop} {l : List α} {s s' : σ} (hstart : J 0 s)
    (h : ∀ i x u u', l[i]? = some x → J i u → f u x = .ok u' → J (i + 1) u') :
    ∀ {i : ℕ}, i ≤ l.length → (l.take i).foldlM f s = .ok s' → J i s' := by
  intro i
  induction i generalizing s' with
  | zero =>
    intro _ hrun
    cases hrun
    exact hstart
  | succ i ih =>
    intro hi hrun
    have hx := List.getElem?_eq_getElem (show i < l.length from hi)
    rw [List.take_succ_eq_append_getElem hi, List.foldlM_append] at hrun
    obtain ⟨u, hu, hlast⟩ := except_bind_ok.1 hrun
    rw [List.foldlM_cons] at hlast
    obtain ⟨u', hu', hdone⟩ := except_bind_ok.1 hlast
    cases hdone
    exact h i l[i] u s' hx (ih (by omega) hu) hu'

/-- The same for a loop whose steps know the index of their element. -/
theorem foldlM_zipIdx {J : ℕ → σ → Prop} {g : σ → α × ℕ → Except ε σ} {l : List α} {s s' : σ} (hstart : J 0 s)
    (h : ∀ i x u u', l[i]? = some x → J i u → g u (x, i) = .ok u' → J (i + 1) u')
    (hrun : l.zipIdx.foldlM g s = .ok s') : J l.length s' := by
  have hlength : l.zipIdx.length = l.length := List.length_zipIdx
  have hstep : ∀ (i : ℕ) (entry : α × ℕ) (u u' : σ), l.zipIdx[i]? = some entry → J i u → g u entry = .ok u' →
      J (i + 1) u' := by
    intro i entry u u' hentry hu hok
    obtain ⟨x, hx, rfl⟩ := Option.map_eq_some_iff.1 ((List.getElem?_zipIdx ..).symm.trans hentry)
    rw [Nat.zero_add] at hok
    exact h i x u u' hx hu hok
  have hall : (l.zipIdx.take l.length).foldlM g s = .ok s' := by
    rw [← hlength, List.take_length]
    exact hrun
  exact foldlM_take hstart hstep (Nat.le_of_eq hlength.symm) hall

/-- A loop on the concrete states of abstract ones, none of whose steps stops. -/
theorem foldlM_simulates {Abstract Concrete Item Err : Type} (view : Abstract → Concrete)
    {f : Concrete → Item → Except Err Concrete} {g : Abstract → Item → Abstract} (l : List Item)
    (h : ∀ a, ∀ x ∈ l, f (view a) x = .ok (view (g a x))) (a : Abstract) :
    l.foldlM f (view a) = .ok (view (l.foldl g a)) := by
  induction l generalizing a with
  | nil => rfl
  | cons x rest ih =>
    rw [List.foldlM_cons, h a x List.mem_cons_self]
    exact ih (fun b y hy => h b y (List.mem_cons_of_mem _ hy)) (g a x)

section Returns

variable {β : Type} {p : Except ε α} {P : α → Prop} {Q : β → Prop}

/-- The program ends without an error, with a result in `P`. -/
def Returns (p : Except ε α) (P : α → Prop) : Prop := ∃ a, p = .ok a ∧ P a

theorem returns_ok {a : α} (h : P a) : Returns (.ok a : Except ε α) P := ⟨a, rfl, h⟩

theorem Returns.bind {k : α → Except ε β} (h : Returns p P) (hk : ∀ a, P a → Returns (k a) Q) : Returns (p >>= k) Q := by
  obtain ⟨a, rfl, ha⟩ := h
  exact hk a ha

theorem Returns.mono {P' : α → Prop} (h : Returns p P) (hP : ∀ a, P a → P' a) : Returns p P' := by
  obtain ⟨a, hok, ha⟩ := h
  exact ⟨a, hok, hP a ha⟩

/-- A loop returns when its invariant is kept by every turn. -/
theorem returns_foldlM {J : σ → Prop} {l : List α} (h : ∀ s, J s → ∀ x ∈ l, Returns (f s x) J) {s : σ} (hs : J s) :
    Returns (l.foldlM f s) J := by
  induction l generalizing s with
  | nil => exact returns_ok hs
  | cons x rest ih =>
    rw [List.foldlM_cons]
    exact (h s hs x List.mem_cons_self).bind (fun u hu => ih (fun t ht y hy => h t ht y (List.mem_cons_of_mem _ hy)) hu)

/-- Whatever the program returns is in `P`. -/
def Ensures (p : Except ε α) (P : α → Prop) : Prop := ∀ a, p = .ok a → P a

theorem Ensures.of_bind {k : α → Except ε β} (h : ∀ a, Ensures (k a) Q) : Ensures (p >>= k) Q := by
  intro b hb
  obtain ⟨a, -, hk⟩ := except_bind_ok.1 hb
  exact h a b hk

theorem ensures_foldlM {J : σ → Prop} {l : List α} (h : ∀ s, J s → ∀ x ∈ l, Ensures (f s x) J) {s : σ} (hs : J s) :
    Ensures (l.foldlM f s) J := by
  intro s' hrun
  exact foldlM_steps (I := fun rest u => rest ⊆ l ∧ J u)
    (fun x rest u u' hu hstep => ⟨(List.cons_subset.1 hu.1).2, h u hu.2 x (List.cons_subset.1 hu.1).1 u' hstep⟩)
    ⟨List.Subset.refl l, hs⟩ hrun |>.2

theorem foldlM_turn {l : List α} {s s' : σ} (hrun : l.foldlM f s = .ok s') {x : α} (hx : x ∈ l) :
    ∃ u u', f u x = .ok u' := by
  induction l generalizing s with
  | nil => cases hx
  | cons y rest ih =>
    rw [List.foldlM_cons] at hrun
    obtain ⟨u, hu, hrest⟩ := except_bind_ok.1 hrun
    rcases List.mem_cons.1 hx with rfl | hx
    · exact ⟨s, u, hu⟩
    · exact ih hrest hx

end Returns

end PyannoteCpp.CheckedLoops
