import Mathlib.Data.List.Pairwise
import Mathlib.Tactic

set_option autoImplicit false

/-!
# While loops under a measure

A turn of the loop either leaves it or reports an event and moves to a state
with a smaller measure, so a run ends from every state. A ghost component
folds the events and never steers the loop.
-/
namespace PyannoteCpp

structure DescendingLoop (State Event : Type*) where
  step : State → Option (Event × State)
  measure : State → ℕ
  lower : ∀ s e u, step s = some (e, u) → measure u < measure s

namespace DescendingLoop

variable {State Event Ghost : Type*} (L : DescendingLoop State Event)

def run (s : State) : List Event × State :=
  match _turn : L.step s with
  | none => ([], s)
  | some (e, u) => (e :: (run u).1, (run u).2)
termination_by L.measure s
decreasing_by all_goals exact L.lower _ _ _ _turn

theorem run_none {s : State} (h : L.step s = none) : L.run s = ([], s) := by
  rw [run]
  split
  · rfl
  · simp_all

theorem run_some {s u : State} {e : Event} (h : L.step s = some (e, u)) :
    L.run s = (e :: (L.run u).1, (L.run u).2) := by
  rw [run]
  split
  · simp_all
  · next e' u' h' =>
      rw [h] at h'
      cases h'
      rfl

/-- Induction along a run: the last state, then one turn in front of a run. -/
theorem run_induct {P : State → Prop} (stop : ∀ s, L.step s = none → P s)
    (turn : ∀ s e u, L.step s = some (e, u) → P u → P s) (s : State) : P s := by
  induction hm : L.measure s using Nat.strong_induction_on generalizing s with
  | _ m ih =>
    cases h : L.step s with
    | none => exact stop s h
    | some x => exact turn s x.1 x.2 h (ih _ (hm ▸ L.lower s x.1 x.2 h) x.2 rfl)

theorem run_stopped (s : State) : L.step (L.run s).2 = none := by
  induction s using L.run_induct with
  | stop s h => rw [L.run_none h, h]
  | turn s e u h ih => rw [L.run_some h, ih]

theorem run_invariant {I : State → Prop} (turn : ∀ s e u, I s → L.step s = some (e, u) → I u)
    {s : State} (hs : I s) : I (L.run s).2 := by
  induction s using L.run_induct with
  | stop s h => rwa [L.run_none h]
  | turn s e u h ih =>
    rw [L.run_some h]
    exact ih (turn s e u hs h)

theorem run_pairwise {I : State → Prop} {r : Event → Event → Prop} (trans : ∀ a b c, r a b → r b c → r a c)
    (turn : ∀ s e u, I s → L.step s = some (e, u) → I u)
    (next : ∀ s e u f v, I s → L.step s = some (e, u) → L.step u = some (f, v) → r e f)
    {s : State} (hs : I s) : (L.run s).1.Pairwise r := by
  induction s using L.run_induct with
  | stop s h =>
    rw [L.run_none h]
    exact List.Pairwise.nil
  | turn s e u h ih =>
    have tail := ih (turn s e u hs h)
    rw [L.run_some h]
    refine List.pairwise_cons.2 ⟨fun f hf => ?_, tail⟩
    cases hu : L.step u with
    | none =>
      rw [L.run_none hu] at hf
      simp at hf
    | some x =>
      rw [L.run_some hu] at hf tail
      have first := next s e u x.1 x.2 hs h hu
      rcases List.mem_cons.1 hf with rfl | hf
      · exact first
      · exact trans _ _ _ first ((List.pairwise_cons.1 tail).1 f hf)

/-- A loop that leaves no earlier than `L` runs through the whole of `L` first. -/
theorem run_extend (L' : DescendingLoop State Event) (h : ∀ s x, L.step s = some x → L'.step s = some x)
    (s : State) : L'.run s = ((L.run s).1 ++ (L'.run (L.run s).2).1, (L'.run (L.run s).2).2) := by
  induction s using L.run_induct with
  | stop s hs => simp [L.run_none hs]
  | turn s e u hs ih =>
    rw [L.run_some hs, L'.run_some (h s _ hs), ih]
    rfl

/-- The loop with a history component beside its state. -/
def withGhost (g : Ghost → Event → Ghost) : DescendingLoop (State × Ghost) Event where
  step s := (L.step s.1).map (fun x => (x.1, x.2, g s.2 x.1))
  measure s := L.measure s.1
  lower := by
    rintro ⟨s, a⟩ e u h
    simp only [Option.map_eq_some_iff, Prod.mk.injEq] at h
    obtain ⟨⟨e', u'⟩, h, rfl, rfl⟩ := h
    exact L.lower _ _ _ h

theorem withGhost_step {g : Ghost → Event → Ghost} {s : State} {a : Ghost} {e : Event}
    {u : State × Ghost} : (L.withGhost g).step (s, a) = some (e, u) ↔
      L.step s = some (e, u.1) ∧ u.2 = g a e := by
  simp only [withGhost, Option.map_eq_some_iff]
  constructor
  · rintro ⟨⟨f, v⟩, h, hx⟩
    cases hx
    exact ⟨h, rfl⟩
  · rintro ⟨h, hg⟩
    exact ⟨_, h, by rw [← hg]⟩

theorem run_withGhost (g : Ghost → Event → Ghost) (s : State) (a : Ghost) :
    (L.withGhost g).run (s, a) = ((L.run s).1, (L.run s).2, (L.run s).1.foldl g a) := by
  induction s using L.run_induct generalizing a with
  | stop s h =>
    rw [L.run_none h, run_none]
    · rfl
    · simp [withGhost, h]
  | turn s e u h ih =>
    have hg : (L.withGhost g).step (s, a) = some (e, u, g a e) := (L.withGhost_step).2 ⟨h, rfl⟩
    rw [L.run_some h, run_some _ hg, ih]
    rfl

/-- An invariant of state and history, carried from the start to the end of a run. -/
theorem ghost_invariant (g : Ghost → Event → Ghost) {I : State → Ghost → Prop}
    (turn : ∀ s a e u, I s a → L.step s = some (e, u) → I u (g a e)) {s : State} {a : Ghost}
    (hs : I s a) : I (L.run s).2 ((L.run s).1.foldl g a) := by
  have h := (L.withGhost g).run_invariant (I := fun x => I x.1 x.2) (fun x e u hx hu => by
    obtain ⟨h, hg⟩ := (L.withGhost_step).1 hu
    rw [hg]
    exact turn x.1 x.2 e u.1 hx h) (s := (s, a)) hs
  rw [run_withGhost] at h
  exact h

end DescendingLoop
end PyannoteCpp
