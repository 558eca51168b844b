import PyannoteCpp.SharedStores
import PyannoteCpp.ReachableStates

set_option autoImplicit false

/-!
# Crews of threads

What the threads do between two barriers. Each of them has places of its own,
and its turns interleave with those of the others. The crew leaves a memory when
no thread has a turn left.
-/
namespace PyannoteCpp.Crews
open ReachableStates SharedStores

variable {n : ℕ} {K M : Type*}

structure Crew (n : ℕ) (K M : Type*) where
  start : Fin n → K
  turn : Fin n → K → Option (M → K × M)

structure Shift (n : ℕ) (K M : Type*) where
  places : Fin n → K
  mem : M

namespace Crew

def Started (c : Crew n K M) (mem : M) (s : Shift n K M) : Prop := s = ⟨c.start, mem⟩

def Step (c : Crew n K M) (s : Shift n K M) (i : Fin n) (u : Shift n K M) : Prop :=
  ∃ run, c.turn i (s.places i) = some run ∧ u = ⟨Function.update s.places i (run s.mem).1, (run s.mem).2⟩

def Finished (c : Crew n K M) (s : Shift n K M) : Prop := ∀ i, c.turn i (s.places i) = none

/-- In some order of its turns the crew makes the second memory of the first. -/
def Leaves (c : Crew n K M) (mem mem' : M) : Prop :=
  ∃ places, Reachable (c.Started mem) c.Step ⟨places, mem'⟩ ∧ c.Finished ⟨places, mem'⟩

end Crew

/-- The rule for an invariant of the places and the memory. -/
theorem Crew.Leaves.invariant {c : Crew n K M} {mem mem' : M} (h : c.Leaves mem mem') (I : (Fin n → K) → M → Prop)
    (hstart : I c.start mem)
    (hstep : ∀ places m i run, I places m → c.turn i (places i) = some run →
      I (Function.update places i (run m).1) (run m).2) :
    ∃ places, I places mem' ∧ ∀ i, c.turn i (places i) = none := by
  obtain ⟨places, hreach, hfinished⟩ := h
  refine ⟨places, hreach.invariant (fun s => I s.places s.mem) ?_ ?_, hfinished⟩
  · rintro s rfl
    exact hstart
  · rintro s i u hs ⟨run, hturn, rfl⟩
    exact hstep _ _ _ _ hs hturn

section Within

variable {L : Type*}

/-- The crew with its places among those of others, as crews of one node have them. -/
def Crew.within (c : Crew n K M) (into : K → L) (back : L → Option K) : Crew n L M where
  start i := into (c.start i)
  turn i l := (back l).bind (fun k => (c.turn i k).map (fun run m => (into (run m).1, (run m).2)))

theorem Crew.Leaves.of_within {c : Crew n K M} {into : K → L} {back : L → Option K} {mem mem' : M}
    (h : (c.within into back).Leaves mem mem') (hback : ∀ k, back (into k) = some k) : c.Leaves mem mem' := by
  have hturn : ∀ i k, (c.within into back).turn i (into k) = (c.turn i k).map (fun run m => (into (run m).1, (run m).2)) :=
    fun i k => by simp only [within, hback, Option.bind_some]
  obtain ⟨all, ⟨places, hall, hreach⟩, hfinished⟩ := h.invariant
    (fun all m => ∃ places, (∀ i, all i = into (places i)) ∧ Reachable (c.Started mem) c.Step ⟨places, m⟩)
    ⟨c.start, fun _ => rfl, .start rfl⟩ (by
      rintro all m i run ⟨places, hall, hreach⟩ hrun
      rw [hall i, hturn] at hrun
      obtain ⟨run', hrun', rfl⟩ := Option.map_eq_some_iff.mp hrun
      refine ⟨Function.update places i (run' m).1, fun j => ?_, hreach.step ⟨run', hrun', rfl⟩⟩
      by_cases hj : j = i
      · subst hj
        simp only [Function.update_self]
      · simp only [Function.update_of_ne hj, hall j])
  refine ⟨places, hreach, fun i => ?_⟩
  have hnone := hfinished i
  rw [hall i, hturn] at hnone
  exact Option.map_eq_none_iff.mp hnone

end Within

inductive LeavesAll : List (Crew n K M) → M → M → Prop where
  | nil (mem : M) : LeavesAll [] mem mem
  | snoc {crews : List (Crew n K M)} {c : Crew n K M} {mem mem' mem'' : M} (head : LeavesAll crews mem mem')
      (last : c.Leaves mem' mem'') : LeavesAll (crews ++ [c]) mem mem''

theorem leavesAll_nil {mem mem' : M} (h : LeavesAll ([] : List (Crew n K M)) mem mem') : mem = mem' := by
  generalize hcrews : ([] : List (Crew n K M)) = crews at h
  cases h with
  | nil => rfl
  | snoc => exact absurd hcrews (List.append_ne_nil_of_right_ne_nil _ (List.cons_ne_nil _ _)).symm

theorem leavesAll_concat (crews : List (Crew n K M)) {c : Crew n K M} {mem mem'' : M}
    (h : LeavesAll (crews ++ [c]) mem mem'') : ∃ mem', LeavesAll crews mem mem' ∧ c.Leaves mem' mem'' := by
  generalize hall : crews ++ [c] = all at h
  cases h with
  | nil => exact absurd hall (List.append_ne_nil_of_right_ne_nil _ (List.cons_ne_nil _ _))
  | snoc head last =>
    obtain ⟨rfl, hlast⟩ := List.append_inj' hall rfl
    obtain rfl := List.singleton_inj.mp hlast
    exact ⟨_, head, last⟩

section Tasks

variable {A ι V : Type*} {work : Fin n → List A} {run : A → M → M}

/-- Each thread goes through a list of its own. -/
def tasks (work : Fin n → List A) (run : A → M → M) : Crew n (List A) M where
  start := work
  turn _ rest :=
    match rest with
    | [] => none
    | a :: rest => some (fun mem => (rest, run a mem))

variable {cell : M → ι → V} {stores : A → Option (ι × V)} {mem : M} {x : ι}

/-- What a task does to the cells. -/
def StoresTo (cell : M → ι → V) (stores : A → Option (ι × V)) (run : A → M → M) : Prop :=
  ∀ a m x, match stores a with
    | none => cell (run a m) x = cell m x
    | some (y, v) => (x = y ∧ cell (run a m) x = v) ∨ (x ≠ y ∧ cell (run a m) x = cell m x)

theorem StoresTo.hit (h : StoresTo cell stores run) {a : A} {v : V} (ha : stores a = some (x, v)) (m : M) :
    cell (run a m) x = v := by
  have hx := h a m x
  rw [ha] at hx
  rcases hx with ⟨-, hv⟩ | ⟨hne, -⟩
  · exact hv
  · exact absurd rfl hne

theorem StoresTo.miss (h : StoresTo cell stores run) {a : A} (ha : ∀ v, stores a ≠ some (x, v)) (m : M) :
    cell (run a m) x = cell m x := by
  have hx := h a m x
  cases hstores : stores a with
  | none =>
    rw [hstores] at hx
    exact hx
  | some p =>
    rw [hstores] at hx
    rcases hx with ⟨rfl, -⟩ | ⟨-, hsame⟩
    · exact absurd hstores (ha p.2)
    · exact hsame

/-- The cell has a value that a task stored, or the tasks that store to it are all left. -/
def Underway (work : Fin n → List A) (cell : M → ι → V) (stores : A → Option (ι × V)) (mem : M) (x : ι)
    (rest : Fin n → List A) (m : M) : Prop :=
  (∀ i, ∀ a ∈ rest i, a ∈ work i) ∧
    ((∃ i, ∃ a ∈ work i, stores a = some (x, cell m x)) ∨
      (cell m x = cell mem x ∧ ∀ i, ∀ a ∈ work i, ∀ v, stores a = some (x, v) → a ∈ rest i))

theorem Underway.step (hstore : StoresTo cell stores run) {rest : Fin n → List A} {m : M} {i : Fin n} {a : A} {l : List A}
    (hi : rest i = a :: l) (h : Underway work cell stores mem x rest m) :
    Underway work cell stores mem x (Function.update rest i l) (run a m) := by
  obtain ⟨hrest, hcell⟩ := h
  refine ⟨fun j b hb => ?_, ?_⟩
  · by_cases hj : j = i
    · subst hj
      rw [Function.update_self] at hb
      exact hrest j b (by rw [hi]; exact List.mem_cons_of_mem _ hb)
    · rw [Function.update_of_ne hj] at hb
      exact hrest j b hb
  · by_cases hx : ∃ v, stores a = some (x, v)
    · obtain ⟨v, hv⟩ := hx
      exact .inl ⟨i, a, hrest i a (by rw [hi]; exact List.mem_cons_self), by rw [hstore.hit hv, hv]⟩
    · rw [hstore.miss (fun v hv => hx ⟨v, hv⟩)]
      refine hcell.imp_right (fun ⟨hold, hleft⟩ => ⟨hold, fun j b hb v hv => ?_⟩)
      have hmem := hleft j b hb v hv
      by_cases hj : j = i
      · subst hj
        rw [Function.update_self]
        rw [hi] at hmem
        rcases List.mem_cons.mp hmem with rfl | hmem
        · exact absurd ⟨v, hv⟩ hx
        · exact hmem
      · rwa [Function.update_of_ne hj]

theorem tasks_cell (hstore : StoresTo cell stores run) {mem' : M} (h : (tasks work run).Leaves mem mem') (x : ι) :
    (∃ i, ∃ a ∈ work i, stores a = some (x, cell mem' x)) ∨
      (cell mem' x = cell mem x ∧ ∀ i, ∀ a ∈ work i, ∀ v, stores a ≠ some (x, v)) := by
  have hstep : ∀ rest m i step, Underway work cell stores mem x rest m → (tasks work run).turn i (rest i) = some step →
      Underway work cell stores mem x (Function.update rest i (step m).1) (step m).2 := by
    intro rest m i step hunder hturn
    cases hi : rest i with
    | nil =>
      rw [hi] at hturn
      exact nomatch hturn
    | cons a l =>
      rw [hi] at hturn
      obtain rfl := Option.some.inj hturn
      exact hunder.step hstore hi
  obtain ⟨rest, ⟨hrest, hcell⟩, hfinished⟩ :=
    h.invariant (Underway work cell stores mem x) ⟨fun _ _ ha => ha, .inr ⟨rfl, fun _ _ ha _ _ => ha⟩⟩ hstep
  refine hcell.imp_right (fun ⟨hsame, hleft⟩ => ⟨hsame, fun i a ha v hv => ?_⟩)
  have hmem := hleft i a ha v hv
  have hnone : (tasks work run).turn i (rest i) = none := hfinished i
  cases hi : rest i with
  | nil =>
    rw [hi] at hmem
    exact nomatch hmem
  | cons b l =>
    rw [hi] at hnone
    exact nomatch hnone

end Tasks

end PyannoteCpp.Crews
