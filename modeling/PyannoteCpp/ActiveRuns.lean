import Mathlib.Data.List.Pairwise
import Mathlib.Data.Nat.Init
import Mathlib.Tactic

set_option autoImplicit false

/-!
# Extracting the active runs of a frame sequence

One pass with a single open start, closed at the first inactive frame and, at the
end of the sequence, at a final time. The result is characterised over frame
indices; a map of the frames to times carries it over.
-/
namespace PyannoteCpp.ActiveRuns

structure Scan (T : Type*) where
  opened : Option T
  closed : List (T × T)

variable {T U : Type*}

def Scan.step (s : Scan T) (time : T) (active : Bool) : Scan T :=
  match s.opened, active with
  | none, true => { s with opened := some time }
  | some start, false => ⟨none, s.closed ++ [(start, time)]⟩
  | _, _ => s

def Scan.finish (s : Scan T) (endTime : T) : List (T × T) :=
  match s.opened with
  | none => s.closed
  | some start => s.closed ++ [(start, endTime)]

def scan (frames : List (T × Bool)) : Scan T :=
  frames.foldl (fun s f => s.step f.1 f.2) ⟨none, []⟩

theorem scan_snoc (frames : List (T × Bool)) (last : T × Bool) :
    scan (frames ++ [last]) = (scan frames).step last.1 last.2 := by
  rw [scan, List.foldl_append]
  rfl

def Scan.map (f : T → U) (s : Scan T) : Scan U :=
  ⟨s.opened.map f, s.closed.map (Prod.map f f)⟩

theorem Scan.map_step (f : T → U) (s : Scan T) (time : T) (active : Bool) :
    (s.map f).step (f time) active = (s.step time active).map f := by
  cases s with
  | mk opened closed =>
    cases opened with
    | none => cases active <;> rfl
    | some start =>
      cases active with
      | true => rfl
      | false => simp [Scan.step, Scan.map]

theorem scan_map (f : T → U) (frames : List (T × Bool)) :
    scan (frames.map (Prod.map f id)) = (scan frames).map f := by
  induction frames using List.reverseRecOn with
  | nil => rfl
  | append_singleton frames p ih =>
    rw [List.map_append, List.map_singleton, scan_snoc, scan_snoc, ih]
    exact Scan.map_step f _ _ _

theorem Scan.map_finish (f : T → U) (s : Scan T) (endTime : T) :
    (s.map f).finish (f endTime) = (s.finish endTime).map (Prod.map f f) := by
  cases s with
  | mk opened closed => cases opened <;> simp [Scan.map, Scan.finish]

theorem filter_length_one {α : Type*} {p : α → Bool} {l : List α}
    (exclusive : l.Pairwise (fun a b => ¬(p a = true ∧ p b = true))) (some : ∃ a ∈ l, p a = true) :
    (l.filter p).length = 1 := by
  obtain ⟨a, ha, hpa⟩ := some
  have alone := exclusive.filter p
  cases hf : l.filter p with
  | nil => exact absurd (List.mem_filter.2 ⟨ha, hpa⟩) (by simp [hf])
  | cons b m =>
    cases m with
    | nil => rfl
    | cons c m =>
      rw [hf, List.pairwise_cons] at alone
      have hb : b ∈ l.filter p := by simp [hf]
      have hc : c ∈ l.filter p := by simp [hf]
      exact absurd ⟨(List.mem_filter.1 hb).2, (List.mem_filter.1 hc).2⟩ (alone.1 c List.mem_cons_self)

/-- Active from `i` up to `j`, and not before. -/
def Run (a : ℕ → Bool) (i j : ℕ) : Prop :=
  i < j ∧ (∀ t, i ≤ t → t < j → a t = true) ∧ (i = 0 ∨ a (i - 1) = false)

def MaximalRun (a : ℕ → Bool) (n i j : ℕ) : Prop :=
  Run a i j ∧ j ≤ n ∧ (j = n ∨ a j = false)

variable {a : ℕ → Bool} {n i j : ℕ}

theorem Run.unique {k : ℕ} (h : Run a i n) (g : Run a k n) : i = k := by
  by_contra ne
  rcases Nat.lt_or_gt_of_ne ne with low | low
  · rcases g.2.2 with zero | quiet
    · omega
    · have loud := h.2.1 (k - 1) (by omega) (by have := g.1; omega)
      rw [quiet] at loud
      cases loud
  · rcases h.2.2 with zero | quiet
    · omega
    · have loud := g.2.1 (i - 1) (by omega) (by have := h.1; omega)
      rw [quiet] at loud
      cases loud

theorem Run.succ (h : Run a i n) (ha : a n = true) : Run a i (n + 1) := by
  refine ⟨Nat.lt_succ_of_lt h.1, fun t hi ht => ?_, h.2.2⟩
  by_cases top : t = n
  · rw [top]
    exact ha
  · exact h.2.1 t hi (by omega)

theorem Run.single (ha : a n = true) (hb : n = 0 ∨ a (n - 1) = false) : Run a n (n + 1) := by
  refine ⟨Nat.lt_succ_self n, fun t hi ht => ?_, hb⟩
  have top : t = n := by omega
  rw [top]
  exact ha

theorem Run.last (h : Run a i (n + 1)) : a n = true :=
  h.2.1 n (Nat.le_of_lt_succ h.1) (Nat.lt_succ_self n)

theorem exists_run (ha : a n = true) : ∃ i, Run a i (n + 1) := by
  induction n with
  | zero => exact ⟨0, Run.single ha (Or.inl rfl)⟩
  | succ n ih =>
    by_cases hb : a n = true
    · obtain ⟨i, hi⟩ := ih hb
      exact ⟨i, hi.succ ha⟩
    · exact ⟨n + 1, Run.single ha (Or.inr (by simpa using hb))⟩

structure Traces (a : ℕ → Bool) (n : ℕ) (s : Scan ℕ) : Prop where
  opened : ∀ i, s.opened = some i ↔ Run a i n
  closed : ∀ p, p ∈ s.closed ↔ p.2 < n ∧ Run a p.1 p.2 ∧ a p.2 = false
  apart : s.closed.Pairwise (fun p q => p.2 < q.1)

theorem Traces.init : Traces a 0 ⟨none, []⟩ := by
  refine ⟨fun i => ?_, fun p => by simp, List.Pairwise.nil⟩
  constructor
  · intro absent
    cases absent
  · intro run
    exact absurd run.1 (Nat.not_lt_zero i)

theorem Traces.before {s : Scan ℕ} (h : Traces a n s) (hi : Run a i n) :
    ∀ p ∈ s.closed, p.2 < i := by
  intro p hp
  obtain ⟨hn, _, quiet⟩ := (h.closed p).1 hp
  by_contra hlt
  have loud := hi.2.1 p.2 (by omega) hn
  rw [quiet] at loud
  cases loud

theorem Traces.closed_succ {s : Scan ℕ} (h : Traces a n s) (still : ∀ i, Run a i n → a n = true)
    (p : ℕ × ℕ) : p ∈ s.closed ↔ p.2 < n + 1 ∧ Run a p.1 p.2 ∧ a p.2 = false := by
  rw [h.closed p]
  constructor
  · intro hp
    exact ⟨Nat.lt_succ_of_lt hp.1, hp.2⟩
  · intro hp
    refine ⟨lt_of_le_of_ne (Nat.le_of_lt_succ hp.1) ?_, hp.2⟩
    intro top
    obtain ⟨_, run, quiet⟩ := hp
    rw [top] at run quiet
    rw [still p.1 run] at quiet
    cases quiet

theorem Run.opened_succ (run : Run a i (n + 1)) (k : ℕ) : some i = some k ↔ Run a k (n + 1) := by
  rw [Option.some.injEq]
  constructor
  · intro hk
    rw [← hk]
    exact run
  · exact run.unique

theorem Traces.rise {closed : List (ℕ × ℕ)} (h : Traces a n ⟨none, closed⟩) (ha : a n = true) :
    Traces a (n + 1) ⟨some n, closed⟩ := by
  have silent : ∀ i, ¬Run a i n := by
    intro i hi
    have absent := (h.opened i).2 hi
    cases absent
  have fresh : Run a n (n + 1) := by
    apply Run.single ha
    cases n with
    | zero => exact Or.inl rfl
    | succ n =>
      apply Or.inr
      by_contra hb
      obtain ⟨i, hi⟩ := exists_run (a := a) (n := n) (by simpa using hb)
      exact silent i hi
  exact ⟨fresh.opened_succ, h.closed_succ (fun _ _ => ha), h.apart⟩

theorem Traces.stay {start : ℕ} {closed : List (ℕ × ℕ)} (h : Traces a n ⟨some start, closed⟩)
    (ha : a n = true) : Traces a (n + 1) ⟨some start, closed⟩ := by
  have run : Run a start n := (h.opened start).1 rfl
  exact ⟨(run.succ ha).opened_succ, h.closed_succ (fun _ _ => ha), h.apart⟩

theorem none_opened_succ (ha : a n = false) (i : ℕ) :
    (none : Option ℕ) = some i ↔ Run a i (n + 1) := by
  constructor
  · intro absent
    cases absent
  · intro run
    have loud := run.last
    rw [ha] at loud
    cases loud

theorem Traces.idle {closed : List (ℕ × ℕ)} (h : Traces a n ⟨none, closed⟩) (ha : a n = false) :
    Traces a (n + 1) ⟨none, closed⟩ := by
  refine ⟨none_opened_succ ha, h.closed_succ ?_, h.apart⟩
  intro i hi
  have absent := (h.opened i).2 hi
  cases absent

theorem Traces.fall {start : ℕ} {closed : List (ℕ × ℕ)} (h : Traces a n ⟨some start, closed⟩)
    (ha : a n = false) : Traces a (n + 1) ⟨none, closed ++ [(start, n)]⟩ := by
  have run : Run a start n := (h.opened start).1 rfl
  refine ⟨none_opened_succ ha, fun p => ?_, ?_⟩
  · have old := h.closed p
    change p ∈ closed ↔ _ at old
    rw [List.mem_append, List.mem_singleton, old]
    constructor
    · rintro (hp | rfl)
      · exact ⟨Nat.lt_succ_of_lt hp.1, hp.2⟩
      · exact ⟨Nat.lt_succ_self n, run, ha⟩
    · intro hp
      by_cases top : p.2 = n
      · have other := hp.2.1
        rw [top] at other
        exact Or.inr (Prod.ext (other.unique run) top)
      · exact Or.inl ⟨lt_of_le_of_ne (Nat.le_of_lt_succ hp.1) top, hp.2⟩
  · rw [List.pairwise_append]
    refine ⟨h.apart, List.pairwise_singleton _ _, fun p hp q hq => ?_⟩
    rw [List.mem_singleton.1 hq]
    exact h.before run p hp

theorem Traces.step {s : Scan ℕ} (h : Traces a n s) : Traces a (n + 1) (s.step n (a n)) := by
  cases s with
  | mk opened closed =>
    cases ha : a n with
    | true =>
      cases opened with
      | none => exact h.rise ha
      | some start => exact h.stay ha
    | false =>
      cases opened with
      | none => exact h.idle ha
      | some start => exact h.fall ha

def frames (a : ℕ → Bool) (n : ℕ) : List (ℕ × Bool) := (List.range n).map (fun t => (t, a t))

theorem traces_scan (a : ℕ → Bool) (n : ℕ) : Traces a n (scan (frames a n)) := by
  induction n with
  | zero => exact Traces.init
  | succ n ih =>
    rw [frames, List.range_succ, List.map_append, List.map_singleton, scan_snoc]
    exact ih.step

def runs (a : ℕ → Bool) (n : ℕ) : List (ℕ × ℕ) := (scan (frames a n)).finish n

theorem mem_runs {p : ℕ × ℕ} : p ∈ runs a n ↔ MaximalRun a n p.1 p.2 := by
  have h := traces_scan a n
  rw [runs, Scan.finish]
  cases ho : (scan (frames a n)).opened with
  | none =>
    change p ∈ (scan (frames a n)).closed ↔ _
    rw [h.closed p]
    constructor
    · exact fun hp => ⟨hp.2.1, hp.1.le, Or.inr hp.2.2⟩
    · intro hp
      have low : p.2 ≠ n := by
        intro top
        have run := hp.1
        rw [top, ← h.opened, ho] at run
        cases run
      exact ⟨lt_of_le_of_ne hp.2.1 low, hp.1, hp.2.2.resolve_left low⟩
  | some start =>
    have hs : Run a start n := (h.opened start).1 ho
    change p ∈ (scan (frames a n)).closed ++ [(start, n)] ↔ _
    rw [List.mem_append, List.mem_singleton, h.closed p]
    constructor
    · rintro (hp | rfl)
      · exact ⟨hp.2.1, hp.1.le, Or.inr hp.2.2⟩
      · exact ⟨hs, le_rfl, Or.inl rfl⟩
    · intro hp
      by_cases top : p.2 = n
      · have run := hp.1
        rw [top] at run
        exact Or.inr (Prod.ext (run.unique hs) top)
      · exact Or.inl ⟨lt_of_le_of_ne hp.2.1 top, hp.1, hp.2.2.resolve_left top⟩

theorem runs_apart (a : ℕ → Bool) (n : ℕ) : (runs a n).Pairwise (fun p q => p.2 < q.1) := by
  have h := traces_scan a n
  rw [runs, Scan.finish]
  cases ho : (scan (frames a n)).opened with
  | none => exact h.apart
  | some start =>
    change ((scan (frames a n)).closed ++ [(start, n)]).Pairwise _
    rw [List.pairwise_append]
    refine ⟨h.apart, List.pairwise_singleton _ _, fun p hp q hq => ?_⟩
    rw [List.mem_singleton.1 hq]
    exact h.before ((h.opened start).1 ho) p hp

theorem exists_maximalRun {t : ℕ} (ha : a t = true) (ht : t < n) :
    ∃ i j, i ≤ t ∧ t < j ∧ MaximalRun a n i j := by
  obtain ⟨i, hi⟩ := exists_run ha
  have grow : ∀ k, t + 1 + k ≤ n → (∃ j, t < j ∧ MaximalRun a n i j) ∨ Run a i (t + 1 + k) := by
    intro k
    induction k with
    | zero => exact fun _ => Or.inr hi
    | succ k ih =>
      intro hk
      rcases ih (by omega) with done | run
      · exact Or.inl done
      · cases hb : a (t + 1 + k) with
        | true => exact Or.inr (run.succ hb)
        | false => exact Or.inl ⟨t + 1 + k, by omega, run, by omega, Or.inr hb⟩
  rcases grow (n - (t + 1)) (by omega) with ⟨j, hj, run⟩ | run
  · exact ⟨i, j, Nat.le_of_lt_succ hi.1, hj, run⟩
  · rw [show t + 1 + (n - (t + 1)) = n by omega] at run
    exact ⟨i, n, Nat.le_of_lt_succ hi.1, ht, run, le_rfl, Or.inl rfl⟩

def Gap (a : ℕ → Bool) (i j : ℕ) : Prop :=
  0 < i ∧ i < j ∧ a (i - 1) = true ∧ a j = true ∧ ∀ t, i ≤ t → t < j → a t = false

theorem exists_gap {p q t : ℕ} (hp : 0 < p) (hpa : a (p - 1) = true) (hq : a q = true)
    (hpt : p ≤ t) (htq : t < q) (ha : a t = false) :
    ∃ i j, p ≤ i ∧ j ≤ q ∧ i ≤ t ∧ t < j ∧ Gap a i j := by
  obtain ⟨i, j, hi, hj, ⟨_, quiet, low⟩, hjq, high⟩ :=
    exists_maximalRun (a := fun t => !a t) (n := q) (t := t) (by simp [ha]) htq
  have inactive : ∀ u, i ≤ u → u < j → a u = false := by
    intro u hu hv
    simpa using quiet u hu hv
  have hpi : p ≤ i := by
    by_contra hlt
    have loud := inactive (p - 1) (by omega) (by omega)
    rw [hpa] at loud
    cases loud
  refine ⟨i, j, hpi, hjq, hi, hj, by omega, by omega, ?_, ?_, inactive⟩
  · rcases low with zero | loud
    · omega
    · simpa using loud
  · rcases high with top | loud
    · rw [top]
      exact hq
    · simpa using loud

section Timely

variable [LinearOrder T] {endTime : T}

def Scan.Within (endTime : T) (s : Scan T) : Prop :=
  (∀ p ∈ s.closed, p.1 < p.2 ∧ p.2 ≤ endTime) ∧ ∀ start, s.opened = some start → start < endTime

end Timely

end PyannoteCpp.ActiveRuns
