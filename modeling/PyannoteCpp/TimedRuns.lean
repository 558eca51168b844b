import PyannoteCpp.ActiveRuns

set_option autoImplicit false

/-!
# The runs of a frame sequence, told in the times of its frames

A list of timed frames is its index sequence with the indices replaced by times.
When the times rise, the runs found over the indices come out in the same order,
and a frame's time lies in a reported run exactly when the frame is active.
-/
namespace PyannoteCpp.ActiveRuns

variable {T : Type*}

def activeAt (l : List (T × Bool)) (t : ℕ) : Bool := (l[t]?.map Prod.snd).getD false

def timeAt (final : T) (l : List (T × Bool)) (t : ℕ) : T := (l[t]?.map Prod.fst).getD final

theorem eq_frames (final : T) (l : List (T × Bool)) :
    l = (frames (activeAt l) l.length).map (Prod.map (timeAt final l) id) := by
  rw [frames, List.map_map]
  apply List.ext_getElem
  · simp
  · intro t ht _
    simp [activeAt, timeAt, List.getElem?_eq_getElem ht]

theorem scan_eq_map (final : T) (l : List (T × Bool)) :
    scan l = (scan (frames (activeAt l) l.length)).map (timeAt final l) := by
  rw [← scan_map, ← eq_frames]

section Rising

variable [LinearOrder T]

theorem timeAt_lt (final : T) {l : List (T × Bool)} (rising : l.Pairwise (fun f g => f.1 < g.1))
    {i j : ℕ} (hij : i < j) (hj : j < l.length) : timeAt final l i < timeAt final l j := by
  have hi : i < l.length := hij.trans hj
  have low := (List.pairwise_iff_getElem.1 rising) i j hi hj hij
  simpa [timeAt, List.getElem?_eq_getElem hi, List.getElem?_eq_getElem hj] using low

theorem timeAt_le_iff (final : T) {l : List (T × Bool)}
    (rising : l.Pairwise (fun f g => f.1 < g.1)) {i j : ℕ} (hi : i < l.length) (hj : j < l.length) :
    timeAt final l i ≤ timeAt final l j ↔ i ≤ j := by
  constructor
  · intro h
    by_contra late
    exact absurd (timeAt_lt final rising (not_le.1 late) hi) (not_lt.2 h)
  · intro h
    rcases Nat.lt_or_eq_of_le h with lt | rfl
    · exact (timeAt_lt final rising lt hj).le
    · exact le_rfl

/-- How many runs, closed or open, a time lies in. -/
def Scan.reports (s : Scan T) (time : T) : ℕ :=
  (s.closed.filter (fun q => q.1 ≤ time ∧ time < q.2)).length +
    match s.opened with
    | none => 0
    | some start => if start ≤ time then 1 else 0

theorem reports_map (final : T) {l : List (T × Bool)} (rising : l.Pairwise (fun f g => f.1 < g.1))
    {s : Scan ℕ} (h : Traces (activeAt l) l.length s) {t : ℕ} (ht : t < l.length) :
    (s.map (timeAt final l)).reports (timeAt final l t) = s.reports t := by
  have inside : ∀ q ∈ s.closed, (timeAt final l q.1 ≤ timeAt final l t ∧
      timeAt final l t < timeAt final l q.2 ↔ q.1 ≤ t ∧ t < q.2) := by
    intro q hq
    obtain ⟨top, run, _⟩ := (h.closed q).1 hq
    rw [timeAt_le_iff final rising (run.1.trans top) ht, ← not_le,
      timeAt_le_iff final rising top ht, not_le]
  have same : (List.filter (fun q => q.1 ≤ timeAt final l t ∧ timeAt final l t < q.2)
      (s.closed.map (Prod.map (timeAt final l) (timeAt final l)))).length =
      (s.closed.filter (fun q => q.1 ≤ t ∧ t < q.2)).length := by
    rw [List.filter_map, List.length_map]
    congr 1
    apply List.filter_congr
    intro q hq
    exact decide_eq_decide.2 (inside q hq)
  cases s with
  | mk opened closed =>
    cases opened with
    | none => exact congrArg (· + 0) same
    | some start =>
      have low : start < l.length := ((h.opened start).1 rfl).1
      have here := timeAt_le_iff final rising low ht
      simp only [Scan.reports, Scan.map, Option.map_some]
      rw [same]
      simp only [here]

theorem Traces.reports_inactive {a : ℕ → Bool} {n t : ℕ} {s : Scan ℕ} (h : Traces a n s)
    (ht : t < n) (quiet : a t = false) : s.reports t = 0 := by
  have closed : s.closed.filter (fun q => q.1 ≤ t ∧ t < q.2) = [] := by
    rw [List.filter_eq_nil_iff]
    intro q hq covered
    obtain ⟨low, high⟩ := of_decide_eq_true covered
    have loud := ((h.closed q).1 hq).2.1.2.1 t low high
    rw [quiet] at loud
    cases loud
  rw [Scan.reports, closed]
  cases ho : s.opened with
  | none => rfl
  | some start =>
    have late : ¬start ≤ t := by
      intro low
      have loud := ((h.opened start).1 ho).2.1 t low ht
      rw [quiet] at loud
      cases loud
    simp [late]

theorem Traces.reports_active {a : ℕ → Bool} {n t : ℕ} {s : Scan ℕ} (h : Traces a n s)
    (ht : t < n) (loud : a t = true) : s.reports t = 1 := by
  obtain ⟨i, j, low, high, run, top, last⟩ := exists_maximalRun loud ht
  by_cases inner : j < n
  · -- The run was closed; an open one would have to reach over its inactive end.
    have quiet : a j = false := last.resolve_left (by omega)
    have closed : (s.closed.filter (fun q => q.1 ≤ t ∧ t < q.2)).length = 1 := by
      apply filter_length_one
      · refine h.apart.imp ?_
        intro p q hpq both
        have hp := of_decide_eq_true both.1
        have hq := of_decide_eq_true both.2
        omega
      · exact ⟨(i, j), (h.closed (i, j)).2 ⟨inner, run, quiet⟩, decide_eq_true ⟨low, high⟩⟩
    rw [Scan.reports, closed]
    cases ho : s.opened with
    | none => rfl
    | some start =>
      have late : ¬start ≤ t := by
        intro early
        have crossing := ((h.opened start).1 ho).2.1 j (by omega) inner
        rw [quiet] at crossing
        cases crossing
      simp [late]
  · have whole : j = n := by omega
    subst j
    have closed : s.closed.filter (fun q => q.1 ≤ t ∧ t < q.2) = [] := by
      rw [List.filter_eq_nil_iff]
      intro q hq covered
      obtain ⟨_, after⟩ := of_decide_eq_true covered
      have before := h.before run q hq
      omega
    rw [Scan.reports, closed, (h.opened i).2 run]
    simp [low]

/-- The closed runs and the open one of a scan are the runs of the active frames. -/
structure Reported (final : T) (l : List (T × Bool)) (s : Scan T) : Prop where
  closed : ∀ q, q ∈ s.closed ↔ ∃ i j, MaximalRun (activeAt l) l.length i j ∧ j < l.length ∧
    q = (timeAt final l i, timeAt final l j)
  opened : ∀ start, s.opened = some start ↔
    ∃ i, MaximalRun (activeAt l) l.length i l.length ∧ start = timeAt final l i
  forward : ∀ q ∈ s.closed, q.1 < q.2
  apart : s.closed.Pairwise (fun q r => q.2 < r.1)
  before : ∀ start, s.opened = some start → ∀ q ∈ s.closed, q.2 < start
  once : ∀ t < l.length, s.reports (timeAt final l t) = if activeAt l t then 1 else 0

theorem reported_scan (final : T) {l : List (T × Bool)}
    (rising : l.Pairwise (fun f g => f.1 < g.1)) : Reported final l (scan l) := by
  have h := traces_scan (activeAt l) l.length
  rw [scan_eq_map final l]
  generalize scan (frames (activeAt l) l.length) = s at h
  have maximal : ∀ i j, j < l.length → Run (activeAt l) i j → activeAt l j = false →
      MaximalRun (activeAt l) l.length i j := fun i j top run quiet => ⟨run, top.le, Or.inr quiet⟩
  have open_run : ∀ i, s.opened = some i ↔ MaximalRun (activeAt l) l.length i l.length := by
    intro i
    rw [h.opened]
    exact ⟨fun run => ⟨run, le_rfl, Or.inl rfl⟩, fun run => run.1⟩
  refine ⟨fun q => ?_, fun start => ?_, fun q hq => ?_, ?_, fun start hs q hq => ?_, fun t ht => ?_⟩
  · rw [Scan.map, List.mem_map]
    constructor
    · rintro ⟨p, hp, rfl⟩
      obtain ⟨top, run, quiet⟩ := (h.closed p).1 hp
      exact ⟨p.1, p.2, maximal _ _ top run quiet, top, rfl⟩
    · rintro ⟨i, j, ⟨run, _, last⟩, top, rfl⟩
      exact ⟨(i, j), (h.closed (i, j)).2 ⟨top, run, last.resolve_left (by omega)⟩, rfl⟩
  · rw [Scan.map, Option.map_eq_some_iff]
    constructor
    · rintro ⟨i, hi, rfl⟩
      exact ⟨i, (open_run i).1 hi, rfl⟩
    · rintro ⟨i, run, rfl⟩
      exact ⟨i, (open_run i).2 run, rfl⟩
  · obtain ⟨p, hp, rfl⟩ := List.mem_map.1 hq
    obtain ⟨top, run, _⟩ := (h.closed p).1 hp
    exact timeAt_lt final rising run.1 top
  · rw [Scan.map, List.pairwise_map]
    refine h.apart.imp_of_mem ?_
    intro p q _ hq hpq
    obtain ⟨top, run, _⟩ := (h.closed q).1 hq
    exact timeAt_lt final rising hpq (run.1.trans top)
  · obtain ⟨i, hi, rfl⟩ := Option.map_eq_some_iff.1 hs
    obtain ⟨p, hp, rfl⟩ := List.mem_map.1 hq
    have run := (h.opened i).1 hi
    exact timeAt_lt final rising (h.before run p hp) run.1
  · rw [reports_map final rising h ht]
    cases ha : activeAt l t with
    | true => exact h.reports_active ht ha
    | false => exact h.reports_inactive ht ha

/-- A frame whose time lies in a reported run, closed or finished at the end, is active. -/
theorem Reported.inside {final : T} {l : List (T × Bool)} {s : Scan T} (h : Reported final l s)
    (rising : l.Pairwise (fun f g => f.1 < g.1)) {q : T × T} (hq : q ∈ s.finish final) {t : ℕ} (ht : t < l.length)
    (start : q.1 ≤ timeAt final l t) (stop : timeAt final l t < q.2) : activeAt l t = true := by
  have run : q ∈ s.closed ∨ s.opened = some q.1 := by
    rw [Scan.finish] at hq
    cases ho : s.opened with
    | none =>
      rw [ho] at hq
      exact Or.inl hq
    | some first =>
      rw [ho] at hq
      rcases List.mem_append.1 hq with closed | last
      · exact Or.inl closed
      · exact Or.inr (congrArg some (Prod.ext_iff.1 (List.mem_singleton.1 last)).1.symm)
  rcases run with closed | opened
  · obtain ⟨i, j, run, hj, rfl⟩ := (h.closed q).1 closed
    have hit : i ≤ t := (timeAt_le_iff final rising (run.1.1.trans hj) ht).1 start
    refine run.1.2.1 t hit ?_
    by_contra late
    exact absurd stop (not_lt.2 ((timeAt_le_iff final rising hj ht).2 (not_lt.1 late)))
  · obtain ⟨i, run, first⟩ := (h.opened q.1).1 opened
    rw [first] at start
    exact run.1.2.1 t ((timeAt_le_iff final rising run.1.1 ht).1 start) ht

end Rising

end PyannoteCpp.ActiveRuns
