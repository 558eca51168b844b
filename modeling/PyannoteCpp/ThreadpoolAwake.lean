import PyannoteCpp.ThreadpoolGuards

set_option autoImplicit false

/-!
# Nobody waits for ever

While the caller is in one of the functions of the pool, a thread that it waits for has
a step and does not spin: no wake-up is lost, and the mutex, the barriers of the graph
and the joins at the end never block one another.
-/
namespace PyannoteCpp.Threadpool
open ReachableStates Crews GraphCompute Rendezvous

variable {K M : Type*}

section Progress

variable {p : Params M} {s : State K M} {mem mem₀ : M}

/-- The thread waits in a barrier for the others. -/
def Session.Spins (pool : Fields K M) : Session K M → Prop
  | .compute c => ∃ l, c.place = .spin l pool.nBarrierPassed
  | _ => False

/-- Thread `j` has a step and does not spin; the caller is thread 0. -/
structure Advances (p : Params M) (s : State K M) (j : ℕ) : Prop where
  step : ∃ u, Step p s (if j = 0 then .caller else .worker j) u
  caller : j = 0 → ∀ t, s.caller = .session t → ¬t.Spins s.pool
  worker : j ≠ 0 → ∀ t, (s.workers j).line = .session t → ¬t.Spins s.pool

/-- The caller waits for itself, the thread with the mutex, the threads of its graph and the worker that it joins. -/
inductive Awaited (s : State K M) : ℕ → Prop where
  | caller : Awaited s 0
  | holder {j : ℕ} (hmutex : s.pool.mutex = some j) : Awaited s j
  | active {j : ℕ} {t : Session K M} (hcaller : s.caller = .session t) (hj : j < activeThreads s.pool.nGraph) : Awaited s j
  | joined {j : ℕ} (hcaller : s.caller = .joining j) : Awaited s j

theorem Advances.of_worker {j : ℕ} (hj : 0 < j) (hlt : j < p.nThreads)
    (hstep : (s.workers j).step s.pool j p.nRounds ≠ none)
    (hspins : ∀ t, (s.workers j).line = .session t → ¬t.Spins s.pool) : Advances p s j := by
  obtain ⟨next, hnext⟩ := Option.ne_none_iff_exists'.mp hstep
  refine ⟨⟨s.moved j next.1 next.2, ?_⟩, fun h => absurd h hj.ne', fun _ => hspins⟩
  simp [Step, State.step, hj, hj.ne', hlt, hnext, State.moved]

theorem Advances.of_caller {u : State K M} (hstep : s.callerStep p = some u)
    (hspins : ∀ t, s.caller = .session t → ¬t.Spins s.pool) : Advances p s 0 := by
  refine ⟨⟨u, ?_⟩, fun _ => hspins, fun h => absurd rfl h⟩
  simpa [Step, State.step] using hstep

theorem Guarded.holder_advances (h : Guarded p s) (hcaller : s.caller.holds = false) {k : ℕ} (hmutex : s.pool.mutex = some k) :
    Advances p s k := by
  have hpos : 0 < k := by
    rw [Nat.pos_iff_ne_zero]
    rintro rfl
    rw [h.mutex, hcaller] at hmutex
    cases hmutex
  have hlt := h.holder k hmutex
  have halert := h.workers k hpos hlt
  have hholds : (s.workers k).line.holds = true := halert.mutex.mp hmutex
  apply Advances.of_worker hpos hlt
  · intro hnone
    rcases halert.stuck hnone with ⟨i, hne, hi⟩ | hline | hline | hline
    · exact hne (Option.some.inj (hi.symm.trans hmutex))
    · simp [hline, Line.holds] at hholds
    · simp [hline, Line.holds] at hholds
    · simp [hline, Line.holds] at hholds
  · intro t ht
    simp [ht, Line.holds] at hholds

/-- A worker that is awake goes on or waits for a mutex that is given back. -/
theorem Guarded.worker_advances (h : Guarded p s) (hcaller : s.caller.holds = false) {j : ℕ} (hj : 0 < j) (hlt : j < p.nThreads)
    (hsleep : (s.workers j).line ≠ .sleepPause ∧ (s.workers j).line ≠ .sleepWork ∧ (s.workers j).line ≠ .ended)
    (hspins : ∀ t, (s.workers j).line = .session t → ¬t.Spins s.pool) : ∃ k, (k = j ∨ s.pool.mutex = some k) ∧ Advances p s k := by
  by_cases hstep : (s.workers j).step s.pool j p.nRounds = none
  · rcases (h.workers j hj hlt).stuck hstep with ⟨k, -, hk⟩ | hline | hline | hline
    · exact ⟨k, .inr hk, h.holder_advances hcaller hk⟩
    · exact absurd hline hsleep.1
    · exact absurd hline hsleep.2.1
    · exact absurd hline hsleep.2.2
  · exact ⟨j, .inl rfl, .of_worker hj hlt hstep hspins⟩

theorem Left.not_spins {pool : Fields K M} {c : Computing K M} (h : Left pool.nBarrierPassed c.place) :
    ¬(Session.compute c).Spins pool := by
  intro hspins
  obtain ⟨l, hl⟩ := hspins
  rw [hl] at h
  cases h with
  | spin k hlt => exact lt_irrefl _ hlt

/-- A worker sleeps through neither a graph nor the end. -/
theorem Alert.awake {pool : Fields K M} {signals : Prop} {ith : ℕ} {w : Worker K M} (h : Alert pool signals ith w)
    (hsignals : ¬signals) (hpause : pool.pause = false) (hnews : w.lastGraph ≠ pool.nGraph ∨ pool.stop = true) :
    w.line ≠ .sleepPause ∧ w.line ≠ .sleepWork := by
  constructor
  · intro hline
    rcases h.sleepPause hline with hpaused | hsignal
    · simp [hpause] at hpaused
    · exact hsignals hsignal
  · intro hline
    rcases h.sleepWork hline with ⟨hseen, hstop⟩ | hsignal
    · rcases hnews with hnew | hstopped
      · exact hnew hseen
      · simp [hstop] at hstopped
    · exact hsignals hsignal

theorem State.caller_spins {caller : Caller K M} (hcaller : s.caller = caller) (h : ∀ t, caller ≠ .session t) (t : Session K M)
    (ht : s.caller = .session t) : ¬t.Spins s.pool := absurd (hcaller.symm.trans ht) (h t)

/-- The caller joins a worker that goes on to its end. -/
theorem Guarded.joining_advances (h : Guarded p s) (hstage : Stage p mem s) {j : ℕ} (hcaller : s.caller = .joining j) :
    ∃ k, Awaited s k ∧ Advances p s k := by
  have horderly := h.orderly
  rw [hcaller] at horderly
  have hnone := s.caller_spins hcaller (by simp)
  cases horderly with
  | joining hj hstop hpause =>
    by_cases hlt : j < p.nThreads
    · by_cases hended : (s.workers j).line = .ended
      · have hstep : s.callerStep p = some { s with caller := .joining (j + 1) } := by
          simp [State.callerStep, hcaller, hlt, hended]
        exact ⟨0, .caller, .of_caller hstep hnone⟩
      · have hsilent : s.caller.holds = false := by rw [hcaller]; rfl
        have hrested : Rested p s := by
          cases hstage with
          | rest _ hrested _ => exact hrested
          | kickoff _ hrested _ => exact hrested
          | work hworking _ _ _ =>
            rw [hcaller] at hworking
            cases hworking
        obtain ⟨hpaused, hsleeps⟩ := (h.workers j hj hlt).awake (silent_signals hsilent) hpause (.inr hstop)
        have hspins : ∀ t, (s.workers j).line = .session t → ¬t.Spins s.pool := by
          intro t ht
          obtain ⟨c, rfl, hleft⟩ := (hrested.workers j hj hlt).session t ht
          exact hleft.not_spins
        obtain ⟨k, hk, hadvances⟩ := h.worker_advances hsilent hj hlt ⟨hpaused, hsleeps, hended⟩ hspins
        rcases hk with rfl | hk
        · exact ⟨k, .joined hcaller, hadvances⟩
        · exact ⟨k, .holder hk, hadvances⟩
    · have hstep : s.callerStep p = some { s with caller := .freed } := by
        simp [State.callerStep, hcaller, hlt]
      exact ⟨0, .caller, .of_caller hstep hnone⟩

theorem Guarded.locking_advances (h : Guarded p s) {sec : Section} (hcaller : s.caller = .locking sec) :
    ∃ k, Awaited s k ∧ Advances p s k := by
  by_cases hfree : s.pool.mutex = none
  · have hstep : ∃ u, s.callerStep p = some u := by
      simp [State.callerStep, hcaller, hfree]
    obtain ⟨u, hu⟩ := hstep
    exact ⟨0, .caller, .of_caller hu (s.caller_spins hcaller (by simp))⟩
  · obtain ⟨k, hk⟩ := Option.ne_none_iff_exists'.mp hfree
    exact ⟨k, .holder hk, h.holder_advances (by rw [hcaller]; rfl) hk⟩

theorem session_step {t : Session K M} (hcaller : s.caller = .session t) : ∃ u, s.callerStep p = some u := by
  unfold State.callerStep
  rw [hcaller]
  cases hnext : t.line s.pool 0 <;> simp [hnext]

theorem holding_step {sec : Section} {acts : List Act} (hcaller : s.caller = .holding sec acts) : ∃ u, s.callerStep p = some u := by
  unfold State.callerStep
  rw [hcaller]
  cases acts with
  | nil => exact ⟨_, rfl⟩
  | cons a acts => exact ⟨_, rfl⟩

theorem worker_session_step {pool : Fields K M} {ith nRounds : ℕ} {w : Worker K M} {t : Session K M} (hline : w.line = .session t) :
    w.step pool ith nRounds ≠ none := by
  unfold Worker.step
  rw [hline]
  cases hnext : t.line pool ith <;> simp [hnext]

theorem Session.Spins.place {pool : Fields K M} {t : Session K M} (h : t.Spins pool) :
    ∃ l, t.place = .spin l pool.nBarrierPassed := by
  cases t with
  | enter => exact h.elim
  | params call => exact h.elim
  | compute c => exact h

/-- An active worker that has not begun the graph comes to it. -/
theorem Guarded.unseen_advances (h : Guarded p s) {t : Session K M} (hcaller : s.caller = .session t) {j : ℕ} (hj : 0 < j)
    (hlt : j < p.nThreads) (hworks : (s.workers j).Works s.pool j)
    (hunseen : (s.workers j).lastGraph ≠ s.pool.nGraph ∨ (s.workers j).pending = true) :
    ∃ k, (k = j ∨ s.pool.mutex = some k) ∧ Advances p s k := by
  have hsilent : s.caller.holds = false := by rw [hcaller]; rfl
  have halert := h.workers j hj hlt
  by_cases hpending : (s.workers j).pending = true
  · apply h.worker_advances hsilent hj hlt
    · rcases halert.pending hpending with hline | hline <;> simp [hline]
    · intro t ht
      exact absurd ht ((hworks.pending hpending).2.2 t)
  · have hnew : (s.workers j).lastGraph ≠ s.pool.nGraph := hunseen.resolve_right hpending
    have horderly := h.orderly
    rw [hcaller] at horderly
    cases horderly with
    | session hstop hpause =>
      obtain ⟨hpaused, hsleeps⟩ := halert.awake (silent_signals hsilent) hpause (.inl hnew)
      apply h.worker_advances hsilent hj hlt
      · refine ⟨hpaused, hsleeps, fun hended => ?_⟩
        have hstopped := halert.ended hended
        simp [hstop] at hstopped
      · intro t ht
        have hattends := hworks.session t ht
        cases hattends with
        | enter hlast _ => exact absurd hlast hnew
        | params hlast _ => exact absurd hlast hnew
        | current hlast _ => exact absurd hlast hnew
        | stale _ hleft => exact hleft.not_spins

/-- While the caller computes, some thread of the graph does not wait for the others. -/
theorem Guarded.session_advances (h : Guarded p s) (hstage : Stage p mem s) {t : Session K M} (hcaller : s.caller = .session t) :
    ∃ k, Awaited s k ∧ Advances p s k := by
  by_cases hspins : t.Spins s.pool
  · cases hstage with
    | rest hresting _ _ =>
      rw [hcaller] at hresting
      cases hresting
    | kickoff hkicking _ _ =>
      rw [hcaller] at hkicking
      cases hkicking
    | work hworking hactive hworks hreach =>
      have hn := threads_pos p s.pool.call
      have hplace : s.caller.place = t.place := by
        rw [hcaller]
        cases t <;> rfl
      obtain ⟨l, hl⟩ := hspins.place
      rw [← hplace] at hl
      rcases pool_progress hn hreach with hdone | ⟨i, hfree, u, hstep⟩
      · obtain ⟨k, hk⟩ := hdone ⟨0, hn⟩
        exact nomatch hl.symm.trans hk
      · have hi : i.val ≠ 0 := fun hi => by
          apply hfree
          refine ⟨l, ?_⟩
          simpa [State.view, hi] using hl
        have hj : 0 < i.val := Nat.pos_of_ne_zero hi
        have hplace : (s.view (p.threads s.pool.call)).places i =
            (s.workers i).place s.pool.nGraph (s.pool.call.stop (p.threads s.pool.call)) := if_neg hi
        have hlt : i.val < p.nThreads := i.isLt.trans_le (threads_le p _)
        have hawaited : Awaited s i := .active hcaller (i.isLt.trans_eq hactive.symm)
        by_cases hunseen : (s.workers i).lastGraph ≠ s.pool.nGraph ∨ (s.workers i).pending = true
        · obtain ⟨k, hk, hadvances⟩ := h.unseen_advances hcaller hj hlt (hworks i hj hlt) hunseen
          rcases hk with rfl | hk
          · exact ⟨i, hawaited, hadvances⟩
          · exact ⟨k, .holder hk, hadvances⟩
        · rw [not_or, not_ne_iff, Bool.not_eq_true] at hunseen
          by_cases hloose : (s.workers i).line.Loose
          · -- It has left the graph and has no step there.
            rw [Worker.place_loose hloose, if_neg (by simp [hunseen])] at hplace
            simp [GgmlBarrier.Step, GgmlBarrier.step, hplace, graphComputeThread] at hstep
          · obtain ⟨t', ht'⟩ : ∃ t', (s.workers i).line = .session t' := by simpa [Line.Loose] using hloose
            refine ⟨i, hawaited, .of_worker hj hlt (worker_session_step ht') (fun t'' ht'' hspins' => ?_)⟩
            obtain ⟨l', hl'⟩ := hspins'.place
            rw [Worker.place_session ht'' hunseen.1 hunseen.2, hl'] at hplace
            exact hfree ⟨l', hplace⟩
  · obtain ⟨u, hu⟩ := session_step hcaller
    refine ⟨0, .caller, .of_caller hu (fun t' ht' => ?_)⟩
    rw [hcaller] at ht'
    cases ht'
    exact hspins

/-- Outside the sections of the caller a worker sleeps only if it has nothing to do, and the caller never waits for
threads that are all stuck. -/
theorem calls_awake (h : Reachable (Created mem₀) (Admitted (fun s _ => Fits s) (Step p)) s) :
    (s.caller.holds = false → ∀ j, 0 < j → j < p.nThreads →
      ((s.workers j).line = .sleepPause → s.pool.pause = true) ∧
      ((s.workers j).line = .sleepWork → (s.workers j).lastGraph = s.pool.nGraph ∧ s.pool.stop = false)) ∧
    (s.caller ≠ .idle → s.caller ≠ .freed → ∃ k, Awaited s k ∧ Advances p s k) := by
  have hguarded := h.of_admitted.invariant (Guarded p) (fun _ => Created.guarded) (fun _ i _ hguarded => hguarded.step i)
  obtain ⟨mem, hstage, -⟩ := reachable_served h
  constructor
  · intro hsilent j hj hlt
    have halert := hguarded.workers j hj hlt
    have hsignals := silent_signals hsilent
    exact ⟨fun hline => (halert.sleepPause hline).resolve_right hsignals,
      fun hline => (halert.sleepWork hline).resolve_right hsignals⟩
  · intro hidle hfreed
    cases hcaller : s.caller with
    | idle => exact absurd hcaller hidle
    | freed => exact absurd hcaller hfreed
    | locking sec => exact hguarded.locking_advances hcaller
    | session t => exact hguarded.session_advances hstage hcaller
    | joining j => exact hguarded.joining_advances hstage hcaller
    | holding sec acts =>
      obtain ⟨u, hu⟩ := holding_step hcaller
      exact ⟨0, .caller, .of_caller hu (s.caller_spins hcaller (by simp))⟩

theorem three_lt : 3 < 2 ^ 16 := by norm_num

def trio : Params ℕ := ⟨3, 0, id, Nat.succ_pos 2, three_lt⟩

/-- Both workers sleep; the second one, which the graph does not need, sleeps again before the first one wakes up. -/
def summons : List (Input Bool ℕ) :=
  List.flatten [.replicate 9 (.worker 1), .replicate 9 (.worker 2), .compute addCall :: .replicate 4 .caller,
    .replicate 15 (.worker 2), .replicate 11 .caller]

def spinning (s : State Bool ℕ) : Bool :=
  match s.caller with
  | .session (.compute c) => match c.place with
    | .spin _ nPassed => nPassed == s.pool.nBarrierPassed
    | _ => false
  | _ => false

def sleeping (s : State Bool ℕ) (j : ℕ) : Bool :=
  match (s.workers j).line with
  | .sleepWork => true
  | _ => false

theorem summons_run : (summons.foldlM (advance trio) fresh).any (fun s => spinning s && sleeping s 2) = true := by
  decide +kernel

theorem spinning_spins {s : State Bool ℕ} (h : spinning s = true) : ∃ t, s.caller = .session t ∧ t.Spins s.pool := by
  unfold spinning at h
  split at h
  · next c hcaller =>
    split at h
    · next l nPassed hplace =>
      refine ⟨.compute c, hcaller, l, ?_⟩
      rw [hplace, beq_iff_eq.mp h]
    · cases h
  · cases h

theorem sleeping_line {s : State Bool ℕ} {j : ℕ} (h : sleeping s j = true) : (s.workers j).line = .sleepWork := by
  unfold sleeping at h
  split at h
  · assumption
  · cases h

theorem calls_awake_trio : ∃ s : State Bool ℕ, (∃ t, s.caller = .session t ∧ t.Spins s.pool) ∧
    (s.workers 2).line = .sleepWork ∧ (s.workers 2).lastGraph = s.pool.nGraph ∧ ∃ k, Awaited s k ∧ Advances trio s k := by
  obtain ⟨s, hs, hwatched⟩ := (Option.any_eq_true _ _).mp summons_run
  rw [Bool.and_eq_true] at hwatched
  obtain ⟨t, hcaller, hspins⟩ := spinning_spins hwatched.1
  have hline := sleeping_line hwatched.2
  obtain ⟨hsleep, hprogress⟩ := calls_awake (advance_reachable hs)
  have hseen := (hsleep (by rw [hcaller]; rfl) 2 Nat.two_pos (Nat.lt_succ_self 2)).2 hline
  exact ⟨s, ⟨t, hcaller, hspins⟩, hline, hseen.1, hprogress (by simp [hcaller]) (by simp [hcaller])⟩

end Progress

end PyannoteCpp.Threadpool
