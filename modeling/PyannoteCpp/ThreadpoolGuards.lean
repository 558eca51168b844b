import PyannoteCpp.ThreadpoolCalls

set_option autoImplicit false

/-!
# The mutex and the flags of a pool

The caller stores to the flags with the mutex held and broadcasts before it gives the
mutex back; a worker tests them with the mutex held before it sleeps. Hence a worker
that sleeps has nothing to do, unless the caller is still to broadcast.
-/
namespace PyannoteCpp.Threadpool
open ReachableStates Crews GraphCompute Rendezvous

variable {K M : Type*}

def Line.holds : Line K M → Bool
  | .pauseTestLocked => true
  | .unlockPause => true
  | .readyStop => true
  | .readyPause => true
  | .readyGraph => true
  | .unlockWork => true
  | _ => false

/-- The worker neither has the mutex nor sleeps. -/
def Line.free : Line K M → Bool
  | .sleepPause => false
  | .sleepWork => false
  | .ended => false
  | l => !l.holds

section Workers

variable {pool pool' : Fields K M} {signals : Prop} {ith nRounds : ℕ} {w w' : Worker K M}

/-- What holds of a worker when `signals` says that the caller is still to broadcast. -/
structure Alert (pool : Fields K M) (signals : Prop) (ith : ℕ) (w : Worker K M) : Prop where
  mutex : pool.mutex = some ith ↔ w.line.holds = true
  pending : w.pending = true → w.line = .unlockWork ∨ w.line = .pendingTest
  ready : w.line = .readyPause ∨ w.line = .readyGraph → pool.stop = false
  sleepPause : w.line = .sleepPause → pool.pause = true ∨ signals
  sleepWork : w.line = .sleepWork → (w.lastGraph = pool.nGraph ∧ pool.stop = false) ∨ signals
  ended : w.line = .ended → pool.stop = true

/-- What only the caller stores to. -/
structure SameFlags (pool pool' : Fields K M) : Prop where
  stop : pool'.stop = pool.stop
  pause : pool'.pause = pool.pause
  nGraph : pool'.nGraph = pool.nGraph

/-- The mutex stays where it is, or is taken or given back by thread `ith`. -/
def Passes (pool pool' : Fields K M) (ith : ℕ) : Prop :=
  pool'.mutex = pool.mutex ∨ (pool.mutex = none ∧ pool'.mutex = some ith) ∨ (pool.mutex = some ith ∧ pool'.mutex = none)

theorem line_flags {c c' : Computing K M} (h : c.line pool ith = some (c', pool')) :
    SameFlags pool pool' ∧ pool'.mutex = pool.mutex := by
  unfold Computing.line at h
  cases hplace : c.place with
  | running l =>
    simp only [hplace] at h
    cases hturn : c.turn ith l <;> simp only [hturn, Option.some.injEq, Prod.mk.injEq, reduceCtorEq] at h
    all_goals
      obtain ⟨-, rfl⟩ := h
      exact ⟨⟨rfl, rfl, rfl⟩, rfl⟩
  | _ =>
    simp only [hplace, Option.some.injEq, Prod.mk.injEq] at h
    obtain ⟨-, rfl⟩ := h
    exact ⟨⟨rfl, rfl, rfl⟩, rfl⟩

theorem session_flags {t t' : Session K M} (h : t.line pool ith = some (t', pool')) :
    SameFlags pool pool' ∧ pool'.mutex = pool.mutex := by
  cases t with
  | enter =>
    obtain ⟨-, rfl⟩ := Prod.mk.inj (Option.some.inj h)
    exact ⟨⟨rfl, rfl, rfl⟩, rfl⟩
  | params call =>
    obtain ⟨-, rfl⟩ := Prod.mk.inj (Option.some.inj h)
    exact ⟨⟨rfl, rfl, rfl⟩, rfl⟩
  | compute c =>
    obtain ⟨⟨c', pool''⟩, hc', heq⟩ := Option.map_eq_some_iff.mp h
    obtain ⟨-, rfl⟩ := Prod.mk.inj heq
    exact line_flags hc'

theorem Alert.off (h : Alert pool signals ith w) (hholds : w.line.holds = false) : pool.mutex ≠ some ith := by
  simp [h.mutex, hholds]

theorem Alert.begun (h : Alert pool signals ith w) (hunlock : w.line ≠ .unlockWork) (htest : w.line ≠ .pendingTest) :
    w.pending = false := by
  by_contra hpending
  rw [Bool.not_eq_false] at hpending
  exact (h.pending hpending).elim hunlock htest

theorem Alert.of_free (hmutex : pool.mutex ≠ some ith) (hfree : w.line.free = true)
    (hpending : w.pending = true → w.line = .pendingTest) : Alert pool signals ith w := by
  have hholds : w.line.holds = false := by
    cases hline : w.line <;> simp [hline, Line.free, Line.holds] at hfree ⊢
  constructor
  · simp [hmutex, hholds]
  · exact fun hp => .inr (hpending hp)
  · intro hline
    rcases hline with hline | hline <;> simp [hline, Line.holds] at hholds
  · intro hline
    simp [hline, Line.free] at hfree
  · intro hline
    simp [hline, Line.free] at hfree
  · intro hline
    simp [hline, Line.free] at hfree

theorem Alert.of_holds (hmutex : pool.mutex = some ith) (hholds : w.line.holds = true)
    (hpending : w.pending = true → w.line = .unlockWork)
    (hready : w.line = .readyPause ∨ w.line = .readyGraph → pool.stop = false) : Alert pool signals ith w := by
  constructor
  · simp [hmutex, hholds]
  · exact fun hp => .inl (hpending hp)
  · exact hready
  · intro hline
    simp [hline, Line.holds] at hholds
  · intro hline
    simp [hline, Line.holds] at hholds
  · intro hline
    simp [hline, Line.holds] at hholds

theorem Alert.of_polled (hmutex : pool.mutex ≠ some ith) (w : Worker K M) : Alert pool signals ith w.polled := by
  unfold Worker.polled
  cases w.pending
  · exact .of_free hmutex rfl (by simp)
  · exact .of_free hmutex rfl (fun _ => rfl)

/-- A worker that tests the mutex and finds it free takes it. -/
theorem Alert.takes (hfree : pool.mutex = none) (hholds : w.line.holds = true) (hbegun : w.pending = false)
    (hready : w.line ≠ .readyPause ∧ w.line ≠ .readyGraph) :
    Alert { pool with mutex := some ith } signals ith w ∧ Passes pool { pool with mutex := some ith } ith := by
  refine ⟨.of_holds rfl hholds (by simp [hbegun]) ?_, .inr (.inl ⟨hfree, rfl⟩)⟩
  intro hline
  exact (hline.elim hready.1 hready.2).elim

theorem Alert.step (h : Alert pool signals ith w) (hstep : w.step pool ith nRounds = some (w', pool')) :
    Alert pool' signals ith w' ∧ SameFlags pool pool' ∧ Passes pool pool' ith := by
  have hto : ∀ w₁ mutex, Alert { pool with mutex := mutex } signals ith w₁ ∧ Passes pool { pool with mutex := mutex } ith →
      (w₁, { pool with mutex := mutex }) = (w', pool') →
      Alert pool' signals ith w' ∧ SameFlags pool pool' ∧ Passes pool pool' ith := by
    intro w₁ mutex hw heq
    obtain ⟨rfl, rfl⟩ := Prod.mk.inj heq
    exact ⟨hw.1, ⟨rfl, rfl, rfl⟩, hw.2⟩
  have hstay : ∀ w₁, Alert pool signals ith w₁ → (w₁, pool) = (w', pool') →
      Alert pool' signals ith w' ∧ SameFlags pool pool' ∧ Passes pool pool' ith :=
    fun w₁ hw heq => hto w₁ pool.mutex ⟨hw, .inl rfl⟩ heq
  have hgives : ∀ w₁, Alert { pool with mutex := none } signals ith w₁ → w.line.holds = true →
      (w₁, { pool with mutex := none }) = (w', pool') →
      Alert pool' signals ith w' ∧ SameFlags pool pool' ∧ Passes pool pool' ith :=
    fun w₁ hw hholds heq => hto w₁ none ⟨hw, .inr (.inr ⟨h.mutex.mpr hholds, rfl⟩)⟩ heq
  obtain ⟨line, lastGraph, pending⟩ := w
  cases line with
  | pauseTest =>
    obtain rfl : pending = false := h.begun (by simp) (by simp)
    refine hstay _ (.of_free (h.off rfl) ?_ (by simp)) (Option.some.inj hstep)
    split_ifs <;> rfl
  | stopTest =>
    obtain rfl : pending = false := h.begun (by simp) (by simp)
    cases hstop : pool.stop <;> simp only [Worker.step, hstop, Option.some.injEq] at hstep
    · exact hstay _ (.of_free (h.off rfl) rfl (by simp)) hstep
    · refine hstay _ ⟨?_, by simp, by simp, by simp, by simp, fun _ => hstop⟩ hstep
      simpa [Line.holds] using h.off rfl
  | pollStop i | pollPause i =>
    obtain rfl : pending = false := h.begun (by simp) (by simp)
    simp only [Worker.step, Option.some.injEq] at hstep
    split_ifs at hstep
    · exact hstay _ (.of_polled (h.off rfl) _) hstep
    · exact hstay _ (.of_free (h.off rfl) rfl (by simp)) hstep
  | pollGraph i =>
    obtain rfl : pending = false := h.begun (by simp) (by simp)
    simp only [Worker.step, ne_eq, ite_not] at hstep
    split_ifs at hstep
    · exact hstay _ (.of_free (h.off rfl) rfl (by simp)) (Option.some.inj hstep)
    · exact hstay _ (.of_polled (h.off rfl) _) (Option.some.inj hstep)
    · exact hstay _ (.of_polled (h.off rfl) _) (Option.some.inj hstep)
  | pendingTest =>
    simp only [Worker.step, Option.some.injEq] at hstep
    split_ifs at hstep with hpending
    · exact hstay _ (.of_free (h.off rfl) rfl (by simp)) hstep
    · exact hstay _ (.of_free (h.off rfl) rfl (by simp [hpending])) hstep
  | session t =>
    obtain rfl : pending = false := h.begun (by simp) (by simp)
    simp only [Worker.step] at hstep
    split at hstep
    · next t' pool'' hnext =>
      obtain ⟨rfl, rfl⟩ := Prod.mk.inj (Option.some.inj hstep)
      obtain ⟨hflags, hmutex⟩ := session_flags hnext
      refine ⟨.of_free ?_ rfl (by simp), hflags, .inl hmutex⟩
      rw [hmutex]
      exact h.off rfl
    · exact hstay _ (.of_free (h.off rfl) rfl (by simp)) (Option.some.inj hstep)
  | lockPause | wakePause | lockWork | wakeWork =>
    obtain rfl : pending = false := h.begun (by simp) (by simp)
    simp only [Worker.step] at hstep
    split_ifs at hstep with hfree
    exact hto _ _ (Alert.takes hfree rfl rfl (by simp)) (Option.some.inj hstep)
  | pauseTestLocked =>
    obtain rfl : pending = false := h.begun (by simp) (by simp)
    have hmutex : pool.mutex = some ith := h.mutex.mpr rfl
    simp only [Worker.step] at hstep
    split_ifs at hstep with hpause
    · exact hgives _ ⟨by simp [Line.holds], by simp, by simp, fun _ => .inl hpause, by simp, by simp⟩ rfl (Option.some.inj hstep)
    · exact hstay _ (.of_holds hmutex rfl (by simp) (by simp)) (Option.some.inj hstep)
  | unlockPause =>
    obtain rfl : pending = false := h.begun (by simp) (by simp)
    exact hgives _ (.of_free (by simp) rfl (by simp)) rfl (Option.some.inj hstep)
  | readyStop =>
    obtain rfl : pending = false := h.begun (by simp) (by simp)
    have hmutex : pool.mutex = some ith := h.mutex.mpr rfl
    cases hstop : pool.stop <;> simp only [Worker.step, hstop, Bool.or_self, Bool.or_true, Bool.false_eq_true, if_true, if_false,
      Option.some.injEq] at hstep
    · exact hstay _ (.of_holds hmutex rfl (by simp) (fun _ => hstop)) hstep
    · exact hstay _ (.of_holds hmutex rfl (by simp) (by simp)) hstep
  | readyPause =>
    obtain rfl : pending = false := h.begun (by simp) (by simp)
    have hmutex : pool.mutex = some ith := h.mutex.mpr rfl
    simp only [Worker.step] at hstep
    split_ifs at hstep
    · exact hstay _ (.of_holds hmutex rfl (by simp) (by simp)) (Option.some.inj hstep)
    · exact hstay _ (.of_holds hmutex rfl (by simp) (fun _ => h.ready (.inl rfl))) (Option.some.inj hstep)
  | readyGraph =>
    obtain rfl : pending = false := h.begun (by simp) (by simp)
    have hmutex : pool.mutex = some ith := h.mutex.mpr rfl
    simp only [Worker.step, ne_eq, ite_not] at hstep
    split_ifs at hstep with hseen
    · have hstop : pool.stop = false := h.ready (.inr rfl)
      exact hgives _ ⟨by simp [Line.holds], by simp, by simp, by simp, fun _ => .inl ⟨hseen.symm, hstop⟩, by simp⟩ rfl
        (Option.some.inj hstep)
    · exact hstay _ (.of_holds hmutex rfl (fun _ => rfl) (by simp)) (Option.some.inj hstep)
  | unlockWork => exact hgives _ (.of_free (by simp) rfl (fun _ => rfl)) rfl (Option.some.inj hstep)
  | sleepPause | sleepWork | ended => cases hstep

theorem Passes.same {k : ℕ} (h : Passes pool pool' k) (hk : k ≠ ith) : pool'.mutex = some ith ↔ pool.mutex = some ith := by
  rcases h with hsame | ⟨hbefore, hafter⟩ | ⟨hbefore, hafter⟩
  · rw [hsame]
  · simp [hbefore, hafter, hk]
  · simp [hbefore, hafter, hk]

/-- Another thread that takes the mutex or gives it back leaves a worker as it is. -/
theorem Alert.other (h : Alert pool signals ith w) (hflags : SameFlags pool pool') {k : ℕ} (hpasses : Passes pool pool' k)
    (hk : k ≠ ith) : Alert pool' signals ith w := by
  obtain ⟨hstop, hpause, hgraph⟩ := hflags
  constructor
  · exact (hpasses.same hk).trans h.mutex
  · exact h.pending
  · rw [hstop]
    exact h.ready
  · rw [hpause]
    exact h.sleepPause
  · rw [hgraph, hstop]
    exact h.sleepWork
  · rw [hstop]
    exact h.ended

theorem Alert.wake (h : Alert pool signals ith w) (signals' : Prop) : Alert pool signals' ith w.wake := by
  obtain ⟨line, lastGraph, pending⟩ := w
  obtain ⟨hmutex, hpending, hready, -, -, hended⟩ := h
  cases line <;> constructor <;> simp_all [Worker.wake, Line.holds]

theorem Alert.mono (h : Alert pool signals ith w) {signals' : Prop} (hsignals : signals → signals') :
    Alert pool signals' ith w := by
  constructor
  · exact h.mutex
  · exact h.pending
  · exact h.ready
  · exact fun hline => (h.sleepPause hline).imp_right hsignals
  · exact fun hline => (h.sleepWork hline).imp_right hsignals
  · exact h.ended

/-- A worker without a step has ended, sleeps or waits for a mutex that another thread has. -/
theorem Alert.stuck (h : Alert pool signals ith w) (hstep : w.step pool ith nRounds = none) :
    (∃ k, k ≠ ith ∧ pool.mutex = some k) ∨ w.line = .sleepPause ∨ w.line = .sleepWork ∨ w.line = .ended := by
  have hother : w.line.holds = false → pool.mutex ≠ none → ∃ k, k ≠ ith ∧ pool.mutex = some k := by
    intro hholds hmutex
    obtain ⟨k, hk⟩ := Option.ne_none_iff_exists'.mp hmutex
    refine ⟨k, fun hki => ?_, hk⟩
    rw [hki, h.mutex, hholds] at hk
    cases hk
  cases hline : w.line with
  | sleepPause | sleepWork | ended => simp
  | session t =>
    simp only [Worker.step, hline] at hstep
    split at hstep <;> cases hstep
  | lockPause | wakePause | lockWork | wakeWork =>
    simp only [Worker.step, hline, ite_eq_right_iff, reduceCtorEq, imp_false] at hstep
    exact .inl (hother (by simp [hline, Line.holds]) hstep)
  | _ =>
    simp only [Worker.step, hline] at hstep
    try split_ifs at hstep
    all_goals cases hstep

end Workers

section Sections

variable {pool pool' : Fields K M}

def Caller.holds : Caller K M → Bool
  | .holding _ _ => true
  | _ => false

def Caller.Signals (caller : Caller K M) : Prop := ∃ sec acts, caller = .holding sec acts ∧ Act.broadcast ∈ acts

/-- The flags behind a section. -/
def Section.Ends (pool : Fields K M) : Section → Prop
  | .kickoff _ => pool.stop = false ∧ pool.pause = false
  | .pause => pool.stop = false
  | .resume => pool.stop = false
  | .free => pool.stop = true ∧ pool.pause = false

/-- The flags are as the caller needs them where it is. -/
inductive Orderly (pool : Fields K M) : Caller K M → Prop where
  | idle (hstop : pool.stop = false) : Orderly pool .idle
  | locking {sec : Section} (hstop : pool.stop = false) : Orderly pool (.locking sec)
  | holding {sec : Section} {acts : List Act} {paused : Bool} (hacts : acts <:+ sec.acts paused)
      (hends : sec.Ends (acts.foldl Act.run pool)) : Orderly pool (.holding sec acts)
  | session {t : Session K M} (hstop : pool.stop = false) (hpause : pool.pause = false) : Orderly pool (.session t)
  | joining {j : ℕ} (hj : 0 < j) (hstop : pool.stop = true) (hpause : pool.pause = false) : Orderly pool (.joining j)
  | freed : Orderly pool .freed

theorem run_storeGraph (pool : Fields K M) (nThreads : ℕ) :
    Act.run pool (.storeGraph nThreads) = { pool with nGraph := nextGraph pool.nGraph nThreads } := rfl

theorem resumed_end (hstop : pool.stop = false) :
    ((if pool.pause then [Act.storePause false, Act.broadcast] else [Act.broadcast]).foldl Act.run pool).stop = false ∧
      ((if pool.pause then [Act.storePause false, Act.broadcast] else [Act.broadcast]).foldl Act.run pool).pause = false := by
  cases hpause : pool.pause
  · exact ⟨hstop, hpause⟩
  · exact ⟨hstop, rfl⟩

theorem acts_end (hstop : pool.stop = false) (sec : Section) : sec.Ends ((sec.acts pool.pause).foldl Act.run pool) := by
  cases sec with
  | kickoff nThreads =>
    simp only [Section.Ends, Section.acts, List.foldl_cons, run_storeGraph]
    generalize nextGraph pool.nGraph nThreads = nGraph
    exact @resumed_end _ _ { pool with nGraph := nGraph } hstop
  | pause => cases pool.pause <;> exact hstop
  | resume => cases pool.pause <;> exact hstop
  | free => exact ⟨rfl, rfl⟩

theorem broadcast_last {sec : Section} {paused : Bool} {a : Act} {acts : List Act} (h : a :: acts <:+ sec.acts paused)
    (ha : a ≠ .broadcast) : .broadcast ∈ acts := by
  cases sec <;> cases paused <;> simp [Section.acts, List.suffix_cons_iff] at h <;> grind

theorem SameFlags.foldl (h : SameFlags pool pool') (acts : List Act) :
    SameFlags (acts.foldl Act.run pool) (acts.foldl Act.run pool') := by
  induction acts generalizing pool pool' with
  | nil => exact h
  | cons a acts ih =>
    apply ih
    obtain ⟨hstop, hpause, hgraph⟩ := h
    cases a with
    | storeGraph nThreads =>
      rw [run_storeGraph, run_storeGraph, hgraph]
      generalize nextGraph pool.nGraph nThreads = nGraph
      exact ⟨hstop, hpause, rfl⟩
    | storePause b => exact ⟨hstop, rfl, hgraph⟩
    | storeStop => exact ⟨rfl, hpause, hgraph⟩
    | broadcast => exact ⟨hstop, hpause, hgraph⟩

theorem Orderly.same {caller : Caller K M} (h : Orderly pool caller) (hflags : SameFlags pool pool') : Orderly pool' caller := by
  have hkept := hflags
  obtain ⟨hstop, hpause, -⟩ := hflags
  cases h with
  | idle hs => exact .idle (hstop.trans hs)
  | locking hs => exact .locking (hstop.trans hs)
  | @holding sec acts paused hacts hends =>
    have hfold := hkept.foldl acts
    refine .holding hacts ?_
    cases sec <;> simpa only [Section.Ends, hfold.stop, hfold.pause] using hends
  | session hs hp => exact .session (hstop.trans hs) (hpause.trans hp)
  | joining hj hs hp => exact .joining hj (hstop.trans hs) (hpause.trans hp)
  | freed => exact .freed

end Sections

section Guards

variable {p : Params M} {s u : State K M} {mem mem₀ : M}

structure Guarded (p : Params M) (s : State K M) : Prop where
  mutex : s.pool.mutex = some 0 ↔ s.caller.holds = true
  holder : ∀ j, s.pool.mutex = some j → j < p.nThreads
  orderly : Orderly s.pool s.caller
  workers : ∀ j, 0 < j → j < p.nThreads → Alert s.pool s.caller.Signals j (s.workers j)

theorem Passes.holder {pool pool' : Fields K M} {k n : ℕ} (h : Passes pool pool' k) (hk : k < n)
    (hholder : ∀ j, pool.mutex = some j → j < n) (j : ℕ) (hj : pool'.mutex = some j) : j < n := by
  by_cases hkj : k = j
  · exact hkj ▸ hk
  · exact hholder j ((h.same hkj).mp hj)

theorem silent_signals {caller : Caller K M} (h : caller.holds = false) : ¬caller.Signals := by
  intro hsignals
  obtain ⟨sec, acts, rfl, -⟩ := hsignals
  cases h

/-- The caller keeps the flags and does not hold the mutex. -/
theorem Guarded.quiet (h : Guarded p s) (hflags : SameFlags s.pool u.pool) (hmutex : u.pool.mutex = s.pool.mutex)
    (hbefore : s.caller.holds = false) (hafter : u.caller.holds = false) (horderly : Orderly u.pool u.caller)
    (hworkers : u.workers = s.workers) : Guarded p u := by
  constructor
  · rw [hmutex, h.mutex, hbefore, hafter]
  · rw [hmutex]
    exact h.holder
  · exact horderly
  · intro j hj hlt
    rw [hworkers]
    have halert := (h.workers j hj hlt).other (k := 0) hflags (.inl hmutex) hj.ne
    exact halert.mono (fun hsignals => absurd hsignals (silent_signals hbefore))

theorem Created.guarded (h : Created mem₀ s) : Guarded p s := by
  constructor
  · simp [h.mutex, h.caller, Caller.holds]
  · simp [h.mutex]
  · rw [h.caller]
    exact .idle h.stop
  · intro j _ _
    rw [h.workers]
    constructor <;> simp [h.mutex, Line.holds]

theorem Guarded.worker (h : Guarded p s) {j : ℕ} (hj : 0 < j) (hlt : j < p.nThreads) {w : Worker K M} {pool : Fields K M}
    (hstep : (s.workers j).step s.pool j p.nRounds = some (w, pool)) : Guarded p (s.moved j w pool) := by
  obtain ⟨halert, hflags, hpasses⟩ := (h.workers j hj hlt).step hstep
  constructor
  · exact (hpasses.same hj.ne').trans h.mutex
  · exact hpasses.holder hlt h.holder
  · exact h.orderly.same hflags
  · intro k hk hk'
    by_cases hkj : k = j
    · subst hkj
      simpa only [State.moved, Function.update_self] using halert
    · simp only [State.moved, Function.update_of_ne hkj]
      exact (h.workers k hk hk').other hflags hpasses (Ne.symm hkj)

/-- A worker that wakes up tests again what it slept for. -/
theorem Guarded.spurious (h : Guarded p s) (j : ℕ) :
    Guarded p { s with workers := Function.update s.workers j (s.workers j).wake } := by
  constructor
  · exact h.mutex
  · exact h.holder
  · exact h.orderly
  · intro k hk hk'
    have halert := h.workers k hk hk'
    by_cases hkj : k = j
    · subst hkj
      simpa only [Function.update_self] using halert.wake _
    · simpa only [Function.update_of_ne hkj] using halert

theorem run_mutex (pool : Fields K M) (a : Act) : (a.run pool).mutex = pool.mutex := by
  cases a with
  | storeGraph nThreads =>
    rw [run_storeGraph]
  | _ => rfl

theorem run_stop {pool : Fields K M} (h : pool.stop = true) (a : Act) : (a.run pool).stop = true := by
  cases a with
  | storeGraph nThreads =>
    rw [run_storeGraph]
    generalize nextGraph pool.nGraph nThreads = nGraph
    exact h
  | storePause b => exact h
  | storeStop => rfl
  | broadcast => exact h

/-- Before the last broadcast the workers need not know what has been stored. -/
theorem Alert.act {pool : Fields K M} {ith : ℕ} {w : Worker K M} {signals : Prop} (h : Alert pool signals ith w)
    (hmutex : pool.mutex ≠ some ith) (a : Act) {signals' : Prop} (hsignals : signals') : Alert (a.run pool) signals' ith w := by
  have hholds : w.line.holds = false := by simpa [h.mutex] using hmutex
  constructor
  · rw [run_mutex]
    exact h.mutex
  · exact h.pending
  · intro hline
    rcases hline with hline | hline <;> simp [hline, Line.holds] at hholds
  · exact fun _ => .inr hsignals
  · exact fun _ => .inr hsignals
  · exact fun hline => run_stop (h.ended hline) a

theorem Guarded.act (h : Guarded p s) {sec : Section} {a : Act} {acts : List Act}
    (hcaller : s.caller = .holding sec (a :: acts)) : Guarded p { s with
      pool := a.run s.pool
      caller := .holding sec acts
      workers := if a = .broadcast then fun j => (s.workers j).wake else s.workers } := by
  have hholds : s.pool.mutex = some 0 := h.mutex.mpr (by rw [hcaller]; rfl)
  have horderly := h.orderly
  rw [hcaller] at horderly
  cases horderly with
  | @holding _ _ paused hacts hends =>
    constructor
    · simp [run_mutex, hholds, Caller.holds]
    · simp only [run_mutex]
      exact h.holder
    · exact .holding ((List.suffix_cons a acts).trans hacts) hends
    · intro j hj hlt
      have halert := h.workers j hj hlt
      by_cases ha : a = .broadcast
      · subst ha
        exact halert.wake _
      · simp only [if_neg ha]
        apply halert.act
        · simp [hholds, hj.ne]
        · exact ⟨sec, acts, rfl, broadcast_last hacts ha⟩

theorem Guarded.caller (h : Guarded p s) (hmoves : CallerMoves p s u) : Guarded p u := by
  have horderly := h.orderly
  cases hmoves with
  | @lock sec hcaller hfree =>
    rw [hcaller] at horderly
    cases horderly with
    | locking hstop =>
      constructor
      · simp [Caller.holds]
      · intro j hj
        rw [← Option.some.inj hj]
        exact p.nThreads_pos
      · have hends : sec.Ends ((sec.acts s.pool.pause).foldl Act.run { s.pool with mutex := some 0 }) :=
          @acts_end _ _ { s.pool with mutex := some 0 } hstop sec
        exact .holding List.suffix_rfl hends
      · intro j hj hlt
        have halert : Alert { s.pool with mutex := some 0 } s.caller.Signals j (s.workers j) :=
          (h.workers j hj hlt).other (k := 0) ⟨rfl, rfl, rfl⟩ (.inr (.inl ⟨hfree, rfl⟩)) hj.ne
        exact halert.mono (fun hsignals => absurd hsignals (silent_signals (by rw [hcaller]; rfl)))
  | act hcaller => exact h.act hcaller
  | @unlock sec hcaller =>
    have hholds : s.pool.mutex = some 0 := h.mutex.mpr (by rw [hcaller]; rfl)
    have hnext : (sec.next : Caller K M).holds = false := by cases sec <;> rfl
    rw [hcaller] at horderly
    constructor
    · simp [hnext]
    · simp
    · cases horderly with
      | holding hacts hends =>
        cases sec with
        | kickoff n => exact .session hends.1 hends.2
        | pause => exact .idle hends
        | resume => exact .idle hends
        | free => exact .joining Nat.one_pos hends.1 hends.2
    · intro j hj hlt
      have halert : Alert { s.pool with mutex := none } s.caller.Signals j (s.workers j) :=
        (h.workers j hj hlt).other (k := 0) ⟨rfl, rfl, rfl⟩ (.inr (.inr ⟨hholds, rfl⟩)) hj.ne
      apply halert.mono
      intro hsignals
      rw [hcaller] at hsignals
      obtain ⟨_, acts, heq, hmem⟩ := hsignals
      cases heq
      cases hmem
  | @session t t' pool hcaller hnext =>
    obtain ⟨hflags, hmutex⟩ := session_flags hnext
    rw [hcaller] at horderly
    refine h.quiet hflags hmutex (by rw [hcaller]; rfl) rfl ?_ rfl
    cases horderly with
    | session hstop hpause => exact .session (hflags.stop.trans hstop) (hflags.pause.trans hpause)
  | returns hcaller hnext =>
    rw [hcaller] at horderly
    refine h.quiet ⟨rfl, rfl, rfl⟩ rfl (by rw [hcaller]; rfl) rfl ?_ rfl
    cases horderly with
    | session hstop hpause => exact .idle hstop
  | @join j hcaller hlt hended =>
    rw [hcaller] at horderly
    refine h.quiet ⟨rfl, rfl, rfl⟩ rfl (by rw [hcaller]; rfl) rfl ?_ rfl
    cases horderly with
    | joining hj hstop hpause => exact .joining (Nat.succ_pos j) hstop hpause
  | freed hcaller hall => exact h.quiet ⟨rfl, rfl, rfl⟩ rfl (by rw [hcaller]; rfl) rfl .freed rfl

theorem Guarded.step (h : Guarded p s) (i : Input K M) (hstep : Step p s i u) : Guarded p u := by
  unfold Step at hstep
  cases i with
  | compute call =>
    have horderly := h.orderly
    cases hcaller : s.caller <;> simp only [State.step, hcaller, Option.some.injEq, reduceCtorEq] at hstep
    subst hstep
    rw [hcaller] at horderly
    refine h.quiet ⟨rfl, rfl, rfl⟩ rfl (by rw [hcaller]; rfl) rfl ?_ rfl
    cases horderly with
    | idle hstop => exact .locking hstop
  | operate sec =>
    have horderly := h.orderly
    cases hcaller : s.caller <;> cases sec <;> simp only [State.step, hcaller, Option.some.injEq, reduceCtorEq] at hstep
    all_goals
      subst hstep
      rw [hcaller] at horderly
      refine h.quiet ⟨rfl, rfl, rfl⟩ rfl (by rw [hcaller]; rfl) rfl ?_ rfl
      cases horderly with
      | idle hstop => exact .locking hstop
  | caller => exact h.caller (callerStep_moves hstep)
  | worker j =>
    simp only [State.step] at hstep
    split_ifs at hstep with hj
    obtain ⟨⟨w, pool⟩, hnext, rfl⟩ := Option.map_eq_some_iff.mp hstep
    exact h.worker hj.1 hj.2 hnext
  | spurious j =>
    simp only [State.step, Option.some.injEq] at hstep
    subst hstep
    exact h.spurious j

end Guards

end PyannoteCpp.Threadpool
