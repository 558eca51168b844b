import PyannoteCpp.ThreadpoolRounds

set_option autoImplicit false

/-!
# The calls of `ggml_graph_compute`

The graphs that the caller hands to a pool leave what they would leave one after the
other, whatever the workers do in between.
-/
namespace PyannoteCpp.Threadpool
open ReachableStates Crews GraphCompute Rendezvous

variable {K M : Type*}

/-- The graphs computed one after the other, with what the calls return. -/
inductive Computes (p : Params M) : List (Call K M × Status) → M → M → Prop where
  | nil (mem : M) : Computes p [] mem mem
  | snoc {returned : List (Call K M × Status)} {call : Call K M} {status : Status} {mem mem' mem'' : M}
      (head : Computes p returned mem mem')
      (last : LeavesAll (executed (call.nodes (p.threads call)) call.abortCallback) (p.resetChunk mem') mem'')
      (hstatus : status = .aborted ↔ ∃ node, Aborts (call.nodes (p.threads call)) call.abortCallback node) :
      Computes p (returned ++ [(call, status)]) mem mem''

variable {p : Params M} {s u : State K M} {mem mem₀ : M}

inductive CallerMoves (p : Params M) (s : State K M) : State K M → Prop where
  | lock {sec : Section} (hcaller : s.caller = .locking sec) (hfree : s.pool.mutex = none) :
      CallerMoves p s { s with pool := { s.pool with mutex := some 0 }, caller := .holding sec (sec.acts s.pool.pause) }
  | act {sec : Section} {a : Act} {acts : List Act} (hcaller : s.caller = .holding sec (a :: acts)) :
      CallerMoves p s { s with
        pool := a.run s.pool
        caller := .holding sec acts
        workers := if a = .broadcast then fun j => (s.workers j).wake else s.workers }
  | unlock {sec : Section} (hcaller : s.caller = .holding sec []) :
      CallerMoves p s { s with pool := { s.pool with mutex := none }, caller := sec.next }
  | session {t t' : Session K M} {pool : Fields K M} (hcaller : s.caller = .session t)
      (h : t.line s.pool 0 = some (t', pool)) : CallerMoves p s { s with pool := pool, caller := .session t' }
  | returns {t : Session K M} (hcaller : s.caller = .session t) (h : t.line s.pool 0 = none) :
      CallerMoves p s { s with caller := .idle, returned := s.returned ++ [(s.pool.call, s.pool.shared.ec)] }
  | join {j : ℕ} (hcaller : s.caller = .joining j) (hlt : j < p.nThreads) (hended : (s.workers j).line = .ended) :
      CallerMoves p s { s with caller := .joining (j + 1) }
  | freed {j : ℕ} (hcaller : s.caller = .joining j) (hall : p.nThreads ≤ j) : CallerMoves p s { s with caller := .freed }

theorem callerStep_moves (h : s.callerStep p = some u) : CallerMoves p s u := by
  unfold State.callerStep at h
  cases hcaller : s.caller with
  | idle => simp [hcaller] at h
  | locking sec =>
    simp only [hcaller] at h
    split_ifs at h with hfree
    obtain rfl := Option.some.inj h
    exact .lock hcaller hfree
  | holding sec acts =>
    cases acts with
    | nil =>
      simp only [hcaller, Option.some.injEq] at h
      subst h
      exact .unlock hcaller
    | cons a acts =>
      simp only [hcaller, Option.some.injEq] at h
      subst h
      exact .act hcaller
  | session t =>
    simp only [hcaller] at h
    split at h
    · next t' pool hnext =>
      obtain rfl := Option.some.inj h
      exact .session hcaller hnext
    · next hnext =>
      obtain rfl := Option.some.inj h
      exact .returns hcaller hnext
  | joining j =>
    simp only [hcaller] at h
    split_ifs at h with hlt
    · split at h
      · next hended =>
        obtain rfl := Option.some.inj h
        exact .join hcaller hlt hended
      · cases h
    · obtain rfl := Option.some.inj h
      exact .freed hcaller (not_lt.mp hlt)
  | freed => simp [hcaller] at h

section Stages

def Silent (acts : List Act) : Prop := ∀ n, Act.storeGraph n ∉ acts

/-- The caller is outside `ggml_graph_compute`. -/
inductive Resting : Caller K M → Prop where
  | idle : Resting .idle
  | locking {sec : Section} (hsec : ∀ n, sec ≠ .kickoff n) : Resting (.locking sec)
  | holding {sec : Section} {acts : List Act} (hsec : ∀ n, sec ≠ .kickoff n) (hacts : Silent acts) :
      Resting (.holding sec acts)
  | joining (j : ℕ) : Resting (.joining j)
  | freed : Resting .freed

/-- The caller has prepared a graph for `n` threads and has not announced it. -/
inductive Kicking (n : ℕ) : Caller K M → Prop where
  | locking : Kicking n (.locking (.kickoff n))
  | holding {acts : List Act} (hacts : Silent acts) : Kicking n (.holding (.kickoff n) (.storeGraph n :: acts))

/-- The graph is announced and the caller has not returned. -/
inductive Working (pool : Fields K M) : Caller K M → Prop where
  | holding {n : ℕ} {acts : List Act} (hacts : Silent acts) : Working pool (.holding (.kickoff n) acts)
  | enter : Working pool (.session .enter)
  | params : Working pool (.session (.params pool.call))
  | compute {c : Computing K M} (h : Current pool 0 c) : Working pool (.session (.compute c))

structure Rested (p : Params M) (s : State K M) : Prop where
  nBarrier : s.pool.nBarrier = 0
  workers : ∀ j, 0 < j → j < p.nThreads → (s.workers j).Rests s.pool j

/-- Where the calls are, when `mem` is the memory that the last one has left. -/
inductive Stage (p : Params M) (mem : M) (s : State K M) : Prop where
  | rest (hcaller : Resting s.caller) (hrested : Rested p s) (hmem : s.pool.shared.mem = mem)
  | kickoff (hcaller : Kicking (p.threads s.pool.call) s.caller) (hrested : Rested p s)
      (hshared : s.pool.shared = prepared (p.resetChunk mem))
  | work (hcaller : Working s.pool s.caller) (hactive : activeThreads s.pool.nGraph = p.threads s.pool.call)
      (hworkers : ∀ j, 0 < j → j < p.nThreads → (s.workers j).Works s.pool j)
      (hreach : Reachable (kickedOff (p.resetChunk mem)) (GgmlBarrier.Step (s.pool.call.program (p.threads s.pool.call)))
        (s.view (p.threads s.pool.call)))

end Stages

section Threads

theorem threads_pos (p : Params M) (call : Call K M) : 0 < p.threads call :=
  Nat.lt_min.mpr ⟨call.nThreads_pos, p.nThreads_pos⟩

theorem threads_le (p : Params M) (call : Call K M) : p.threads call ≤ p.nThreads := min_le_right _ _

theorem threads_lt (p : Params M) (call : Call K M) : p.threads call < 2 ^ 16 := (threads_le p call).trans_lt p.nThreads_lt

theorem acts_silent {sec : Section} (h : ∀ n, sec ≠ .kickoff n) (paused : Bool) : Silent (sec.acts paused) := by
  intro n
  cases sec with
  | kickoff m => exact absurd rfl (h m)
  | pause => cases paused <;> simp [Section.acts]
  | resume => cases paused <;> simp [Section.acts]
  | free => simp [Section.acts]

theorem acts_kickoff (n : ℕ) (paused : Bool) :
    ∃ acts, Section.acts paused (.kickoff n) = .storeGraph n :: acts ∧ Silent acts := by
  refine ⟨_, rfl, fun m => ?_⟩
  cases paused <;> simp

theorem Silent.tail {a : Act} {acts : List Act} (h : Silent (a :: acts)) : Silent acts :=
  fun n hn => h n (List.mem_cons_of_mem _ hn)

end Threads

section Workers

variable {j : ℕ} {pool' : Fields K M} {w' : Worker K M}

theorem Rested.worker (h : Rested p s) (hj : 0 < j) (hlt : j < p.nThreads) (hmoves : Moves s.pool j (s.workers j) w' pool') :
    Rested p (s.moved j w' pool') ∧ ∃ mutex, pool' = { s.pool with mutex := mutex } := by
  obtain ⟨hrests, mutex, rfl⟩ := (h.workers j hj hlt).moves hmoves
  refine ⟨⟨h.nBarrier, fun k hk hk' => ?_⟩, mutex, rfl⟩
  by_cases hkj : k = j
  · subst hkj
    simpa only [State.moved, Function.update_self] using hrests
  · simp only [State.moved, Function.update_of_ne hkj]
    exact (h.workers k hk hk').kept rfl rfl

theorem Working.kept {caller : Caller K M} (h : Working s.pool caller) (hkept : Kept s.pool pool') : Working pool' caller := by
  cases h with
  | holding hacts => exact .holding hacts
  | enter => exact .enter
  | params =>
    rw [← hkept.call]
    exact .params
  | compute hcurrent => exact .compute (hcurrent.kept hkept)

theorem Stage.worker (h : Stage p mem s) (hfits : Fits s) (hj : 0 < j) (hlt : j < p.nThreads)
    (hmoves : Moves s.pool j (s.workers j) w' pool') : Stage p mem (s.moved j w' pool') := by
  cases h with
  | rest hcaller hrested hmem =>
    obtain ⟨hrested', mutex, rfl⟩ := hrested.worker hj hlt hmoves
    exact .rest hcaller hrested' hmem
  | kickoff hcaller hrested hshared =>
    obtain ⟨hrested', mutex, rfl⟩ := hrested.worker hj hlt hmoves
    exact .kickoff hcaller hrested' hshared
  | work hcaller hactive hworkers hreach =>
    obtain ⟨hworks, hkept, hreach'⟩ := works_moves rfl hactive hj hfits.barriers (hworkers j hj hlt) hmoves hreach
    have hcall : (s.moved j w' pool').pool.call = s.pool.call := hkept.call
    refine .work (hcaller.kept hkept) ?_ (fun k hk hk' => ?_) ?_
    · rw [hcall]
      exact (congrArg activeThreads hkept.nGraph).trans hactive
    · by_cases hkj : k = j
      · subst hkj
        simpa only [State.moved, Function.update_self] using hworks
      · simp only [State.moved, Function.update_of_ne hkj]
        exact (hworkers k hk hk').kept hkept
    · rw [hcall]
      exact hreach'

end Workers

section Same

/-- The fields that the threads of a graph read are as they were. -/
structure Same (pool pool' : Fields K M) : Prop where
  call : pool'.call = pool.call
  nGraph : pool'.nGraph = pool.nGraph
  nBarrier : pool'.nBarrier = pool.nBarrier
  nBarrierPassed : pool'.nBarrierPassed = pool.nBarrierPassed
  shared : pool'.shared = pool.shared

theorem Same.refl (pool : Fields K M) : Same pool pool := ⟨rfl, rfl, rfl, rfl, rfl⟩

theorem Same.kept {pool pool' : Fields K M} (h : Same pool pool') : Kept pool pool' :=
  ⟨h.call, h.nGraph, by rw [h.nBarrierPassed]⟩

/-- The caller goes on and stays where it is as a thread of a graph. -/
structure Follows (pool : Fields K M) (caller caller' : Caller K M) : Prop where
  resting : Resting caller → Resting caller'
  kicking : ∀ n, Kicking n caller → Kicking n caller'
  working : Working pool caller → Working pool caller' ∧ caller'.place = caller.place

theorem Follows.refl (pool : Fields K M) (caller : Caller K M) : Follows pool caller caller :=
  ⟨id, fun _ => id, fun h => ⟨h, rfl⟩⟩

theorem Rested.same (h : Rested p s) (hpool : Same s.pool u.pool)
    (hworkers : ∀ j, u.workers j = s.workers j ∨ u.workers j = (s.workers j).wake) : Rested p u := by
  constructor
  · rw [hpool.nBarrier]
    exact h.nBarrier
  · intro j hj hlt
    have hrests := (h.workers j hj hlt).kept hpool.nGraph hpool.nBarrierPassed
    rcases hworkers j with hw | hw <;> rw [hw]
    · exact hrests
    · exact hrests.wake

theorem view_eq (n : ℕ) (hpool : Same s.pool u.pool) (hcaller : u.caller.place = s.caller.place)
    (hworkers : ∀ j, u.workers j = s.workers j ∨ u.workers j = (s.workers j).wake) : u.view n = s.view n := by
  have hplaces : ∀ j nGraph stop, (u.workers j).place nGraph stop = (s.workers j).place nGraph stop := by
    intro j nGraph stop
    rcases hworkers j with hw | hw <;> rw [hw]
    apply place_wake
  simp only [State.view, hpool.nBarrier, hpool.nBarrierPassed, hpool.shared, hpool.nGraph, hpool.call, hcaller, hplaces]

/-- Locks, flags and wake-ups change nothing. -/
theorem Stage.same (h : Stage p mem s) (hpool : Same s.pool u.pool) (hcaller : Follows s.pool s.caller u.caller)
    (hworkers : ∀ j, u.workers j = s.workers j ∨ u.workers j = (s.workers j).wake) : Stage p mem u := by
  cases h with
  | rest hresting hrested hmem =>
    refine .rest (hcaller.resting hresting) (hrested.same hpool hworkers) ?_
    rw [hpool.shared, hmem]
  | kickoff hkicking hrested hshared =>
    refine .kickoff ?_ (hrested.same hpool hworkers) (hpool.shared.trans hshared)
    rw [hpool.call]
    exact hcaller.kicking _ hkicking
  | work hworking hactive hworks hreach =>
    obtain ⟨hworking', hplace⟩ := hcaller.working hworking
    refine .work (hworking'.kept hpool.kept) ?_ (fun j hj hlt => ?_) ?_
    · rw [hpool.nGraph, hpool.call, hactive]
    · have hkept := (hworks j hj hlt).kept hpool.kept
      rcases hworkers j with hw | hw <;> rw [hw]
      · exact hkept
      · exact hkept.wake
    · rw [hpool.call, view_eq _ hpool hplace hworkers]
      exact hreach

end Same

section Caller

theorem Stage.of_idle (h : Stage p mem s) (hidle : s.caller = .idle) : Rested p s ∧ s.pool.shared.mem = mem := by
  cases h with
  | rest _ hrested hmem => exact ⟨hrested, hmem⟩
  | kickoff hcaller _ _ =>
    rw [hidle] at hcaller
    cases hcaller
  | work hcaller _ _ _ =>
    rw [hidle] at hcaller
    cases hcaller

/-- The announcement of a graph brings all active threads to its start. -/
theorem Rested.announced (h : Rested p s) (hshared : s.pool.shared = prepared (p.resetChunk mem)) {acts : List Act}
    (hacts : Silent acts) {nGraph : ℕ} (hactive : activeThreads nGraph = p.threads s.pool.call) (hlater : s.pool.nGraph < nGraph) :
    Stage p mem { s with
      pool := { s.pool with nGraph := nGraph }
      caller := .holding (.kickoff (p.threads s.pool.call)) acts } := by
  have hworks : ∀ j, 0 < j → j < p.nThreads → (s.workers j).Works { s.pool with nGraph := nGraph } j ∧
      (s.workers j).lastGraph ≠ nGraph := fun j hj hj' => (h.workers j hj hj').works hlater rfl
  refine .work (.holding hacts) hactive (fun j hj hj' => (hworks j hj hj').1) (.start ⟨h.nBarrier, ?_, hshared⟩)
  funext i
  simp only [State.view]
  split_ifs with hi
  · rfl
  · exact if_pos (.inl (hworks i (Nat.pos_of_ne_zero hi) (i.isLt.trans_le (threads_le p _))).2)

theorem view_first {n : ℕ} (hn : 0 < n) {pool : Fields K M} {caller : Caller K M} (hcall : pool.call = s.pool.call)
    (hgraph : pool.nGraph = s.pool.nGraph) :
    State.view n { s with pool := pool, caller := caller } =
      ⟨pool.nBarrier, pool.nBarrierPassed, Function.update (s.view n).places ⟨0, hn⟩ caller.place, pool.shared⟩ := by
  unfold State.view
  congr 1
  funext i
  rw [hcall, hgraph]
  by_cases hi : i.val = 0
  · have hfirst : i = ⟨0, hn⟩ := Fin.ext hi
    rw [if_pos hi, hfirst, Function.update_self]
  · have hother : i ≠ ⟨0, hn⟩ := fun h => hi (congrArg Fin.val h)
    rw [if_neg hi, Function.update_of_ne hother]
    exact (if_neg hi).symm

theorem follows_lock (pool : Fields K M) (sec : Section) (paused : Bool) :
    Follows pool (.locking sec) (.holding sec (sec.acts paused)) := by
  constructor
  · intro h
    cases h with
    | locking hsec => exact .holding hsec (acts_silent hsec paused)
  · intro n h
    cases h with
    | locking =>
      obtain ⟨acts, heq, hacts⟩ := acts_kickoff n paused
      rw [heq]
      exact .holding hacts
  · intro h
    cases h

theorem follows_act (pool : Fields K M) (sec : Section) {a : Act} (ha : ∀ n, a ≠ .storeGraph n) (acts : List Act) :
    Follows pool (.holding sec (a :: acts)) (.holding sec acts) := by
  constructor
  · intro h
    cases h with
    | holding hsec hacts => exact .holding hsec hacts.tail
  · intro n h
    cases h with
    | holding hacts => exact absurd rfl (ha n)
  · intro h
    cases h with
    | holding hacts => exact ⟨.holding hacts.tail, rfl⟩

theorem follows_unlock (pool : Fields K M) (sec : Section) : Follows pool (.holding sec []) sec.next := by
  constructor
  · intro h
    cases h with
    | holding hsec hacts =>
      cases sec with
      | kickoff n => exact absurd rfl (hsec n)
      | pause => exact .idle
      | resume => exact .idle
      | free => exact .joining 1
  · intro n h
    cases h
  · intro h
    cases h with
    | holding hacts => exact ⟨.enter, rfl⟩

theorem follows_joining (pool : Fields K M) (j : ℕ) {caller : Caller K M} (h : Resting caller) :
    Follows pool (.joining j) caller := by
  constructor
  · intro _
    exact h
  · intro n h
    cases h
  · intro h
    cases h

theorem run_same (pool : Fields K M) {a : Act} (ha : ∀ n, a ≠ .storeGraph n) : Same pool (a.run pool) := by
  cases a with
  | storeGraph n => exact absurd rfl (ha n)
  | storePause b => exact ⟨rfl, rfl, rfl, rfl, rfl⟩
  | storeStop => exact ⟨rfl, rfl, rfl, rfl, rfl⟩
  | broadcast => exact .refl pool

/-- The store of a graph is made for one that is prepared. -/
theorem Stage.announces (h : Stage p mem s) {sec : Section} {n : ℕ} {acts : List Act}
    (hcaller : s.caller = .holding sec (.storeGraph n :: acts)) :
    Stage p mem { s with pool := Act.run s.pool (.storeGraph n), caller := .holding sec acts } := by
  cases h with
  | rest hresting _ _ =>
    rw [hcaller] at hresting
    cases hresting with
    | holding _ hacts => exact absurd (List.mem_cons_self ..) (hacts n)
  | kickoff hkicking hrested hshared =>
    rw [hcaller] at hkicking
    generalize hn : p.threads s.pool.call = m at hkicking
    cases hkicking with
    | holding hacts =>
      subst hn
      have hlt := threads_lt p s.pool.call
      exact hrested.announced hshared hacts (activeThreads_nextGraph hlt _) (lt_nextGraph hlt _)
  | work hworking _ _ _ =>
    rw [hcaller] at hworking
    cases hworking with
    | holding hacts => exact absurd (List.mem_cons_self ..) (hacts n)

/-- The caller goes on as the first thread of the graph. -/
theorem Stage.session (h : Stage p mem s) (hfits : Fits s) {t t' : Session K M} {pool : Fields K M}
    (hcaller : s.caller = .session t) (hnext : t.line s.pool 0 = some (t', pool)) :
    Stage p mem { s with pool := pool, caller := .session t' } := by
  cases h with
  | rest hresting _ _ =>
    rw [hcaller] at hresting
    cases hresting
  | kickoff hkicking _ _ =>
    rw [hcaller] at hkicking
    cases hkicking
  | work hworking hactive hworks hreach =>
    rw [hcaller] at hworking
    have hn := threads_pos p s.pool.call
    have hquiet : ∀ t'', Working s.pool (.session t'') → Caller.place (.session t'') = s.caller.place →
        Stage p mem { s with caller := .session t'' } := by
      intro t'' hworking' hplace
      have hview : State.view (p.threads s.pool.call) { s with caller := .session t'' } = s.view (p.threads s.pool.call) :=
        view_eq _ (.refl _) hplace (fun _ => .inl rfl)
      refine .work hworking' hactive hworks ?_
      rw [hview]
      exact hreach
    cases hworking with
    | enter =>
      obtain ⟨rfl, rfl⟩ := Prod.mk.inj (Option.some.inj hnext)
      exact hquiet _ .params (by rw [hcaller]; rfl)
    | params =>
      obtain ⟨rfl, rfl⟩ := Prod.mk.inj (Option.some.inj hnext)
      have hcurrent : Current s.pool 0 ⟨s.pool.call, activeThreads s.pool.nGraph, 0, .running (.head 0)⟩ :=
        ⟨rfl, rfl, hactive ▸ hn, .inr ⟨_, rfl⟩, by simp⟩
      exact hquiet _ (.compute hcurrent) (by rw [hcaller]; rfl)
    | @compute c hcurrent =>
      obtain ⟨⟨c', pool'⟩, hc', heq⟩ := Option.map_eq_some_iff.mp hnext
      obtain ⟨rfl, rfl⟩ := Prod.mk.inj heq
      have hplace : (s.view (p.threads s.pool.call)).places ⟨0, hn⟩ = c.place := by
        simp [State.view, hcaller, Caller.place]
      obtain ⟨hstep, hcurrent', hkept⟩ :=
        hcurrent.line hactive hfits.barriers (i := ⟨0, hn⟩) rfl hplace rfl rfl rfl hc'
      refine .work (.compute hcurrent') ?_ (fun j hj hlt => (hworks j hj hlt).kept hkept) ?_
      · change activeThreads pool'.nGraph = p.threads pool'.call
        rw [hkept.nGraph, hkept.call, hactive]
      · change Reachable _ (GgmlBarrier.Step (pool'.call.program (p.threads pool'.call))) (State.view (p.threads pool'.call) _)
        rw [hkept.call, view_first hn hkept.call hkept.nGraph]
        exact hreach.step hstep

/-- When the caller returns, the memory is what the graph leaves, and all workers are behind it. -/
theorem Stage.returns (h : Stage p mem s) {t : Session K M} (hcaller : s.caller = .session t)
    (hnext : t.line s.pool 0 = none) (returned : List (Call K M × Status)) :
    Stage p s.pool.shared.mem { s with caller := .idle, returned := returned } ∧
      LeavesAll (executed (s.pool.call.nodes (p.threads s.pool.call)) s.pool.call.abortCallback) (p.resetChunk mem)
        s.pool.shared.mem ∧
      (s.pool.shared.ec = .aborted ↔ ∃ node, Aborts (s.pool.call.nodes (p.threads s.pool.call)) s.pool.call.abortCallback node) := by
  cases h with
  | rest hresting _ _ =>
    rw [hcaller] at hresting
    cases hresting
  | kickoff hkicking _ _ =>
    rw [hcaller] at hkicking
    cases hkicking
  | work hworking hactive hworks hreach =>
    rw [hcaller] at hworking
    have hn := threads_pos p s.pool.call
    cases hworking with
    | enter => cases hnext
    | params => cases hnext
    | @compute c hcurrent =>
      have hplace : (s.view (p.threads s.pool.call)).places ⟨0, hn⟩ = c.place := by
        simp [State.view, hcaller, Caller.place]
      have hended := hcurrent.ended rfl hactive hreach (fun i hi => by
        rw [show i = ⟨0, hn⟩ from Fin.ext hi]
        exact hplace) (Option.map_eq_none_iff.mp hnext)
      have hfirst : (GgmlBarrier.view (s.view (p.threads s.pool.call))).seats ⟨0, hn⟩ =
          .running (.done (s.pool.call.stop (p.threads s.pool.call))) := by
        rw [GgmlBarrier.view_seat, hplace, hended]
        rfl
      obtain ⟨r, hinv, -⟩ := pool_worked hn hreach
      have hall := hinv.all_done hfirst
      refine ⟨.rest .idle ⟨?_, fun j hj hlt => ?_⟩ rfl, first_leaves hn hreach hfirst⟩
      · exact (GgmlBarrier.pool_reachable hn hreach).1.nobody (fun i => (hall i).imp' _ (fun _ hk => hk))
      · apply (hworks j hj hlt).rests hactive
        intro hj'
        obtain ⟨k, hk⟩ := hall ⟨j, hj'⟩
        rw [GgmlBarrier.view_seat] at hk
        simp only [State.view, if_neg hj.ne'] at hk
        exact ⟨k, hk⟩

end Caller

section Runs

/-- The calls have left a memory, and the pool is where they go on from it. -/
def Served (p : Params M) (mem₀ : M) (s : State K M) : Prop := ∃ mem, Stage p mem s ∧ Computes p s.returned mem₀ mem

theorem Stage.caller (h : Stage p mem s) (hreturned : Computes p s.returned mem₀ mem) (hfits : Fits s)
    (hmoves : CallerMoves p s u) : Served p mem₀ u := by
  cases hmoves with
  | @lock sec hcaller hfree =>
    refine ⟨mem, h.same ⟨rfl, rfl, rfl, rfl, rfl⟩ ?_ (fun _ => .inl rfl), hreturned⟩
    rw [hcaller]
    exact follows_lock _ _ _
  | @act sec a acts hcaller =>
    by_cases ha : ∃ n, a = .storeGraph n
    · obtain ⟨n, rfl⟩ := ha
      exact ⟨mem, h.announces hcaller, hreturned⟩
    · push Not at ha
      refine ⟨mem, h.same (run_same _ ha) ?_ (fun j => ?_), hreturned⟩
      · rw [hcaller]
        exact follows_act _ _ ha _
      · by_cases hbroadcast : a = .broadcast <;> simp [hbroadcast]
  | @unlock sec hcaller =>
    refine ⟨mem, h.same ⟨rfl, rfl, rfl, rfl, rfl⟩ ?_ (fun _ => .inl rfl), hreturned⟩
    rw [hcaller]
    exact follows_unlock _ _
  | session hcaller hnext => exact ⟨mem, h.session hfits hcaller hnext, hreturned⟩
  | returns hcaller hnext =>
    obtain ⟨hstage, hleaves, hstatus⟩ := h.returns hcaller hnext _
    exact ⟨_, hstage, hreturned.snoc hleaves hstatus⟩
  | @join j hcaller hlt hended =>
    refine ⟨mem, h.same (.refl _) ?_ (fun _ => .inl rfl), hreturned⟩
    rw [hcaller]
    exact follows_joining _ _ (.joining _)
  | @freed j hcaller hall =>
    refine ⟨mem, h.same (.refl _) ?_ (fun _ => .inl rfl), hreturned⟩
    rw [hcaller]
    exact follows_joining _ _ .freed

theorem Served.step (h : Served p mem₀ s) (hfits : Fits s) (i : Input K M) (hstep : Step p s i u) : Served p mem₀ u := by
  obtain ⟨mem, hstage, hreturned⟩ := h
  unfold Step at hstep
  cases i with
  | compute call =>
    cases hcaller : s.caller <;> simp only [State.step, hcaller, Option.some.injEq, reduceCtorEq] at hstep
    subst hstep
    obtain ⟨hrested, hmem⟩ := hstage.of_idle hcaller
    refine ⟨mem, .kickoff .locking ⟨hrested.nBarrier, fun j hj hlt => ?_⟩ ?_, hreturned⟩
    · exact (hrested.workers j hj hlt).kept rfl rfl
    · rw [← hmem]
  | operate sec =>
    cases hcaller : s.caller <;> cases sec <;> simp only [State.step, hcaller, Option.some.injEq, reduceCtorEq] at hstep
    all_goals
      subst hstep
      obtain ⟨hrested, hmem⟩ := hstage.of_idle hcaller
      exact ⟨mem, .rest (.locking (by simp)) ⟨hrested.nBarrier, hrested.workers⟩ hmem, hreturned⟩
  | caller => exact hstage.caller hreturned hfits (callerStep_moves hstep)
  | worker j =>
    simp only [State.step] at hstep
    split_ifs at hstep with hj
    obtain ⟨⟨w', pool'⟩, hnext, rfl⟩ := Option.map_eq_some_iff.mp hstep
    exact ⟨mem, hstage.worker hfits hj.1 hj.2 (step_moves hnext), hreturned⟩
  | spurious j =>
    simp only [State.step, Option.some.injEq] at hstep
    subst hstep
    refine ⟨mem, hstage.same (.refl _) (.refl _ _) (fun k => ?_), hreturned⟩
    by_cases hk : k = j
    · subst hk
      exact .inr (Function.update_self ..)
    · exact .inl (Function.update_of_ne hk ..)

theorem Created.served (h : Created mem₀ s) : Served p mem₀ s := by
  refine ⟨mem₀, .rest (by rw [h.caller]; exact .idle) ⟨h.nBarrier, fun j hj hlt => ?_⟩ h.mem, by rw [h.returned]; exact .nil _⟩
  rw [h.workers]
  refine ⟨Nat.zero_le _, fun hactive => ?_, rfl, fun t ht => ?_⟩
  · exact h.nGraph.symm
  · cases ht

theorem reachable_served (h : Reachable (Created mem₀) (Admitted (fun s _ => Fits s) (Step p)) s) : Served p mem₀ s :=
  h.invariant (Served p mem₀) (fun _ => Created.served) (fun _ i _ hserved hstep => hserved.step hstep.1 i hstep.2)

def addOne (n : ℕ) : List (Node n Bool ℕ) :=
  [[⟨fun _ => false, fun _ added => if added then none else some (fun m => (true, m + 1))⟩]]

def addCall : Call Bool ℕ := ⟨2, addOne, fun _ => false, Nat.two_pos⟩

theorem two_lt : 2 < 2 ^ 16 := by norm_num

def pair : Params ℕ := ⟨2, 0, id, Nat.two_pos, two_lt⟩

def fresh : State Bool ℕ :=
  ⟨⟨none, 0, 0, 0, false, false, addCall, prepared 5⟩, .idle, fun _ => ⟨.pauseTest, 0, false⟩, []⟩

def alternating (n : ℕ) : List (Input Bool ℕ) := (List.replicate n [.worker 1, .caller]).flatten

/-- The worker sleeps before the first graph, and is paused before the second one. -/
def inputs : List (Input Bool ℕ) :=
  List.flatten [.replicate 9 (.worker 1), .compute addCall :: .replicate 4 .caller, alternating 20,
    .operate .pause :: .replicate 4 .caller, .replicate 3 (.worker 1), .compute addCall :: .replicate 6 .caller, alternating 22]

instance (s : State K M) : Decidable (Fits s) :=
  decidable_of_iff (s.pool.nGraph >>> 16 + 1 < 2 ^ 15 ∧ s.pool.nBarrierPassed ≠ BitVec.allOnes 32)
    ⟨fun h => ⟨h.1, h.2⟩, fun h => ⟨h.graphs, h.barriers⟩⟩

def advance (p : Params ℕ) (s : State Bool ℕ) (i : Input Bool ℕ) : Option (State Bool ℕ) := if Fits s then s.step p i else none

theorem advance_reachable {p : Params ℕ} {inputs : List (Input Bool ℕ)} {s : State Bool ℕ}
    (h : inputs.foldlM (advance p) fresh = some s) : Reachable (Created 5) (Admitted (fun s _ => Fits s) (Step p)) s := by
  have hcreated : Created 5 fresh := ⟨rfl, rfl, rfl, rfl, rfl, rfl, rfl, rfl, rfl⟩
  apply Reachable.foldlM _ (.start hcreated) h
  intro s i u hnext
  unfold advance at hnext
  split_ifs at hnext with hfits
  exact ⟨hfits, hnext⟩

end Runs

end PyannoteCpp.Threadpool
