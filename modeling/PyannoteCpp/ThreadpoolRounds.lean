import PyannoteCpp.Threadpool

set_option autoImplicit false

/-!
# The rounds of a pool

Between the store that announces a graph and the return of the caller, the active
threads are those of one computation, the ones that have not taken notice of the graph
at its start. When the caller returns all of them have passed the last barrier, so that
nothing that the next call resets is in use.
-/
namespace PyannoteCpp.Threadpool
open ReachableStates Crews GraphCompute Rendezvous

variable {K M : Type*} {p : Params M}

section Counting

variable {nThreads : ℕ}

theorem activeThreads_eq (nGraph : ℕ) : activeThreads nGraph = nGraph % 2 ^ 16 := Nat.and_two_pow_sub_one_eq_mod nGraph 16

theorem nextGraph_eq (hlt : nThreads < 2 ^ 16) (nGraph : ℕ) :
    nextGraph nGraph nThreads = (nGraph / 2 ^ 16 + 1) * 2 ^ 16 + nThreads := by
  have hmask : nThreads &&& 0xffff = nThreads := by
    rw [show (0xffff : ℕ) = 2 ^ 16 - 1 from rfl, Nat.and_two_pow_sub_one_eq_mod, Nat.mod_eq_of_lt hlt]
  unfold nextGraph
  rw [hmask, ← Nat.shiftLeft_add_eq_or_of_lt hlt, Nat.shiftLeft_eq, Nat.shiftRight_eq_div_pow]

theorem activeThreads_nextGraph (hlt : nThreads < 2 ^ 16) (nGraph : ℕ) :
    activeThreads (nextGraph nGraph nThreads) = nThreads := by
  rw [activeThreads_eq, nextGraph_eq hlt, Nat.mul_add_mod_self_right, Nat.mod_eq_of_lt hlt]

theorem lt_nextGraph (hlt : nThreads < 2 ^ 16) (nGraph : ℕ) : nGraph < nextGraph nGraph nThreads := by
  rw [nextGraph_eq hlt]
  omega

end Counting

section Threads

abbrev Call.program (call : Call K M) (n : ℕ) : Program n (Pc K) (Shared M) :=
  graphComputeThread (call.nodes n) call.abortCallback

abbrev Call.stop (call : Call K M) (n : ℕ) : ℕ := GraphCompute.stop (call.nodes n) call.abortCallback

/-- A line outside `ggml_graph_compute_thread`. -/
def Line.Loose (line : Line K M) : Prop := ∀ t, line ≠ .session t

/-- Behind the last barrier or about to leave it. -/
inductive Left (nBarrierPassed : BitVec 32) : GgmlBarrier.Place (Pc K) → Prop where
  | done (k : ℕ) : Left nBarrierPassed (.running (.done k))
  | spin (k : ℕ) {nPassed : BitVec 32} (h : nPassed.toNat < nBarrierPassed.toNat) : Left nBarrierPassed (.spin (.done k) nPassed)

structure Current (pool : Fields K M) (ith : ℕ) (c : Computing K M) : Prop where
  call : c.call = pool.call
  nth : c.nth = activeThreads pool.nGraph
  inside : ith < activeThreads pool.nGraph
  barrier : c.nThreads = c.nth ∨ ∃ l, c.place = .running l
  loaded : ∀ l nPassed, c.place = .addBarrier l nPassed ∨ c.place = .spin l nPassed →
    nPassed.toNat ≤ pool.nBarrierPassed.toNat

/-- A worker in `ggml_graph_compute_thread`, that computes or has not left an earlier graph. -/
inductive Attends (pool : Fields K M) (ith lastGraph : ℕ) : Session K M → Prop where
  | enter (hlast : lastGraph = pool.nGraph) (hinside : ith < activeThreads pool.nGraph) : Attends pool ith lastGraph .enter
  | params (hlast : lastGraph = pool.nGraph) (hinside : ith < activeThreads pool.nGraph) :
      Attends pool ith lastGraph (.params pool.call)
  | current (hlast : lastGraph = pool.nGraph) {c : Computing K M} (h : Current pool ith c) :
      Attends pool ith lastGraph (.compute c)
  | stale (hlast : lastGraph ≠ pool.nGraph) {c : Computing K M} (h : Left pool.nBarrierPassed c.place) :
      Attends pool ith lastGraph (.compute c)

namespace Worker

/-- A worker while a graph is computed. -/
structure Works (pool : Fields K M) (ith : ℕ) (w : Worker K M) : Prop where
  last : w.lastGraph ≤ pool.nGraph
  pending : w.pending = true → w.lastGraph = pool.nGraph ∧ ith < activeThreads pool.nGraph ∧ w.line.Loose
  session : ∀ t, w.line = .session t → Attends pool ith w.lastGraph t

/-- A worker while no graph is computed. -/
structure Rests (pool : Fields K M) (ith : ℕ) (w : Worker K M) : Prop where
  last : w.lastGraph ≤ pool.nGraph
  seen : ith < activeThreads pool.nGraph → w.lastGraph = pool.nGraph
  pending : w.pending = false
  session : ∀ t, w.line = .session t → ∃ c, t = .compute c ∧ Left pool.nBarrierPassed c.place

end Worker

end Threads

section Moves

variable {pool pool' : Fields K M} {ith nRounds : ℕ} {w w' : Worker K M}

inductive Moves (pool : Fields K M) (ith : ℕ) (w : Worker K M) : Worker K M → Fields K M → Prop where
  | loose {line : Line K M} {mutex : Option ℕ} (hbefore : w.line.Loose) (hafter : line.Loose) :
      Moves pool ith w { w with line := line } { pool with mutex := mutex }
  | sees {line : Line K M} (hbefore : w.line.Loose) (hafter : line.Loose) (hnew : pool.nGraph ≠ w.lastGraph) :
      Moves pool ith w { w.sees pool ith with line := line } pool
  | starts (hbefore : w.line.Loose) (hpending : w.pending = true) :
      Moves pool ith w { w with line := .session .enter, pending := false } pool
  | session {t t' : Session K M} {pool' : Fields K M} (hline : w.line = .session t)
      (h : t.line pool ith = some (t', pool')) : Moves pool ith w { w with line := .session t' } pool'
  | returns {t : Session K M} (hline : w.line = .session t) (h : t.line pool ith = none) :
      Moves pool ith w { w with line := .pauseTest } pool

theorem Worker.loose_polled (w : Worker K M) : w.polled.line.Loose := by
  unfold Worker.polled
  split_ifs <;> simp [Line.Loose]

theorem step_moves (h : w.step pool ith nRounds = some (w', pool')) : Moves pool ith w w' pool' := by
  have hquiet : ∀ line mutex, w.line.Loose → line.Loose → ({ w with line := line }, { pool with mutex := mutex }) = (w', pool') →
      Moves pool ith w w' pool' := fun line mutex hbefore hafter heq => by
    obtain ⟨rfl, rfl⟩ := Prod.mk.inj heq
    exact .loose hbefore hafter
  unfold Worker.step at h
  cases hline : w.line with
  | session t =>
    simp only [hline] at h
    split at h
    · next t' pool'' hnext =>
      simp only [Option.some.injEq, Prod.mk.injEq] at h
      obtain ⟨rfl, rfl⟩ := h
      exact .session hline hnext
    · next hnext =>
      simp only [Option.some.injEq, Prod.mk.injEq] at h
      obtain ⟨rfl, rfl⟩ := h
      exact .returns hline hnext
  | pendingTest =>
    simp only [hline, Option.some.injEq] at h
    split_ifs at h with hpending
    · obtain ⟨rfl, rfl⟩ := Prod.mk.inj h
      exact .starts (by simp [Line.Loose, hline]) hpending
    · exact hquiet .pauseTest pool.mutex (by simp [Line.Loose, hline]) (by simp [Line.Loose]) h
  | pollGraph i =>
    simp only [hline, ne_eq, ite_not] at h
    have hloose : w.line.Loose := by simp [Line.Loose, hline]
    split_ifs at h with hseen hrounds
    · exact hquiet (.pollStop (i + 1)) pool.mutex hloose (by simp [Line.Loose]) (Option.some.inj h)
    · exact hquiet w.polled.line pool.mutex hloose w.loose_polled (Option.some.inj h)
    · obtain ⟨rfl, rfl⟩ := Prod.mk.inj (Option.some.inj h)
      exact .sees hloose (w.sees pool ith).loose_polled hseen
  | readyGraph =>
    simp only [hline, ne_eq, ite_not] at h
    have hloose : w.line.Loose := by simp [Line.Loose, hline]
    split_ifs at h with hseen
    · exact hquiet .sleepWork none hloose (by simp [Line.Loose]) (Option.some.inj h)
    · obtain ⟨rfl, rfl⟩ := Prod.mk.inj (Option.some.inj h)
      exact .sees hloose (by simp [Line.Loose]) hseen
  | sleepPause => simp [hline] at h
  | sleepWork => simp [hline] at h
  | ended => simp [hline] at h
  | pollStop i =>
    simp only [hline, Option.some.injEq] at h
    have hloose : w.line.Loose := by simp [Line.Loose, hline]
    split_ifs at h
    · exact hquiet w.polled.line pool.mutex hloose w.loose_polled h
    · exact hquiet (.pollPause i) pool.mutex hloose (by simp [Line.Loose]) h
  | pollPause i =>
    simp only [hline, Option.some.injEq] at h
    have hloose : w.line.Loose := by simp [Line.Loose, hline]
    split_ifs at h
    · exact hquiet w.polled.line pool.mutex hloose w.loose_polled h
    · exact hquiet (.pollGraph i) pool.mutex hloose (by simp [Line.Loose]) h
  | pauseTest =>
    simp only [hline, Option.some.injEq] at h
    exact hquiet _ pool.mutex (by simp [Line.Loose, hline]) (by split_ifs <;> simp [Line.Loose]) h
  | stopTest =>
    simp only [hline, Option.some.injEq] at h
    exact hquiet _ pool.mutex (by simp [Line.Loose, hline]) (by split_ifs <;> simp [Line.Loose]) h
  | readyStop =>
    simp only [hline, Option.some.injEq] at h
    exact hquiet _ pool.mutex (by simp [Line.Loose, hline]) (by split_ifs <;> simp [Line.Loose]) h
  | readyPause =>
    simp only [hline, Option.some.injEq] at h
    exact hquiet _ pool.mutex (by simp [Line.Loose, hline]) (by split_ifs <;> simp [Line.Loose]) h
  | unlockPause =>
    simp only [hline, Option.some.injEq] at h
    exact hquiet .pauseTest none (by simp [Line.Loose, hline]) (by simp [Line.Loose]) h
  | unlockWork =>
    simp only [hline, Option.some.injEq] at h
    exact hquiet .pendingTest none (by simp [Line.Loose, hline]) (by simp [Line.Loose]) h
  | pauseTestLocked =>
    simp only [hline] at h
    split_ifs at h
    · exact hquiet .sleepPause none (by simp [Line.Loose, hline]) (by simp [Line.Loose]) (Option.some.inj h)
    · exact hquiet .unlockPause pool.mutex (by simp [Line.Loose, hline]) (by simp [Line.Loose]) (Option.some.inj h)
  | lockPause =>
    simp only [hline] at h
    split_ifs at h
    exact hquiet .pauseTestLocked (some ith) (by simp [Line.Loose, hline]) (by simp [Line.Loose]) (Option.some.inj h)
  | wakePause =>
    simp only [hline] at h
    split_ifs at h
    exact hquiet .unlockPause (some ith) (by simp [Line.Loose, hline]) (by simp [Line.Loose]) (Option.some.inj h)
  | lockWork =>
    simp only [hline] at h
    split_ifs at h
    exact hquiet .readyStop (some ith) (by simp [Line.Loose, hline]) (by simp [Line.Loose]) (Option.some.inj h)
  | wakeWork =>
    simp only [hline] at h
    split_ifs at h
    exact hquiet .readyStop (some ith) (by simp [Line.Loose, hline]) (by simp [Line.Loose]) (Option.some.inj h)

end Moves

section Sessions

variable {pool pool' : Fields K M} {ith : ℕ} {c c' : Computing K M}

theorem Left.line (h : Left pool.nBarrierPassed c.place) (hline : c.line pool ith = some (c', pool')) :
    Left pool.nBarrierPassed c'.place ∧ pool' = pool := by
  unfold Computing.line at hline
  generalize hplace : c.place = place at h hline
  cases h with
  | done k =>
    have hhalt : c.turn ith (.done k) = .halt := by
      unfold Computing.turn
      split_ifs <;> rfl
    simp [hhalt] at hline
  | @spin k nPassed hlt =>
    have hne : pool.nBarrierPassed ≠ nPassed := fun heq => absurd (heq ▸ hlt) (lt_irrefl _)
    simp only [if_neg hne, Option.some.injEq, Prod.mk.injEq] at hline
    obtain ⟨rfl, rfl⟩ := hline
    exact ⟨.done k, rfl⟩

theorem Left.mono {passed passed' : BitVec 32} (hle : passed.toNat ≤ passed'.toNat) {place : GgmlBarrier.Place (Pc K)}
    (h : Left passed place) : Left passed' place := by
  cases h with
  | done k => exact .done k
  | spin k hlt => exact .spin k (hlt.trans_le hle)

/-- What a thread of the graph cannot change. -/
structure Kept (pool pool' : Fields K M) : Prop where
  call : pool'.call = pool.call
  nGraph : pool'.nGraph = pool.nGraph
  passed : pool.nBarrierPassed.toNat ≤ pool'.nBarrierPassed.toNat

theorem Kept.refl (pool : Fields K M) : Kept pool pool := ⟨rfl, rfl, le_rfl⟩

theorem toNat_succ {passed : BitVec 32} (h : passed ≠ BitVec.allOnes 32) : (passed + 1).toNat = passed.toNat + 1 := by
  have hne : passed.toNat ≠ 2 ^ 32 - 1 := fun heq => h (BitVec.eq_of_toNat_eq heq)
  have hlt := passed.isLt
  rw [BitVec.toNat_add]
  exact Nat.mod_eq_of_lt (by simp; omega)

theorem turn_eq {call : Call K M} {n : ℕ} (hcall : c.call = call) (hnth : c.nth = n) {i : Fin n} (hi : i.val = ith) (l : Pc K) :
    c.turn ith l = call.program n i l := by
  subst hcall hnth hi
  exact dif_pos i.isLt

/-- A line of a thread of the graph is a line of the threads that compute it alone. -/
theorem Current.line {n : ℕ} (h : Current pool ith c) (hn : activeThreads pool.nGraph = n)
    (hroom : pool.nBarrierPassed ≠ BitVec.allOnes 32) {q : GgmlBarrier.Pool n (Pc K) (Shared M)} {i : Fin n}
    (hi : i.val = ith) (hplace : q.places i = c.place) (hbarrier : q.nBarrier = pool.nBarrier)
    (hpassed : q.nBarrierPassed = pool.nBarrierPassed) (hmem : q.mem = pool.shared)
    (hline : c.line pool ith = some (c', pool')) :
    GgmlBarrier.Step (pool.call.program n) q i
        ⟨pool'.nBarrier, pool'.nBarrierPassed, Function.update q.places i c'.place, pool'.shared⟩ ∧
      Current pool' ith c' ∧ Kept pool pool' := by
  have hturn := turn_eq h.call (h.nth.trans hn) hi
  have hnumber : c.nThreads = n ∨ ∃ l, c.place = .running l := h.barrier.imp_left (fun heq => heq.trans (h.nth.trans hn))
  obtain ⟨nBarrier, nBarrierPassed, places, mem⟩ := q
  simp only at hplace hbarrier hpassed hmem
  subst hbarrier hpassed hmem
  unfold GgmlBarrier.Step GgmlBarrier.step
  unfold Computing.line at hline
  simp only [hplace]
  cases hcase : c.place with
  | running l =>
    simp only [hcase, hturn] at hline ⊢
    cases hact : pool.call.program n i l with
    | act run =>
      simp only [hact, Option.some.injEq, Prod.mk.injEq] at hline ⊢
      obtain ⟨rfl, rfl⟩ := hline
      exact ⟨rfl, ⟨h.call, h.nth, h.inside, .inr ⟨_, rfl⟩, by simp⟩, ⟨rfl, rfl, le_rfl⟩⟩
    | wait next =>
      simp only [hact, Option.some.injEq, Prod.mk.injEq] at hline ⊢
      obtain ⟨rfl, rfl⟩ := hline
      refine ⟨by rw [hn]; rfl, ⟨h.call, h.nth, h.inside, .inl h.nth.symm, ?_⟩, .refl _⟩
      intro l' q hl'
      split_ifs at hl' <;> simp at hl'
    | halt => simp [hact] at hline
  | loadPassed l =>
    simp only [hcase, Option.some.injEq, Prod.mk.injEq] at hline ⊢
    obtain ⟨rfl, rfl⟩ := hline
    refine ⟨rfl, ⟨h.call, h.nth, h.inside, .inl ?_, by simp⟩, .refl _⟩
    simpa [hcase] using h.barrier
  | addBarrier l q =>
    have hbarrier : c.nThreads = n := by simpa [hcase] using hnumber
    simp only [hcase, hbarrier, Option.some.injEq, Prod.mk.injEq] at hline ⊢
    obtain ⟨rfl, rfl⟩ := hline
    refine ⟨rfl, ⟨h.call, h.nth, h.inside, .inl (h.nth.trans hn).symm, ?_⟩, ⟨rfl, rfl, le_rfl⟩⟩
    intro l' q' hl'
    have hle := h.loaded l q (.inl hcase)
    split_ifs at hl' <;> simp at hl'
    rwa [← hl'.2]
  | storeZero l =>
    simp only [hcase, Option.some.injEq, Prod.mk.injEq] at hline ⊢
    obtain ⟨rfl, rfl⟩ := hline
    refine ⟨rfl, ⟨h.call, h.nth, h.inside, .inl ?_, by simp⟩, ⟨rfl, rfl, le_rfl⟩⟩
    simpa [hcase] using h.barrier
  | addPassed l =>
    simp only [hcase, Option.some.injEq, Prod.mk.injEq] at hline ⊢
    obtain ⟨rfl, rfl⟩ := hline
    refine ⟨rfl, ⟨h.call, h.nth, h.inside, .inr ⟨_, rfl⟩, by simp⟩, ⟨rfl, rfl, ?_⟩⟩
    rw [toNat_succ hroom]
    exact Nat.le_succ _
  | spin l q =>
    simp only [hcase, Option.some.injEq, Prod.mk.injEq] at hline ⊢
    obtain ⟨rfl, rfl⟩ := hline
    split_ifs with hsame
    · refine ⟨?_, h, .refl _⟩
      rw [← hplace, Function.update_eq_self]
    · exact ⟨rfl, ⟨h.call, h.nth, h.inside, .inr ⟨_, rfl⟩, by simp⟩, .refl _⟩

end Sessions

section View

variable {n j : ℕ} {s : State K M} {pool' : Fields K M} {w w' : Worker K M}

def Worker.place (nGraph stop : ℕ) (w : Worker K M) : GgmlBarrier.Place (Pc K) :=
  if w.lastGraph ≠ nGraph ∨ w.pending = true then .running (.head 0)
  else match w.line with
    | .session (.compute c) => c.place
    | .session _ => .running (.head 0)
    | _ => .running (.done stop)

def Caller.place : Caller K M → GgmlBarrier.Place (Pc K)
  | .session (.compute c) => c.place
  | _ => .running (.head 0)

/-- The active threads as ones that compute the graph alone. -/
def State.view (n : ℕ) (s : State K M) : GgmlBarrier.Pool n (Pc K) (Shared M) where
  nBarrier := s.pool.nBarrier
  nBarrierPassed := s.pool.nBarrierPassed
  places i := if i.val = 0 then s.caller.place else (s.workers i).place s.pool.nGraph (s.pool.call.stop n)
  mem := s.pool.shared

def State.moved (s : State K M) (j : ℕ) (w : Worker K M) (pool : Fields K M) : State K M :=
  { s with pool := pool, workers := Function.update s.workers j w }

theorem Worker.place_loose (h : w.line.Loose) (nGraph stop : ℕ) :
    w.place nGraph stop = if w.lastGraph ≠ nGraph ∨ w.pending = true then .running (.head 0) else .running (.done stop) := by
  unfold Worker.place
  split_ifs
  · rfl
  · split
    · next c hline => exact absurd hline (h _)
    · next t _ hline => exact absurd hline (h _)
    · rfl

theorem Worker.place_unseen {nGraph : ℕ} (h : w.lastGraph ≠ nGraph ∨ w.pending = true) (stop : ℕ) :
    w.place nGraph stop = .running (.head 0) := if_pos h

theorem view_places (hj : 0 < j) (hcall : pool'.call = s.pool.call) (hgraph : pool'.nGraph = s.pool.nGraph) :
    ((s.moved j w' pool').view n).places = fun i =>
      if i.val = j then w'.place s.pool.nGraph (s.pool.call.stop n) else (s.view n).places i := by
  funext i
  simp only [State.view, State.moved, hcall, hgraph]
  by_cases hi : i.val = j
  · rw [if_pos hi, if_neg (by omega), hi, Function.update_self]
  · rw [if_neg hi, Function.update_of_ne hi]

theorem view_same (hj : 0 < j) (hcall : pool'.call = s.pool.call) (hgraph : pool'.nGraph = s.pool.nGraph)
    (hbarrier : pool'.nBarrier = s.pool.nBarrier) (hpassed : pool'.nBarrierPassed = s.pool.nBarrierPassed)
    (hshared : pool'.shared = s.pool.shared)
    (hplace : j < n → w'.place s.pool.nGraph (s.pool.call.stop n) = (s.workers j).place s.pool.nGraph (s.pool.call.stop n)) :
    (s.moved j w' pool').view n = s.view n := by
  have hplaces : ((s.moved j w' pool').view n).places = (s.view n).places := by
    rw [view_places hj hcall hgraph]
    funext i
    split_ifs with hi
    · have hlt : j < n := hi ▸ i.isLt
      rw [hplace hlt]
      simp only [State.view, hi, if_neg hj.ne']
    · rfl
  calc (s.moved j w' pool').view n
      = ⟨pool'.nBarrier, pool'.nBarrierPassed, ((s.moved j w' pool').view n).places, pool'.shared⟩ := rfl
    _ = s.view n := by rw [hbarrier, hpassed, hshared, hplaces]; rfl

theorem view_update (hj : 0 < j) (hlt : j < n) (hcall : pool'.call = s.pool.call) (hgraph : pool'.nGraph = s.pool.nGraph) :
    (s.moved j w' pool').view n = ⟨pool'.nBarrier, pool'.nBarrierPassed,
      Function.update (s.view n).places ⟨j, hlt⟩ (w'.place s.pool.nGraph (s.pool.call.stop n)), pool'.shared⟩ := by
  have hplaces : ((s.moved j w' pool').view n).places =
      Function.update (s.view n).places ⟨j, hlt⟩ (w'.place s.pool.nGraph (s.pool.call.stop n)) := by
    rw [view_places hj hcall hgraph]
    funext i
    by_cases hi : i.val = j
    · have hij : i = ⟨j, hlt⟩ := Fin.ext hi
      rw [if_pos hi, hij, Function.update_self]
    · have hij : i ≠ ⟨j, hlt⟩ := fun h => hi (congrArg Fin.val h)
      rw [if_neg hi, Function.update_of_ne hij]
  rw [← hplaces]
  rfl

end View

section Work

variable {n j : ℕ} {s : State K M} {pool' : Fields K M} {w' : Worker K M} {mem : M} {call : Call K M}

theorem line_none {pool : Fields K M} {ith : ℕ} {c : Computing K M} (h : c.line pool ith = none) :
    ∃ l, c.place = .running l ∧ c.turn ith l = .halt := by
  unfold Computing.line at h
  cases hplace : c.place with
  | running l =>
    simp only [hplace] at h
    cases hturn : c.turn ith l with
    | act run => simp [hturn] at h
    | wait next => simp [hturn] at h
    | halt => exact ⟨l, rfl, hturn⟩
  | loadPassed l => simp [hplace] at h
  | addBarrier l q => simp [hplace] at h
  | storeZero l => simp [hplace] at h
  | addPassed l => simp [hplace] at h
  | spin l q => simp [hplace] at h

/-- A thread of the graph that has no line left has passed the last barrier. -/
theorem Current.ended (hcall : s.pool.call = call) (hn : activeThreads s.pool.nGraph = n)
    (hreach : Reachable (kickedOff mem) (GgmlBarrier.Step (call.program n)) (s.view n)) {c : Computing K M}
    (h : Current s.pool j c) (hplace : ∀ i : Fin n, i.val = j → (s.view n).places i = c.place)
    (hline : c.line s.pool j = none) : c.place = .running (.done (call.stop n)) := by
  obtain ⟨l, hl, hturn⟩ := line_none hline
  have hlt : j < n := hn ▸ h.inside
  have hi := hplace ⟨j, hlt⟩ rfl
  rw [turn_eq (h.call.trans hcall) (h.nth.trans hn) (i := ⟨j, hlt⟩) rfl] at hturn
  obtain ⟨r, hinv, -⟩ := pool_worked (Nat.zero_lt_of_lt hlt) hreach
  have hseat : (GgmlBarrier.view (s.view n)).seats ⟨j, hlt⟩ = .running l := by
    rw [GgmlBarrier.view_seat, hi, hl]
    rfl
  rw [hl, halt_done (hinv.placed.running hseat) hturn]

theorem Current.kept {pool : Fields K M} {ith : ℕ} {c : Computing K M} (h : Current pool ith c) (hkept : Kept pool pool') :
    Current pool' ith c :=
  ⟨h.call.trans hkept.call.symm, hkept.nGraph ▸ h.nth, hkept.nGraph ▸ h.inside, h.barrier,
    fun l q hq => (h.loaded l q hq).trans hkept.passed⟩

namespace Worker

theorem Works.kept {pool : Fields K M} {ith : ℕ} {w : Worker K M} (h : w.Works pool ith) (hkept : Kept pool pool') :
    w.Works pool' ith := by
  obtain ⟨hcall, hgraph, hpassed⟩ := hkept
  refine ⟨hgraph ▸ h.last, fun hpending => hgraph ▸ h.pending hpending, fun t ht => ?_⟩
  have hattends := h.session t ht
  cases hattends with
  | enter hlast hinside => exact .enter (hlast.trans hgraph.symm) (hgraph ▸ hinside)
  | params hlast hinside =>
    rw [← hcall]
    exact .params (hlast.trans hgraph.symm) (hgraph ▸ hinside)
  | current hlast hcurrent =>
    exact .current (hlast.trans hgraph.symm) (hcurrent.kept ⟨hcall, hgraph, hpassed⟩)
  | stale hlast hleft => exact .stale (hgraph ▸ hlast) (hleft.mono hpassed)

theorem Works.not_pending {pool : Fields K M} {ith : ℕ} {w : Worker K M} (h : w.Works pool ith) {t : Session K M}
    (hline : w.line = .session t) : w.pending = false := by
  by_contra hpending
  exact (h.pending (Bool.not_eq_false _ ▸ hpending)).2.2 t hline

end Worker

theorem reach_same (hreach : Reachable (kickedOff mem) (GgmlBarrier.Step (call.program n)) (s.view n)) (hj : 0 < j)
    (hcall : pool'.call = s.pool.call) (hgraph : pool'.nGraph = s.pool.nGraph) (hbarrier : pool'.nBarrier = s.pool.nBarrier)
    (hpassed : pool'.nBarrierPassed = s.pool.nBarrierPassed) (hshared : pool'.shared = s.pool.shared)
    (hplace : j < n → w'.place s.pool.nGraph (s.pool.call.stop n) = (s.workers j).place s.pool.nGraph (s.pool.call.stop n)) :
    Reachable (kickedOff mem) (GgmlBarrier.Step (call.program n)) ((s.moved j w' pool').view n) := by
  rw [view_same hj hcall hgraph hbarrier hpassed hshared hplace]
  exact hreach

def Session.place : Session K M → GgmlBarrier.Place (Pc K)
  | .compute c => c.place
  | _ => .running (.head 0)

theorem Worker.place_session {w : Worker K M} {t : Session K M} {nGraph : ℕ} (hline : w.line = .session t)
    (hlast : w.lastGraph = nGraph) (hpending : w.pending = false) (stop : ℕ) : w.place nGraph stop = t.place := by
  unfold Worker.place
  rw [hlast, hpending, hline]
  cases t <;> simp [Session.place]

/-- A worker goes on in the computation, or what it does cannot be seen there. -/
theorem works_moves (hcall : s.pool.call = call) (hn : activeThreads s.pool.nGraph = n) (hj : 0 < j)
    (hroom : s.pool.nBarrierPassed ≠ BitVec.allOnes 32) (hw : (s.workers j).Works s.pool j)
    (hmoves : Moves s.pool j (s.workers j) w' pool')
    (hreach : Reachable (kickedOff mem) (GgmlBarrier.Step (call.program n)) (s.view n)) :
    w'.Works pool' j ∧ Kept s.pool pool' ∧
      Reachable (kickedOff mem) (GgmlBarrier.Step (call.program n)) ((s.moved j w' pool').view n) := by
  cases hmoves with
  | @loose line mutex hbefore hafter =>
    have hkept : Kept s.pool { s.pool with mutex := mutex } := ⟨rfl, rfl, le_rfl⟩
    refine ⟨⟨hw.last, fun hpending => ?_, fun t ht => absurd ht (hafter t)⟩, hkept, ?_⟩
    · obtain ⟨hlast, hinside, -⟩ := hw.pending hpending
      exact ⟨hlast, hinside, hafter⟩
    · refine reach_same hreach hj rfl rfl rfl rfl rfl (fun _ => ?_)
      rw [Worker.place_loose hafter, Worker.place_loose hbefore]
  | @sees line hbefore hafter hnew =>
    refine ⟨⟨le_rfl, fun hpending => ⟨rfl, of_decide_eq_true hpending, hafter⟩, fun t ht => absurd ht (hafter t)⟩, .refl _, ?_⟩
    refine reach_same hreach hj rfl rfl rfl rfl rfl (fun hlt => ?_)
    rw [Worker.place_unseen (.inl hnew.symm), Worker.place_unseen (.inr ?_)]
    exact decide_eq_true (hn ▸ hlt)
  | starts hbefore hpending =>
    obtain ⟨hlast, hinside, -⟩ := hw.pending hpending
    refine ⟨⟨hw.last, fun h => ?_, fun t ht => ?_⟩, .refl _, ?_⟩
    · cases h
    · obtain rfl := Line.session.inj ht
      exact .enter hlast hinside
    · refine reach_same hreach hj rfl rfl rfl rfl rfl (fun _ => ?_)
      rw [Worker.place_unseen (.inr hpending)]
      exact Worker.place_session (w := ⟨.session .enter, (s.workers j).lastGraph, false⟩) rfl hlast rfl _
  | @session t t' pool' hline hnext =>
    have hpending := hw.not_pending hline
    have hworks : ∀ t'' pool'', Kept s.pool pool'' → Attends pool'' j (s.workers j).lastGraph t'' →
        Worker.Works pool'' j { s.workers j with line := .session t'' } := fun t'' pool'' hkept hattends => by
      refine ⟨hkept.nGraph ▸ hw.last, fun h => ?_, fun t ht => ?_⟩
      · rw [hpending] at h
        cases h
      · obtain rfl := Line.session.inj ht
        exact hattends
    have hplace : (s.workers j).lastGraph = s.pool.nGraph → ∀ stop,
        Worker.place s.pool.nGraph stop { s.workers j with line := .session t' } = t'.place := fun hlast =>
      Worker.place_session (w := ⟨.session t', (s.workers j).lastGraph, (s.workers j).pending⟩) rfl hlast hpending
    have hattends := hw.session t hline
    cases hattends with
    | enter hlast hinside =>
      obtain ⟨rfl, rfl⟩ := Prod.mk.inj (Option.some.inj hnext)
      refine ⟨hworks _ _ (.refl _) (.params hlast hinside), .refl _, ?_⟩
      refine reach_same hreach hj rfl rfl rfl rfl rfl (fun _ => ?_)
      rw [hplace hlast, Worker.place_session hline hlast hpending]
      rfl
    | params hlast hinside =>
      obtain ⟨rfl, rfl⟩ := Prod.mk.inj (Option.some.inj hnext)
      have hcurrent : Current s.pool j ⟨s.pool.call, activeThreads s.pool.nGraph, 0, .running (.head 0)⟩ :=
        ⟨rfl, rfl, hinside, .inr ⟨_, rfl⟩, by simp⟩
      refine ⟨hworks _ _ (.refl _) (.current hlast hcurrent), .refl _, ?_⟩
      refine reach_same hreach hj rfl rfl rfl rfl rfl (fun _ => ?_)
      rw [hplace hlast, Worker.place_session hline hlast hpending]
      rfl
    | @current hlast c hcurrent =>
      obtain ⟨⟨c', pool''⟩, hc', heq⟩ := Option.map_eq_some_iff.mp hnext
      obtain ⟨rfl, rfl⟩ := Prod.mk.inj heq
      have hlt : j < n := hn ▸ hcurrent.inside
      have hbefore : (s.view n).places ⟨j, hlt⟩ = c.place := by
        simp only [State.view, if_neg hj.ne']
        rw [Worker.place_session hline hlast hpending]
        rfl
      obtain ⟨hstep, hcurrent', hkept⟩ :=
        hcurrent.line hn hroom (i := ⟨j, hlt⟩) rfl hbefore rfl rfl rfl hc'
      refine ⟨hworks _ _ hkept (.current (hlast.trans hkept.nGraph.symm) hcurrent'), hkept, ?_⟩
      rw [view_update hj hlt hkept.call hkept.nGraph, hplace hlast]
      rw [hcall] at hstep
      exact hreach.step hstep
    | @stale hlast c hleft =>
      obtain ⟨⟨c', pool''⟩, hc', heq⟩ := Option.map_eq_some_iff.mp hnext
      obtain ⟨rfl, rfl⟩ := Prod.mk.inj heq
      obtain ⟨hleft', rfl⟩ := hleft.line hc'
      refine ⟨hworks _ _ (.refl _) (.stale hlast hleft'), .refl _, ?_⟩
      refine reach_same hreach hj rfl rfl rfl rfl rfl (fun _ => ?_)
      rw [Worker.place_unseen (.inl hlast)]
      exact if_pos (.inl hlast)
  | @returns t hline hnext =>
    have hpending := hw.not_pending hline
    have hloose : Line.Loose (.pauseTest : Line K M) := fun t ht => by cases ht
    refine ⟨⟨hw.last, fun h => ?_, fun t ht => absurd ht (hloose t)⟩, .refl _, ?_⟩
    · rw [hpending] at h
      cases h
    refine reach_same hreach hj rfl rfl rfl rfl rfl (fun _ => ?_)
    rw [Worker.place_loose hloose]
    have hattends := hw.session t hline
    cases hattends with
    | enter hlast hinside => cases hnext
    | params hlast hinside => cases hnext
    | @current hlast c hcurrent =>
      have hplace : ∀ stop, (s.workers j).place s.pool.nGraph stop = c.place := fun stop => by
        rw [Worker.place_session hline hlast hpending]
        rfl
      have hended := hcurrent.ended hcall hn hreach (fun i hi => ?_) (Option.map_eq_none_iff.mp hnext)
      · rw [hplace, hended, if_neg (by simp [hlast, hpending]), hcall]
      · simp only [State.view, hi, if_neg hj.ne', hplace]
    | @stale hlast c hleft => rw [if_pos (.inl hlast), Worker.place_unseen (.inl hlast)]

end Work

section Rest

variable {pool pool' : Fields K M} {ith n : ℕ} {w w' : Worker K M}

/-- While no graph is computed a worker stores to nothing but the mutex. -/
theorem Worker.Rests.moves (h : w.Rests pool ith) (hmoves : Moves pool ith w w' pool') :
    w'.Rests pool' ith ∧ ∃ mutex, pool' = { pool with mutex := mutex } := by
  cases hmoves with
  | @loose line mutex hbefore hafter =>
    exact ⟨⟨h.last, h.seen, h.pending, fun t ht => absurd ht (hafter t)⟩, mutex, rfl⟩
  | @sees line hbefore hafter hnew =>
    have houtside : ¬ith < activeThreads pool.nGraph := fun hlt => hnew (h.seen hlt).symm
    exact ⟨⟨le_rfl, fun _ => rfl, decide_eq_false houtside, fun t ht => absurd ht (hafter t)⟩, pool.mutex, rfl⟩
  | starts hbefore hpending =>
    rw [h.pending] at hpending
    cases hpending
  | @session t t' pool' hline hnext =>
    obtain ⟨c, rfl, hleft⟩ := h.session t hline
    obtain ⟨⟨c', pool''⟩, hc', heq⟩ := Option.map_eq_some_iff.mp hnext
    obtain ⟨rfl, rfl⟩ := Prod.mk.inj heq
    obtain ⟨hleft', rfl⟩ := hleft.line hc'
    refine ⟨⟨h.last, h.seen, h.pending, fun t ht => ?_⟩, pool''.mutex, rfl⟩
    obtain rfl := Line.session.inj ht
    exact ⟨c', rfl, hleft'⟩
  | returns hline hnext =>
    refine ⟨⟨h.last, h.seen, h.pending, fun t ht => ?_⟩, pool.mutex, rfl⟩
    cases ht

theorem Worker.Rests.kept (h : w.Rests pool ith) (hgraph : pool'.nGraph = pool.nGraph)
    (hpassed : pool'.nBarrierPassed = pool.nBarrierPassed) : w.Rests pool' ith :=
  ⟨hgraph ▸ h.last, fun hlt => (h.seen (hgraph ▸ hlt)).trans hgraph.symm, h.pending, fun t ht => hpassed ▸ h.session t ht⟩

theorem Current.left {c : Computing K M} (h : Current pool ith c) {k : ℕ}
    (hseat : GgmlBarrier.seat pool.nBarrierPassed c.place = .running (.done k)) : Left pool.nBarrierPassed c.place := by
  have hloaded := h.loaded
  cases hplace : c.place with
  | running l =>
    rw [hplace] at hseat
    obtain rfl := Seat.running.inj hseat
    exact .done k
  | spin l q =>
    simp only [hplace, GgmlBarrier.seat] at hseat
    split_ifs at hseat with hsame
    obtain rfl := Seat.running.inj hseat
    refine .spin k (Nat.lt_of_le_of_ne (hloaded _ q (.inr hplace)) (fun heq => hsame ?_))
    exact (BitVec.eq_of_toNat_eq heq).symm
  | loadPassed l => simp [hplace, GgmlBarrier.seat] at hseat
  | addBarrier l q => simp [hplace, GgmlBarrier.seat] at hseat
  | storeZero l => simp [hplace, GgmlBarrier.seat] at hseat
  | addPassed l => simp [hplace, GgmlBarrier.seat] at hseat

/-- When all active threads have passed the last barrier, a worker rests. -/
theorem Worker.Works.rests (h : w.Works pool ith) (hn : activeThreads pool.nGraph = n) {stop : ℕ}
    (hdone : ith < n → ∃ k, GgmlBarrier.seat pool.nBarrierPassed (w.place pool.nGraph stop) = .running (.done k)) :
    w.Rests pool ith := by
  have hstarted : ith < n → ¬(w.lastGraph ≠ pool.nGraph ∨ w.pending = true) := fun hlt hunseen => by
    obtain ⟨k, hk⟩ := hdone hlt
    rw [Worker.place_unseen hunseen] at hk
    cases hk
  refine ⟨h.last, fun hlt => ?_, ?_, fun t ht => ?_⟩
  · by_contra hlast
    exact hstarted (hn ▸ hlt) (.inl hlast)
  · by_contra hpending
    have htrue : w.pending = true := by simpa using hpending
    exact hstarted (hn ▸ (h.pending htrue).2.1) (.inr htrue)
  · have hpending := h.not_pending ht
    have hattends := h.session t ht
    cases hattends with
    | enter hlast hinside =>
      obtain ⟨k, hk⟩ := hdone (hn ▸ hinside)
      rw [Worker.place_session ht hlast hpending] at hk
      cases hk
    | params hlast hinside =>
      obtain ⟨k, hk⟩ := hdone (hn ▸ hinside)
      rw [Worker.place_session ht hlast hpending] at hk
      cases hk
    | @current hlast c hcurrent =>
      obtain ⟨k, hk⟩ := hdone (hn ▸ hcurrent.inside)
      rw [Worker.place_session ht hlast hpending] at hk
      exact ⟨c, rfl, hcurrent.left hk⟩
    | @stale hlast c hleft => exact ⟨c, rfl, hleft⟩

/-- A worker that rests works on the next graph from the start. -/
theorem Worker.Rests.works (h : w.Rests pool ith) (hgraph : pool.nGraph < pool'.nGraph)
    (hpassed : pool'.nBarrierPassed = pool.nBarrierPassed) : w.Works pool' ith ∧ w.lastGraph ≠ pool'.nGraph := by
  have hne : w.lastGraph ≠ pool'.nGraph := (h.last.trans_lt hgraph).ne
  refine ⟨⟨(h.last.trans_lt hgraph).le, fun hpending => ?_, fun t ht => ?_⟩, hne⟩
  · rw [h.pending] at hpending
    cases hpending
  · obtain ⟨c, rfl, hleft⟩ := h.session t ht
    exact .stale hne (hpassed ▸ hleft)

end Rest

section Wake

variable {pool : Fields K M} {ith : ℕ} {w : Worker K M}

theorem wake_session (w : Worker K M) (t : Session K M) : w.wake.line = .session t ↔ w.line = .session t := by
  obtain ⟨line, lastGraph, pending⟩ := w
  cases line <;> simp [Worker.wake]

theorem wake_loose (h : w.line.Loose) : w.wake.line.Loose := fun t ht => h t ((wake_session w t).mp ht)

theorem Worker.Works.wake (h : w.Works pool ith) : w.wake.Works pool ith := by
  refine ⟨h.last, fun hpending => ?_, fun t ht => h.session t ((wake_session w t).mp ht)⟩
  obtain ⟨hlast, hinside, hloose⟩ := h.pending hpending
  exact ⟨hlast, hinside, wake_loose hloose⟩

theorem Worker.Rests.wake (h : w.Rests pool ith) : w.wake.Rests pool ith :=
  ⟨h.last, h.seen, h.pending, fun t ht => h.session t ((wake_session w t).mp ht)⟩

theorem place_wake (w : Worker K M) (nGraph stop : ℕ) : w.wake.place nGraph stop = w.place nGraph stop := by
  obtain ⟨line, lastGraph, pending⟩ := w
  cases line <;> rfl

end Wake

end PyannoteCpp.Threadpool
