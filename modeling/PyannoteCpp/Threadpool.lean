import PyannoteCpp.GraphComputeResult

set_option autoImplicit false

/-!
# The threads of a pool

The build without OpenMP, on POSIX, where a shared lock is the mutex itself. The thread
of the caller hands graphs to the workers of a `ggml_threadpool` and computes with
them. Between two graphs the workers poll, sleep on the condition variable or are
paused. Each load, each store and each operation on the mutex is a step of its own,
in one order that all threads see.
-/
namespace PyannoteCpp.Threadpool
open Crews GraphCompute Rendezvous

variable {K M : Type*}

/-- A graph and its plan; the kernels share out their work for any number of threads. -/
structure Call (K M : Type*) where
  nThreads : ℕ
  nodes : (n : ℕ) → List (Node n K M)
  abortCallback : ℕ → Bool
  nThreads_pos : 0 < nThreads

/-- A thread in `ggml_graph_compute_thread`, with `params.nth` and with the number of threads that `ggml_barrier` has
loaded. -/
structure Computing (K M : Type*) where
  call : Call K M
  nth : ℕ
  nThreads : ℕ
  place : GgmlBarrier.Place (Pc K)

inductive Session (K M : Type*) where
  | enter
  | params (call : Call K M)
  | compute (c : Computing K M)

/-- The lines of `ggml_graph_compute_secondary_thread`. The tests of `ggml_graph_compute_thread_ready` come twice: in
round `i` of the polling and with the mutex held. -/
inductive Line (K M : Type*) where
  | pauseTest
  | lockPause
  | pauseTestLocked
  | sleepPause
  | wakePause
  | unlockPause
  | stopTest
  | pollStop (i : ℕ)
  | pollPause (i : ℕ)
  | pollGraph (i : ℕ)
  | lockWork
  | readyStop
  | readyPause
  | readyGraph
  | sleepWork
  | wakeWork
  | unlockWork
  | pendingTest
  | session (t : Session K M)
  | ended

structure Worker (K M : Type*) where
  line : Line K M
  lastGraph : ℕ
  pending : Bool

/-- The fields that the threads share. The mutex is held by the thread of that number; `call` stands for `cgraph` and
`cplan`, and `shared` has the tensors and the fields `abort` and `ec`. -/
structure Fields (K M : Type*) where
  mutex : Option ℕ
  nGraph : ℕ
  nBarrier : ℕ
  nBarrierPassed : BitVec 32
  stop : Bool
  pause : Bool
  call : Call K M
  shared : Shared M

section Graph

def activeThreads (nGraph : ℕ) : ℕ := nGraph &&& 0xffff

/-- The count of the next graph, with its threads in the lower bits. -/
def nextGraph (nGraph nThreads : ℕ) : ℕ := (((nGraph >>> 16) + 1) <<< 16) ||| (nThreads &&& 0xffff)

end Graph

section Lines

variable (pool : Fields K M) (ith : ℕ)

def Computing.turn (c : Computing K M) (l : Pc K) : Turn (Pc K) (Shared M) :=
  if h : ith < c.nth then graphComputeThread (c.call.nodes c.nth) c.call.abortCallback ⟨ith, h⟩ l else .halt

/-- The next line of a thread in its graph or in a barrier of it; none when it has passed the last barrier. -/
def Computing.line (c : Computing K M) : Option (Computing K M × Fields K M) :=
  match c.place with
  | .running l => match c.turn ith l with
    | .act run => some ({ c with place := .running (run pool.shared).1 }, { pool with shared := (run pool.shared).2 })
    | .wait next =>
      let nThreads := activeThreads pool.nGraph
      some ({ c with nThreads := nThreads, place := if nThreads = 1 then .running next else .loadPassed next }, pool)
    | .halt => none
  | .loadPassed l => some ({ c with place := .addBarrier l pool.nBarrierPassed }, pool)
  | .addBarrier l nPassed =>
    some ({ c with place := if pool.nBarrier = c.nThreads - 1 then .storeZero l else .spin l nPassed },
      { pool with nBarrier := pool.nBarrier + 1 })
  | .storeZero l => some ({ c with place := .addPassed l }, { pool with nBarrier := 0 })
  | .addPassed l => some ({ c with place := .running l }, { pool with nBarrierPassed := pool.nBarrierPassed + 1 })
  | .spin l nPassed => some (if pool.nBarrierPassed = nPassed then c else { c with place := .running l }, pool)

/-- The next line of thread `ith` in `ggml_graph_compute_thread`; none when it returns. -/
def Session.line : Session K M → Option (Session K M × Fields K M)
  | .enter => some (.params pool.call, pool)
  | .params call => some (.compute ⟨call, activeThreads pool.nGraph, 0, .running (.head 0)⟩, pool)
  | .compute c => (c.line pool ith).map (fun next => (.compute next.1, next.2))

variable (nRounds : ℕ)

/-- Behind the polling loop a worker with work skips the mutex. -/
def Worker.polled (w : Worker K M) : Worker K M := { w with line := if w.pending then .pendingTest else .lockWork }

def Worker.sees (w : Worker K M) : Worker K M :=
  { w with pending := ith < activeThreads pool.nGraph, lastGraph := pool.nGraph }

/-- The next line of worker `ith`; none when it sleeps, waits for the mutex or has ended. -/
def Worker.step (w : Worker K M) : Option (Worker K M × Fields K M) :=
  match w.line with
  | .pauseTest => some ({ w with line := if pool.pause then .lockPause else .stopTest }, pool)
  | .lockPause =>
    if pool.mutex = none then some ({ w with line := .pauseTestLocked }, { pool with mutex := some ith }) else none
  | .pauseTestLocked =>
    if pool.pause then some ({ w with line := .sleepPause }, { pool with mutex := none })
    else some ({ w with line := .unlockPause }, pool)
  | .sleepPause => none
  | .wakePause => if pool.mutex = none then some ({ w with line := .unlockPause }, { pool with mutex := some ith }) else none
  | .unlockPause => some ({ w with line := .pauseTest }, { pool with mutex := none })
  | .stopTest => some ({ w with line := if pool.stop then .ended else .pollStop 0 }, pool)
  | .pollStop i => some (if w.pending || pool.stop then w.polled else { w with line := .pollPause i }, pool)
  | .pollPause i => some (if pool.pause then w.polled else { w with line := .pollGraph i }, pool)
  | .pollGraph i =>
    if pool.nGraph ≠ w.lastGraph then some ((w.sees pool ith).polled, pool)
    else some (if i < nRounds then { w with line := .pollStop (i + 1) } else w.polled, pool)
  | .lockWork => if pool.mutex = none then some ({ w with line := .readyStop }, { pool with mutex := some ith }) else none
  | .readyStop => some ({ w with line := if w.pending || pool.stop then .unlockWork else .readyPause }, pool)
  | .readyPause => some ({ w with line := if pool.pause then .unlockWork else .readyGraph }, pool)
  | .readyGraph =>
    if pool.nGraph ≠ w.lastGraph then some ({ w.sees pool ith with line := .unlockWork }, pool)
    else some ({ w with line := .sleepWork }, { pool with mutex := none })
  | .sleepWork => none
  | .wakeWork => if pool.mutex = none then some ({ w with line := .readyStop }, { pool with mutex := some ith }) else none
  | .unlockWork => some ({ w with line := .pendingTest }, { pool with mutex := none })
  | .pendingTest =>
    some (if w.pending then { w with line := .session .enter, pending := false } else { w with line := .pauseTest }, pool)
  | .session t => match t.line pool ith with
    | some (t', pool') => some ({ w with line := .session t' }, pool')
    | none => some ({ w with line := .pauseTest }, pool)
  | .ended => none

/-- A signal or a spurious wake-up. -/
def Worker.wake (w : Worker K M) : Worker K M :=
  { w with line := match w.line with
      | .sleepPause => .wakePause
      | .sleepWork => .wakeWork
      | l => l }

end Lines

/-- What the caller does with the mutex held. -/
inductive Section where
  | kickoff (nThreads : ℕ)
  | pause
  | resume
  | free

inductive Act where
  | storeGraph (nThreads : ℕ)
  | storePause (b : Bool)
  | storeStop
  | broadcast
  deriving DecidableEq

/-- The tests of `pause` are made when the mutex is taken: only the caller stores to it. -/
def Section.acts (paused : Bool) : Section → List Act
  | .kickoff nThreads => .storeGraph nThreads :: if paused then [.storePause false, .broadcast] else [.broadcast]
  | .pause => if paused then [] else [.storePause true, .broadcast]
  | .resume => if paused then [.storePause false, .broadcast] else []
  | .free => [.storeStop, .storePause false, .broadcast]

def Act.run (pool : Fields K M) : Act → Fields K M
  | .storeGraph nThreads => { pool with nGraph := nextGraph pool.nGraph nThreads }
  | .storePause b => { pool with pause := b }
  | .storeStop => { pool with stop := true }
  | .broadcast => pool

inductive Caller (K M : Type*) where
  | idle
  | locking (sec : Section)
  | holding (sec : Section) (acts : List Act)
  | session (t : Session K M)
  | joining (j : ℕ)
  | freed

/-- Behind the section the caller computes too, goes back or waits for the workers. -/
def Section.next : Section → Caller K M
  | .kickoff _ => .session .enter
  | .pause => .idle
  | .resume => .idle
  | .free => .joining 1

structure State (K M : Type*) where
  pool : Fields K M
  caller : Caller K M
  workers : ℕ → Worker K M
  /-- The graphs computed so far and what the calls have returned. -/
  returned : List (Call K M × Status)

/-- The parameters of the pool; thread 0 is the caller. `resetChunk` clears `current_chunk`. -/
structure Params (M : Type*) where
  nThreads : ℕ
  nRounds : ℕ
  resetChunk : M → M
  nThreads_pos : 0 < nThreads
  nThreads_lt : nThreads < 2 ^ 16

/-- A thread goes on, the caller begins something, or a worker wakes up without a signal. -/
inductive Input (K M : Type*) where
  | compute (call : Call K M)
  | operate (sec : Section)
  | caller
  | worker (j : ℕ)
  | spurious (j : ℕ)

section Steps

variable (p : Params M)

def Params.threads (call : Call K M) : ℕ := min call.nThreads p.nThreads

def State.callerStep (s : State K M) : Option (State K M) :=
  match s.caller with
  | .idle => none
  | .locking sec =>
    if s.pool.mutex = none then
      some { s with pool := { s.pool with mutex := some 0 }, caller := .holding sec (sec.acts s.pool.pause) }
    else none
  | .holding sec (a :: acts) =>
    some { s with
      pool := a.run s.pool
      caller := .holding sec acts
      workers := if a = .broadcast then fun j => (s.workers j).wake else s.workers }
  | .holding sec [] => some { s with pool := { s.pool with mutex := none }, caller := sec.next }
  | .session t => match t.line s.pool 0 with
    | some (t', pool) => some { s with pool := pool, caller := .session t' }
    | none => some { s with caller := .idle, returned := s.returned ++ [(s.pool.call, s.pool.shared.ec)] }
  | .joining j =>
    if j < p.nThreads then
      match (s.workers j).line with
      | .ended => some { s with caller := .joining (j + 1) }
      | _ => none
    else some { s with caller := .freed }
  | .freed => none

def State.step (s : State K M) : Input K M → Option (State K M)
  | .compute call => match s.caller with
    | .idle => some { s with
        pool := { s.pool with call := call, shared := prepared (p.resetChunk s.pool.shared.mem) }
        caller := .locking (.kickoff (p.threads call)) }
    | _ => none
  | .operate sec => match s.caller, sec with
    | _, .kickoff _ => none
    | .idle, sec => some { s with caller := .locking sec }
    | _, _ => none
  | .caller => s.callerStep p
  | .worker j =>
    if 0 < j ∧ j < p.nThreads then
      ((s.workers j).step s.pool j p.nRounds).map (fun next =>
        { s with pool := next.2, workers := Function.update s.workers j next.1 })
    else none
  | .spurious j => some { s with workers := Function.update s.workers j (s.workers j).wake }

def Step (s : State K M) (i : Input K M) (u : State K M) : Prop := s.step p i = some u

/-- As `ggml_threadpool_new` leaves it, paused or not; nobody reads the graph before there is one. -/
structure Created (mem : M) (s : State K M) : Prop where
  mutex : s.pool.mutex = none
  nGraph : s.pool.nGraph = 0
  nBarrier : s.pool.nBarrier = 0
  nBarrierPassed : s.pool.nBarrierPassed = 0
  stop : s.pool.stop = false
  mem : s.pool.shared.mem = mem
  caller : s.caller = .idle
  workers : s.workers = fun _ => ⟨.pauseTest, 0, false⟩
  returned : s.returned = []

/-- The counters are below the ends of their types. -/
structure Fits (s : State K M) : Prop where
  graphs : s.pool.nGraph >>> 16 + 1 < 2 ^ 15
  barriers : s.pool.nBarrierPassed ≠ BitVec.allOnes 32

end Steps

end PyannoteCpp.Threadpool
