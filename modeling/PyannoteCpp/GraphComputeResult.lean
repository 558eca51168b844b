import PyannoteCpp.GraphComputeAbort

set_option autoImplicit false

/-!
# What the threads have computed

In every round of the barriers the threads do the work of one crew, so that the
memory at the end is one that the crews leave one after the other.
-/
namespace PyannoteCpp.GraphCompute
open ReachableStates Rendezvous Crews

variable {n : ℕ} {K M : Type*} {nodes : List (Node n K M)} {abortCallback : ℕ → Bool}

def executed (nodes : List (Node n K M)) (abortCallback : ℕ → Bool) : List (Crew n K M) :=
  (nodes.take (stop nodes abortCallback)).flatten

section Crews

theorem getElem?_flatten {α : Type*} {l : List (List α)} {k p : ℕ} {c : α} (h : l[k]?.bind (fun crews => crews[p]?) = some c) :
    l.flatten[(l.take k).flatten.length + p]? = some c := by
  obtain ⟨crews, hk, hp⟩ := Option.bind_eq_some_iff.mp h
  obtain ⟨hlt, hget⟩ := List.getElem?_eq_some_iff.mp hk
  have hsplit : l.flatten = (l.take k).flatten ++ (crews ++ (l.drop (k + 1)).flatten) := by
    rw [← List.flatten_cons, ← hget, ← List.drop_eq_getElem_cons hlt, ← List.flatten_append, List.take_append_drop]
  rw [hsplit, List.getElem?_append_right (Nat.le_add_right _ _), Nat.add_sub_cancel_left,
    List.getElem?_append_left (List.getElem?_eq_some_iff.mp hp).1, hp]

theorem length_executed : (executed nodes abortCallback).length = before nodes (stop nodes abortCallback) := rfl

theorem executed_phase {k p : ℕ} {c : Crew n K M} (hk : k < stop nodes abortCallback) (h : phase nodes k p = some c) :
    (executed nodes abortCallback)[before nodes k + p]? = some c := by
  have hget : (nodes.take (stop nodes abortCallback))[k]? = nodes[k]? := List.getElem?_take_of_lt hk
  have htake : (nodes.take (stop nodes abortCallback)).take k = nodes.take k := by
    rw [List.take_take, Nat.min_eq_left hk.le]
  have hflat := getElem?_flatten (l := nodes.take (stop nodes abortCallback)) (k := k) (p := p) (c := c)
    (by rw [hget]; exact h)
  rwa [htake] at hflat

theorem before_le_behind {k : ℕ} (hk : k ≤ nodes.length) : before nodes k ≤ behind nodes k + 1 := by
  rcases hk.lt_or_eq with hlt | rfl
  · have hbehind : behind nodes k = before nodes k := if_pos hlt
    omega
  · cases hlen : nodes.length with
    | zero =>
      have hnil : nodes = [] := List.length_eq_zero_iff.mp hlen
      subst hnil
      exact Nat.zero_le _
    | succ m =>
      have hnext := behind_succ nodes (show m < nodes.length by omega)
      rw [if_neg (by omega)] at hnext
      rw [hnext, before_succ]
      omega

end Crews

section Share

/-- A thread goes on behind a barrier at the head of the loop or with its next share of the node. -/
def Entry (nodes : List (Node n K M)) (i : Fin n) : Pc K → Prop
  | .head k => k < nodes.length
  | .kernel k p x => ∃ c, phase nodes k p = some c ∧ x = c.start i
  | .callback _ => False
  | .sync _ => False
  | .last _ => False
  | .done _ => True

/-- The thread at this seat is at the place `x` of the crew `c`, whose round is `r`. -/
def Share (nodes : List (Node n K M)) (c : Crew n K M) (r : ℕ) (i : Fin n) (x : K) : Seat (Pc K) → Prop
  | .running (.head k) => (before nodes k = r ∧ x = c.start i) ∨ (before nodes k = r + 1 ∧ c.turn i x = none)
  | .running (.kernel _ _ y) => y = x
  | .running (.callback _) => c.turn i x = none
  | .running (.sync _) => c.turn i x = none
  | .running (.last _) => c.turn i x = none
  | .running (.done _) => False
  | .waiting l => c.turn i x = none ∧ Entry nodes i l

/-- The crews before round `r` have left a memory in which the crew of this round works, if there is one. -/
def Worked (nodes : List (Node n K M)) (abortCallback : ℕ → Bool) (mem : M) (s : Hall n (Pc K) (Shared M)) (r : ℕ) : Prop :=
  ∃ m, LeavesAll ((executed nodes abortCallback).take r) mem m ∧
    (((executed nodes abortCallback).length ≤ r ∧ s.mem.mem = m) ∨
      ∃ c, (executed nodes abortCallback)[r]? = some c ∧ ∃ places,
        Reachable (c.Started m) c.Step ⟨places, s.mem.mem⟩ ∧ ∀ i, Share nodes c r i (places i) (s.seats i))

variable {s u : Hall n (Pc K) (Shared M)} {mem : M} {r : ℕ} {i : Fin n}

theorem LoopInv.crew_eq (h : LoopInv nodes abortCallback s r) {k p : ℕ} {x : K} {c c' : Crew n K M}
    (hseat : s.seats i = .running (.kernel k p x)) (hphase : phase nodes k p = some c')
    (hc : (executed nodes abortCallback)[r]? = some c) : c' = c := by
  have hround : before nodes k + p = r := (h.inRound i).1 _ hseat
  have hexecuted := executed_phase (h.placed.running hseat).1 hphase
  rw [hround, hc] at hexecuted
  exact (Option.some.inj hexecuted).symm

theorem LoopInv.idle (h : LoopInv nodes abortCallback s r) (hr : (executed nodes abortCallback).length ≤ r) {l l' : Pc K}
    {m' : Shared M} (hseat : s.seats i = .running l) (hacts : Acts nodes abortCallback i l s.mem l' m') :
    m'.mem = s.mem.mem := by
  generalize hm : s.mem = m at hacts
  cases hacts with
  | @work node p k _ c run hphase hturn =>
    have hround : before nodes node + p = r := (h.inRound i).1 _ hseat
    have hexecuted := executed_phase (h.placed.running hseat).1 hphase
    rw [hround, List.getElem?_eq_none hr] at hexecuted
    exact nomatch hexecuted
  | into _ _ => rfl
  | leave _ => rfl
  | finish _ _ _ => rfl
  | abort _ _ => rfl
  | ask _ => rfl
  | past _ => rfl

/-- An action of a thread is a turn of the crew or leaves the crew as it is. -/
theorem LoopInv.share (h : LoopInv nodes abortCallback s r) {c : Crew n K M}
    (hc : (executed nodes abortCallback)[r]? = some c) {x : K} {l l' : Pc K} {m' : Shared M}
    (hseat : s.seats i = .running l) (hshare : Share nodes c r i x (.running l))
    (hacts : Acts nodes abortCallback i l s.mem l' m') :
    (m'.mem = s.mem.mem ∧ Share nodes c r i x (.running l')) ∨
      ∃ run, c.turn i x = some run ∧ m'.mem = (run s.mem.mem).2 ∧ Share nodes c r i (run s.mem.mem).1 (.running l') := by
  have hok := h.placed.running hseat
  have hround := (h.inRound i).1 _ hseat
  have hnext := (h.acts hseat hacts).1
  have hr : r < before nodes (stop nodes abortCallback) := by
    rw [← length_executed]
    exact (List.getElem?_eq_some_iff.mp hc).1
  generalize hm : s.mem = m at hacts
  cases hacts with
  | @into node _ hnode _ =>
    have hbehind : before nodes node = r := by
      rw [← hround]
      exact (if_pos hnode).symm
    obtain ⟨-, hx⟩ : before nodes node = r ∧ x = c.start i := by
      rcases hshare with hfirst | ⟨hlater, -⟩
      · exact hfirst
      · omega
    refine .inl ⟨rfl, ?_⟩
    rcases enter_cases nodes i node with ⟨hempty, henter⟩ | ⟨c', hphase, henter⟩
    · rw [henter]
      exact .inl ⟨by rw [before_succ, hempty, Nat.add_zero, hbehind], hx⟩
    · rw [henter] at hnext ⊢
      have hexecuted := executed_phase (p := 0) hnext.1 hphase
      rw [Nat.add_zero, hbehind, hc] at hexecuted
      rw [hx, Option.some.inj hexecuted]
      rfl
  | @leave node _ _ =>
    have hstop : node = stop nodes abortCallback := hnext
    rcases hshare with ⟨hfirst, -⟩ | ⟨-, hfinished⟩
    · rw [hstop] at hfirst
      omega
    · exact .inl ⟨rfl, hfinished⟩
  | @work node p k _ c' run hphase hturn =>
    obtain rfl := h.crew_eq hseat hphase hc
    obtain rfl : k = x := hshare
    exact .inr ⟨run, hturn, rfl, rfl⟩
  | @finish node p k _ c' hphase hturn _ =>
    obtain rfl := h.crew_eq hseat hphase hc
    obtain rfl : k = x := hshare
    exact .inl ⟨rfl, hturn⟩
  | abort _ _ => exact .inl ⟨rfl, hshare⟩
  | ask _ => exact .inl ⟨rfl, hshare⟩
  | @past node _ _ =>
    have hfull := phase_ne_none_iff.mp hok.2
    refine .inl ⟨rfl, .inr ⟨?_, hshare⟩⟩
    rw [before_succ, ← hround, rounds]
    omega

/-- A thread that comes to a barrier has finished its share. -/
theorem LoopInv.share_waits (h : LoopInv nodes abortCallback s r) {c : Crew n K M}
    (hc : (executed nodes abortCallback)[r]? = some c) {x : K} {l next : Pc K} (hseat : s.seats i = .running l)
    (hshare : Share nodes c r i x (.running l)) (hwaits : Waits nodes i l next) : Share nodes c r i x (.waiting next) := by
  cases hwaits with
  | @phase node p k c' c'' hphase hturn hnext =>
    obtain rfl := h.crew_eq hseat hphase hc
    obtain rfl : k = x := hshare
    exact ⟨hturn, c'', hnext, rfl⟩
  | node hnext => exact ⟨hshare, hnext⟩
  | last => exact ⟨hshare, trivial⟩

/-- Behind a barrier every thread is at the start of the next crew. -/
theorem LoopInv.share_release (h : LoopInv nodes abortCallback s r) {c : Crew n K M}
    (hc : (executed nodes abortCallback)[r + 1]? = some c) {l : Pc K} (hseat : s.seats i = .waiting l)
    (hentry : Entry nodes i l) : Share nodes c (r + 1) i (c.start i) (.running l) := by
  have hok := h.placed.waiting hseat
  have hround := (h.inRound i).2 l hseat
  have hr : r + 1 < before nodes (stop nodes abortCallback) := by
    rw [← length_executed]
    exact (List.getElem?_eq_some_iff.mp hc).1
  cases l with
  | head k =>
    have hbehind : behind nodes k = before nodes k := if_pos hentry
    exact .inl ⟨by rw [← hbehind]; exact hround, rfl⟩
  | kernel k p x =>
    obtain ⟨c', hphase, rfl⟩ := hentry
    have hexecuted := executed_phase hok.1 hphase
    have hround' : before nodes k + p = r + 1 := hround
    rw [hround', hc] at hexecuted
    rw [Option.some.inj hexecuted]
    rfl
  | callback k => exact hentry.elim
  | sync k => exact hentry.elim
  | last k => exact hentry.elim
  | done k =>
    have hbehind := before_le_behind (stop_le nodes abortCallback)
    have hround' : behind nodes k + 1 = r + 1 := hround
    rw [show k = stop nodes abortCallback from hok] at hround'
    omega

theorem LoopInv.worked_act (h : LoopInv nodes abortCallback s r) (hw : Worked nodes abortCallback mem s r) {l l' : Pc K}
    {m' : Shared M} (hseat : s.seats i = .running l) (hacts : Acts nodes abortCallback i l s.mem l' m') :
    Worked nodes abortCallback mem ⟨Function.update s.seats i (.running l'), m'⟩ r := by
  obtain ⟨m, hleaves, ⟨hr, hmem⟩ | ⟨c, hc, places, hreach, hshares⟩⟩ := hw
  · exact ⟨m, hleaves, .inl ⟨hr, (h.idle hr hseat hacts).trans hmem⟩⟩
  · have hshare := hshares i
    rw [hseat] at hshare
    refine ⟨m, hleaves, .inr ⟨c, hc, ?_⟩⟩
    rcases h.share hc hseat hshare hacts with ⟨hmem, hnext⟩ | ⟨run, hturn, hmem, hnext⟩
    · refine ⟨places, by rwa [hmem], fun j => ?_⟩
      by_cases hj : j = i
      · subst hj
        simpa only [Function.update_self] using hnext
      · simpa only [Function.update_of_ne hj] using hshares j
    · refine ⟨Function.update places i (run s.mem.mem).1, ?_, fun j => ?_⟩
      · rw [hmem]
        exact hreach.step ⟨run, hturn, rfl⟩
      · by_cases hj : j = i
        · subst hj
          simpa only [Function.update_self] using hnext
        · simpa only [Function.update_of_ne hj] using hshares j

theorem LoopInv.worked_arrive (h : LoopInv nodes abortCallback s r) (hw : Worked nodes abortCallback mem s r)
    {l next : Pc K} (hseat : s.seats i = .running l) (hwaits : Waits nodes i l next) :
    Worked nodes abortCallback mem ⟨Function.update s.seats i (.waiting next), s.mem⟩ r := by
  obtain ⟨m, hleaves, hidle | ⟨c, hc, places, hreach, hshares⟩⟩ := hw
  · exact ⟨m, hleaves, .inl hidle⟩
  · refine ⟨m, hleaves, .inr ⟨c, hc, places, hreach, fun j => ?_⟩⟩
    by_cases hj : j = i
    · subst hj
      have hshare := hshares j
      rw [hseat] at hshare
      simpa only [Function.update_self] using h.share_waits hc hseat hshare hwaits
    · simpa only [Function.update_of_ne hj] using hshares j

theorem LoopInv.worked_release (h : LoopInv nodes abortCallback s r) (hw : Worked nodes abortCallback mem s r)
    {next : Fin n → Pc K} (hall : ∀ i, s.seats i = .waiting (next i)) :
    Worked nodes abortCallback mem ⟨fun i => .running (next i), s.mem⟩ (r + 1) := by
  obtain ⟨m, hleaves, ⟨hr, hmem⟩ | ⟨c, hc, places, hreach, hshares⟩⟩ := hw
  · refine ⟨m, ?_, .inl ⟨by omega, hmem⟩⟩
    rw [List.take_of_length_le hr] at hleaves
    rwa [List.take_of_length_le (by omega)]
  · have hshare : ∀ i, c.turn i (places i) = none ∧ Entry nodes i (next i) := fun i => by
      have hi := hshares i
      rwa [hall i] at hi
    have hall' : LeavesAll ((executed nodes abortCallback).take (r + 1)) mem s.mem.mem := by
      rw [List.take_add_one, hc]
      exact hleaves.snoc ⟨places, hreach, fun i => (hshare i).1⟩
    refine ⟨s.mem.mem, hall', ?_⟩
    cases hnext : (executed nodes abortCallback)[r + 1]? with
    | none => exact .inl ⟨List.getElem?_eq_none_iff.mp hnext, rfl⟩
    | some c' =>
      exact .inr ⟨c', rfl, c'.start, .start rfl, fun i => h.share_release hnext (hall i) (hshare i).2⟩

theorem LoopInv.worked_step (h : LoopInv nodes abortCallback s r) (hw : Worked nodes abortCallback mem s r) {move : Move n}
    (hstep : Rendezvous.Step (graphComputeThread nodes abortCallback) s move u) :
    Worked nodes abortCallback mem u (match move with | .thread _ => r | .release => r + 1) := by
  cases hstep with
  | act hseat hturn => exact h.worked_act hw hseat (act_acts hturn s.mem)
  | arrive hseat hturn => exact h.worked_arrive hw hseat (wait_waits hturn)
  | release hall => exact h.worked_release hw hall

theorem started_worked (h : Rendezvous.Started (fun _ => .head 0) (prepared mem) s) :
    Worked nodes abortCallback mem s 0 := by
  subst h
  refine ⟨mem, .nil mem, ?_⟩
  cases hfirst : (executed nodes abortCallback)[0]? with
  | none => exact .inl ⟨List.getElem?_eq_none_iff.mp hfirst, rfl⟩
  | some c => exact .inr ⟨c, rfl, c.start, .start rfl, fun _ => .inl ⟨rfl, rfl⟩⟩

theorem hall_worked (h : Reachable (Rendezvous.Started (fun _ => .head 0) (prepared mem))
    (Rendezvous.Step (graphComputeThread nodes abortCallback)) s) :
    ∃ r, LoopInv nodes abortCallback s r ∧ Worked nodes abortCallback mem s r :=
  h.invariant (fun s => ∃ r, LoopInv nodes abortCallback s r ∧ Worked nodes abortCallback mem s r)
    (fun _ hs => ⟨0, started_inv rfl hs, started_worked hs⟩)
    (fun _ _ _ hs hstep => hs.elim (fun _ hr => ⟨_, hr.1.step hstep, hr.1.worked_step hr.2 hstep⟩))

end Share

section Pool

variable {s : GgmlBarrier.Pool n (Pc K) (Shared M)} {mem : M}

def kickedOff (mem : M) : GgmlBarrier.Pool n (Pc K) (Shared M) → Prop :=
  GgmlBarrier.Started (fun _ => .head 0) (prepared mem)

theorem pool_worked (hn : 0 < n) (h : Reachable (kickedOff mem) (GgmlBarrier.Step (graphComputeThread nodes abortCallback)) s) :
    ∃ r, LoopInv nodes abortCallback (GgmlBarrier.view s) r ∧ Worked nodes abortCallback mem (GgmlBarrier.view s) r :=
  hall_worked (GgmlBarrier.pool_reachable hn h).2

/-- The threads come to the end unless one of them that need not wait goes on. -/
theorem pool_progress (hn : 0 < n)
    (h : Reachable (kickedOff mem) (GgmlBarrier.Step (graphComputeThread nodes abortCallback)) s) :
    (∀ i, ∃ k, s.places i = .running (.done k)) ∨
      ∃ i, ¬GgmlBarrier.Blocked s i ∧ ∃ u, GgmlBarrier.Step (graphComputeThread nodes abortCallback) s i u := by
  obtain ⟨r, hinv, -⟩ := pool_worked hn h
  by_cases hended : ∀ i, ∃ k, (GgmlBarrier.view s).seats i = .running (.done k)
  · rw [or_iff_not_imp_left]
    intro hleft
    push Not at hleft
    obtain ⟨i, hi⟩ := hleft
    obtain ⟨k, hk⟩ := hended i
    rw [GgmlBarrier.view_seat] at hk
    -- This thread was let go and has not left the barrier.
    have hfree : ¬GgmlBarrier.Blocked s i := by
      rintro ⟨l, hl⟩
      rw [hl, GgmlBarrier.seat, if_pos rfl] at hk
      cases hk
    refine ⟨i, hfree, GgmlBarrier.exists_line (fun l hl => ?_)⟩
    rw [hl] at hk
    rw [Seat.running.inj hk] at hl
    exact absurd hl (hi k)
  · exact .inr ((GgmlBarrier.pool_reachable hn h).1.progress (hinv.moves hended))

/-- Threads inside kernels are inside one kernel, between the same barriers of it, and nobody waits for ever. -/
theorem threads_in_step (hn : 0 < n)
    (h : Reachable (kickedOff mem) (GgmlBarrier.Step (graphComputeThread nodes abortCallback)) s) :
    (∀ i j a b p q x y, s.places i = .running (.kernel a p x) → s.places j = .running (.kernel b q y) → a = b ∧ p = q) ∧
      ((∀ i, ∃ k, s.places i = .running (.done k)) ∨
        ∃ i, ¬GgmlBarrier.Blocked s i ∧ ∃ u, GgmlBarrier.Step (graphComputeThread nodes abortCallback) s i u) := by
  obtain ⟨r, hinv, -⟩ := pool_worked hn h
  have hseat : ∀ i l, s.places i = .running l → (GgmlBarrier.view s).seats i = .running l := fun i l hl => by
    rw [GgmlBarrier.view_seat, hl]
    rfl
  exact ⟨fun i j a b p q x y hi hj => hinv.together (hseat i _ hi) (hseat j _ hj), pool_progress hn h⟩

/-- When the first thread has passed the last barrier, the memory is what the crews of the executed nodes leave one
after the other. -/
theorem first_leaves (hn : 0 < n)
    (h : Reachable (kickedOff mem) (GgmlBarrier.Step (graphComputeThread nodes abortCallback)) s) {k : ℕ}
    (hfirst : (GgmlBarrier.view s).seats ⟨0, hn⟩ = .running (.done k)) :
    LeavesAll (executed nodes abortCallback) mem s.mem.mem ∧
      (s.mem.ec = .aborted ↔ ∃ node, Aborts nodes abortCallback node) := by
  obtain ⟨r, hinv, hworked⟩ := pool_worked hn h
  have hround : behind nodes k + 1 = r := (hinv.inRound _).1 _ hfirst
  have hstop : k = stop nodes abortCallback := hinv.placed.running hfirst
  have hr : (executed nodes abortCallback).length ≤ r := by
    rw [length_executed, ← hround, hstop]
    exact before_le_behind (stop_le nodes abortCallback)
  refine ⟨?_, fun hec => ?_, fun ⟨node, haborts⟩ => ?_⟩
  · obtain ⟨m, hleaves, ⟨-, hmem⟩ | ⟨c, hc, -⟩⟩ := hworked
    · rw [List.take_of_length_le hr, ← hmem] at hleaves
      exact hleaves
    · rw [List.getElem?_eq_none hr] at hc
      exact nomatch hc
  · rcases hinv.flag with ⟨-, hsuccess⟩ | ⟨-, -, haborts⟩
    · exact nomatch hec.symm.trans hsuccess
    · exact haborts
  · rcases stop_cases nodes abortCallback with ⟨first, hfirstStop, hfirstAborts, -⟩ | ⟨-, hnone⟩
    · have hset := hinv.told first hfirstStop hfirstAborts ⟨0, hn⟩ rfl (by rw [hfirst]; exact id)
      rcases hinv.flag with ⟨hminus, -⟩ | ⟨-, haborted, -⟩
      · omega
      · exact haborted
    · exact absurd haborts (hnone node)

/-- When all threads have left, the memory is what the crews of the executed nodes leave one after the other. -/
theorem compute_leaves (hn : 0 < n)
    (h : Reachable (kickedOff mem) (GgmlBarrier.Step (graphComputeThread nodes abortCallback)) s)
    (hdone : ∀ i, ∃ k, s.places i = .running (.done k)) :
    LeavesAll (executed nodes abortCallback) mem s.mem.mem ∧
      (s.mem.ec = .aborted ↔ ∃ node, Aborts nodes abortCallback node) := by
  obtain ⟨k, hk⟩ := hdone ⟨0, hn⟩
  apply first_leaves hn h (k := k)
  rw [GgmlBarrier.view_seat, hk]
  rfl

def adders : List (Node 2 Bool ℕ) :=
  [[], [⟨fun _ => false, fun _ added => if added then none else some (fun m => (true, m + 1))⟩]]

def addersPool : GgmlBarrier.Pool 2 (Pc Bool) (Shared ℕ) := ⟨0, 0, fun _ => .running (.head 0), prepared 5⟩

def thread₀ : Fin 2 := ⟨0, Nat.two_pos⟩

def thread₁ : Fin 2 := ⟨1, Nat.one_lt_two⟩

/-- The first thread is the first at the barrier; the second one lets it go. -/
def addersSchedule : List (Fin 2) :=
  [thread₀, thread₀, thread₁, thread₁, thread₀, thread₁] ++ List.replicate 7 thread₀ ++ List.replicate 9 thread₁ ++ [thread₀]

theorem adders_run : ∃ s, Reachable (kickedOff 5) (GgmlBarrier.Step (graphComputeThread adders fun _ => true)) s ∧
    (∀ i, s.places i = .running (.done 2)) ∧ s.mem = ⟨7, 2, .aborted⟩ := by
  have hstart : kickedOff 5 addersPool := ⟨rfl, rfl, rfl⟩
  have hrun : ∃ s, addersSchedule.foldlM (GgmlBarrier.step (graphComputeThread adders fun _ => true)) addersPool = some s ∧
      s.places 0 = .running (.done 2) ∧ s.places 1 = .running (.done 2) ∧ s.mem = ⟨7, 2, .aborted⟩ :=
    ⟨_, rfl, rfl, rfl, rfl⟩
  obtain ⟨s, hs, hzero, hone, hmem⟩ := hrun
  exact ⟨s, Reachable.foldlM (fun _ _ _ => id) (.start hstart) hs, fun i => by fin_cases i <;> assumption, hmem⟩

/-- The second thread is about to add its one when the first has added its own. -/
theorem adders_inside : ∃ s, Reachable (kickedOff 5) (GgmlBarrier.Step (graphComputeThread adders fun _ => true)) s ∧
    s.places thread₀ = .running (.kernel 1 0 true) ∧ s.places thread₁ = .running (.kernel 1 0 false) := by
  have hstart : kickedOff 5 addersPool := ⟨rfl, rfl, rfl⟩
  have hrun : ∃ s, [thread₀, thread₁, thread₀, thread₁, thread₀].foldlM
      (GgmlBarrier.step (graphComputeThread adders fun _ => true)) addersPool = some s ∧
      s.places thread₀ = .running (.kernel 1 0 true) ∧ s.places thread₁ = .running (.kernel 1 0 false) :=
    ⟨_, rfl, rfl, rfl⟩
  obtain ⟨s, hs, hplaces⟩ := hrun
  exact ⟨s, Reachable.foldlM (fun _ _ _ => id) (.start hstart) hs, hplaces⟩

theorem threads_in_step_adders : ∃ s, Reachable (kickedOff 5) (GgmlBarrier.Step (graphComputeThread adders fun _ => true)) s ∧
    (s.places thread₀ = .running (.kernel 1 0 true) ∧ s.places thread₁ = .running (.kernel 1 0 false)) ∧
    (∀ i j a b p q x y, s.places i = .running (.kernel a p x) → s.places j = .running (.kernel b q y) → a = b ∧ p = q) ∧
    ((∀ i, ∃ k, s.places i = .running (.done k)) ∨
      ∃ i, ¬GgmlBarrier.Blocked s i ∧ ∃ u, GgmlBarrier.Step (graphComputeThread adders fun _ => true) s i u) := by
  obtain ⟨s, hreach, hinside⟩ := adders_inside
  exact ⟨s, hreach, hinside, threads_in_step (by decide) hreach⟩

theorem compute_leaves_adders :
    LeavesAll (executed adders fun _ => true) 5 7 ∧ ∃ node, Aborts adders (fun _ => true) node := by
  obtain ⟨s, hreach, hdone, hmem⟩ := adders_run
  have hresult := compute_leaves (by decide) hreach (fun i => ⟨2, hdone i⟩)
  rw [hmem] at hresult
  exact ⟨hresult.1, hresult.2.mp rfl⟩

end Pool

end PyannoteCpp.GraphCompute
