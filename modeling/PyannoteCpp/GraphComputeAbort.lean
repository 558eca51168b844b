import PyannoteCpp.GraphCompute

set_option autoImplicit false

/-!
# All threads leave the loop at one node

The first thread stores the number of the next node before it comes to the
barrier, so the others see it when they come to that node. None of them waits
at a barrier that another one has not before it.
-/
namespace PyannoteCpp.GraphCompute
open ReachableStates Rendezvous Crews

variable {n : ℕ} {K M : Type*} {nodes : List (Node n K M)} {abortCallback : ℕ → Bool}

def Pending (node : ℕ) : Pc K → Prop
  | .head k => k ≤ node
  | .kernel k _ _ => k ≤ node
  | .callback k => k ≤ node
  | .sync k => k < node
  | .last _ => False
  | .done _ => False

structure LoopInv (nodes : List (Node n K M)) (abortCallback : ℕ → Bool) (s : Hall n (Pc K) (Shared M)) (r : ℕ) :
    Prop where
  placed : Placed (Ok nodes abortCallback) s
  inRound : InRound (rounds nodes) s r
  flag : (s.mem.abort = -1 ∧ s.mem.ec = .success) ∨
    (s.mem.abort = stop nodes abortCallback ∧ s.mem.ec = .aborted ∧ ∃ node, Aborts nodes abortCallback node)
  told : ∀ node, stop nodes abortCallback = node + 1 → Aborts nodes abortCallback node →
    ∀ i : Fin n, i.val = 0 → ¬Pending node (s.seats i).place → s.mem.abort = stop nodes abortCallback

section Invariant

variable {s u : Hall n (Pc K) (Shared M)} {r : ℕ} {i : Fin n}

theorem pending_rounds {node : ℕ} (hnode : node + 1 < nodes.length) (haborts : phase nodes node 0 ≠ none) {l : Pc K}
    (hok : Ok nodes abortCallback i l) (h : Pending node l) : rounds nodes i l < before nodes (node + 1) := by
  have hfull := phase_ne_none_iff.mp haborts
  have hcrew : ∀ k p, k ≤ node → p < phases nodes k → before nodes k + p < before nodes (node + 1) := fun k p hk hp => by
    have hmono := before_mono nodes (Nat.succ_le_succ hk)
    rw [Nat.succ_eq_add_one, Nat.succ_eq_add_one, before_succ] at hmono
    omega
  cases l with
  | head k =>
    have hbehind : behind nodes k = before nodes k := if_pos (Nat.lt_of_le_of_lt h (by omega))
    have hmono := before_mono nodes (show k ≤ node from h)
    rw [rounds, hbehind, before_succ]
    omega
  | kernel k p x => exact hcrew k p h (phase_ne_none_iff.mp hok.2)
  | callback k =>
    have hp := phase_ne_none_iff.mp hok.2
    exact hcrew k _ h (by omega)
  | sync k =>
    have hp := phase_ne_none_iff.mp hok.2
    exact hcrew k _ (Nat.le_of_lt h) (by omega)
  | last k => exact h.elim
  | done k => exact h.elim

/-- A thread that comes to the node after which the graph was aborted finds its number stored. -/
theorem LoopInv.stored (h : LoopInv nodes abortCallback s r) {node : ℕ} (hseat : s.seats i = .running (.head node))
    (hstop : node = stop nodes abortCallback) (hlen : node < nodes.length) : s.mem.abort = node := by
  rcases stop_cases nodes abortCallback with ⟨c, hc, haborts, -⟩ | ⟨hend, -⟩
  · have hround := (h.inRound i).1 _ hseat
    have hbehind : behind nodes node = before nodes (c + 1) := by
      rw [hstop, hc]
      exact if_pos (by omega)
    rw [rounds, hbehind] at hround
    let first : Fin n := ⟨0, Nat.zero_lt_of_lt i.isLt⟩
    rw [h.told c hc haborts first rfl (fun hpending => ?_), hstop]
    cases hfirst : s.seats first with
    | running l =>
      rw [hfirst] at hpending
      have hlt := pending_rounds (by omega) haborts.1 (h.placed.running hfirst) hpending
      have hsame := (h.inRound first).1 l hfirst
      omega
    | waiting l =>
      rw [hfirst] at hpending
      have hlt := pending_rounds (by omega) haborts.1 (h.placed.waiting hfirst) hpending
      have hsame := (h.inRound first).2 l hfirst
      omega
  · omega

/-- The next place of a thread is one of the loop, and the flag is set by the first thread only. -/
theorem LoopInv.acts (h : LoopInv nodes abortCallback s r) {l l' : Pc K} {m' : Shared M}
    (hseat : s.seats i = .running l) (hacts : Acts nodes abortCallback i l s.mem l' m') :
    Ok nodes abortCallback i l' ∧
      ((m'.abort = s.mem.abort ∧ m'.ec = s.mem.ec) ∨
        (i.val = 0 ∧ m'.abort = stop nodes abortCallback ∧ m'.ec = .aborted ∧ ∃ node, Aborts nodes abortCallback node)) ∧
      (∀ node, stop nodes abortCallback = node + 1 → Aborts nodes abortCallback node → i.val = 0 → ¬Pending node l' →
        ¬Pending node l ∨ m'.abort = stop nodes abortCallback) := by
  have hok := h.placed.running hseat
  have hlen := stop_le nodes abortCallback
  generalize hm : s.mem = m at hacts
  cases hacts with
  | @into node _ hnode habort =>
    have hle : node ≤ stop nodes abortCallback := hok
    have hlt : node < stop nodes abortCallback := by
      refine Nat.lt_of_le_of_ne hle (fun hstop => habort ?_)
      rw [← hm]
      exact h.stored hseat hstop hnode
    rcases enter_cases nodes i node with ⟨hempty, henter⟩ | ⟨c, hphase, henter⟩
    · rw [henter]
      refine ⟨hlt, .inl ⟨rfl, rfl⟩, fun node' _ haborts _ hpast => .inl (fun hpending => hpast ?_)⟩
      -- The node is empty, so it is not the one after which the graph is aborted.
      have hne : node ≠ node' := by
        rintro rfl
        have hfull := phase_ne_none_iff.mp haborts.1
        omega
      exact Nat.lt_of_le_of_ne hpending hne
    · rw [henter]
      refine ⟨⟨hlt, by rw [hphase]; exact Option.some_ne_none c⟩, .inl ⟨rfl, rfl⟩, fun _ _ _ _ hpast => .inl hpast⟩
  | @leave node _ hexit =>
    have hle : node ≤ stop nodes abortCallback := hok
    have hstop : node = stop nodes abortCallback := by
      by_cases hnode : node < nodes.length
      · have habort : s.mem.abort = node := by
          by_contra hne
          exact hexit ⟨hnode, hm ▸ hne⟩
        rcases h.flag with ⟨hminus, -⟩ | ⟨hset, -⟩ <;> omega
      · omega
    refine ⟨hstop, .inl ⟨rfl, rfl⟩, fun node' hstop' _ _ _ => .inl (fun hpending => ?_)⟩
    have hle' : node ≤ node' := hpending
    omega
  | work _ _ => exact ⟨hok, .inl ⟨rfl, rfl⟩, fun _ _ _ _ hpast => .inl hpast⟩
  | finish _ _ _ =>
    have hp := phase_ne_none_iff.mp hok.2
    exact ⟨⟨hok.1, phase_ne_none_iff.mpr (by omega)⟩, .inl ⟨rfl, rfl⟩, fun _ _ _ _ hpast => .inl hpast⟩
  | @abort node _ hfirst hanswer =>
    have haborts : Aborts nodes abortCallback node := ⟨hok.2, hanswer⟩
    have hstop := aborts_stop hok.1 haborts
    have habort : ((node + 1 : ℕ) : ℤ) = (stop nodes abortCallback : ℕ) := by rw [hstop]
    refine ⟨hok, .inr ⟨hfirst, ?_, rfl, node, haborts⟩, fun _ _ _ _ _ => .inr ?_⟩
    · rw [← habort]
      push_cast
      rfl
    · rw [← habort]
      push_cast
      rfl
  | @ask node _ hanswer =>
    refine ⟨hok, .inl ⟨rfl, rfl⟩, fun node' _ haborts hfirst hpast => .inl (fun hpending => hpast ?_)⟩
    have hne : node ≠ node' := fun heq => hanswer ⟨hfirst, heq ▸ haborts.2⟩
    exact Nat.lt_of_le_of_ne hpending hne
  | past _ => exact ⟨hok.1, .inl ⟨rfl, rfl⟩, fun _ _ _ _ hpast => .inl hpast⟩

theorem waits_ok {l next : Pc K} (hok : Ok nodes abortCallback i l) (hwaits : Waits nodes i l next) :
    Ok nodes abortCallback i next ∧ ∀ node, Pending node l → Pending node next := by
  cases hwaits with
  | phase hphase hturn hnext => exact ⟨⟨hok.1, by rw [hnext]; exact Option.some_ne_none _⟩, fun _ hp => hp⟩
  | node hnext => exact ⟨hok.1, fun _ hp => hp⟩
  | last => exact ⟨hok, fun _ hp => hp.elim⟩

theorem LoopInv.step (h : LoopInv nodes abortCallback s r) {move : Move n}
    (hstep : Rendezvous.Step (graphComputeThread nodes abortCallback) s move u) :
    LoopInv nodes abortCallback u (match move with | .thread _ => r | .release => r + 1) := by
  have hround := h.inRound.step counts h.placed hstep
  cases hstep with
  | @act i l run hseat hturn =>
    obtain ⟨hok, hflag, htold⟩ := h.acts hseat (act_acts hturn s.mem)
    refine ⟨h.placed.update hok, hround, ?_, fun node hstop haborts j hj hpast => ?_⟩
    · rcases hflag with ⟨habort, hec⟩ | ⟨-, habort, hec, haborts⟩
      · dsimp only
        rw [habort, hec]
        exact h.flag
      · exact .inr ⟨habort, hec, haborts⟩
    · by_cases hji : j = i
      · subst hji
        simp only [Function.update_self] at hpast
        rcases htold node hstop haborts hj hpast with hbefore | hset
        · rcases hflag with ⟨habort, -⟩ | ⟨-, habort, -⟩
          · exact habort.trans (h.told node hstop haborts j hj (by rw [hseat]; exact hbefore))
          · exact habort
        · exact hset
      · simp only [Function.update_of_ne hji] at hpast
        rcases hflag with ⟨habort, -⟩ | ⟨-, habort, -⟩
        · exact habort.trans (h.told node hstop haborts j hj hpast)
        · exact habort
  | @arrive i l next hseat hturn =>
    obtain ⟨hok, hpending⟩ := waits_ok (h.placed.running hseat) (wait_waits hturn)
    refine ⟨h.placed.update hok, hround, h.flag, fun node hstop haborts j hj hpast => ?_⟩
    refine h.told node hstop haborts j hj (fun hbefore => ?_)
    by_cases hji : j = i
    · subst hji
      rw [hseat] at hbefore
      simp only [Function.update_self] at hpast
      exact hpast (hpending node hbefore)
    · simp only [Function.update_of_ne hji] at hpast
      exact hpast hbefore
  | @release next hall =>
    refine ⟨fun j => ?_, hround, h.flag, fun node hstop haborts j hj hpast => ?_⟩
    · have hplace := h.placed j
      rwa [hall j] at hplace
    · refine h.told node hstop haborts j hj (fun hbefore => hpast ?_)
      rwa [hall j] at hbefore

end Invariant

section Runs

variable {s : Hall n (Pc K) (Shared M)} {mem : M} {i j : Fin n}

def prepared (mem : M) : Shared M := ⟨mem, -1, .success⟩

theorem started_inv {first : Fin n → Pc K} (hfirst : first = fun _ => .head 0)
    (h : Rendezvous.Started first (prepared mem) s) : LoopInv nodes abortCallback s 0 := by
  subst hfirst
  have hzero : behind nodes 0 = 0 := by
    unfold behind before
    split_ifs with hlen
    · rfl
    · have hnil : nodes = [] := List.length_eq_zero_iff.mp (by omega)
      subst hnil
      rfl
  have hround : InRound (rounds nodes) s 0 := by
    refine started_inRound (fun _ => ?_) h
    exact hzero
  subst h
  exact ⟨fun _ => Nat.zero_le _, hround, .inl ⟨rfl, rfl⟩, fun node _ _ _ _ hpast => absurd (Nat.zero_le node) hpast⟩

/-- Two threads inside kernels are inside the same one and have the same barriers of it behind them. -/
theorem LoopInv.together {r : ℕ} (h : LoopInv nodes abortCallback s r) {a b p q : ℕ} {x y : K}
    (hi : s.seats i = .running (.kernel a p x)) (hj : s.seats j = .running (.kernel b q y)) : a = b ∧ p = q := by
  have hp := phase_ne_none_iff.mp (h.placed.running hi).2
  have hq := phase_ne_none_iff.mp (h.placed.running hj).2
  exact round_inj hp hq (((h.inRound i).1 _ hi).trans ((h.inRound j).1 _ hj).symm)

variable (nodes) in
theorem behind_le_succ {node : ℕ} (h : node < nodes.length) :
    behind nodes node ≤ behind nodes (node + 1) ∧ before nodes node + (phases nodes node - 1) ≤ behind nodes (node + 1) := by
  have hbehind : behind nodes node = before nodes node := if_pos h
  rw [behind_succ nodes h, hbehind, before_succ]
  split_ifs <;> omega

variable (nodes) in
theorem behind_mono {node node' : ℕ} (h : node ≤ node') (hlen : node' ≤ nodes.length) :
    behind nodes node ≤ behind nodes node' := by
  induction h with
  | refl => exact le_rfl
  | @step k _ ih => exact (ih (by omega)).trans (behind_le_succ nodes (by omega)).1

theorem rounds_le_behind {l : Pc K} (hok : Ok nodes abortCallback i l) (hend : ∀ k, l ≠ .done k) :
    rounds nodes i l ≤ behind nodes (stop nodes abortCallback) := by
  have hlen := stop_le nodes abortCallback
  have hcrew : ∀ k p, k < stop nodes abortCallback → p < phases nodes k →
      before nodes k + p ≤ behind nodes (stop nodes abortCallback) := fun k p hk hp => by
    have hnext := (behind_le_succ nodes (show k < nodes.length by omega)).2
    have hmono := behind_mono nodes (Nat.succ_le_of_lt hk) hlen
    rw [Nat.succ_eq_add_one] at hmono
    omega
  cases l with
  | head k => exact behind_mono nodes hok hlen
  | kernel k p x => exact hcrew k p hok.1 (phase_ne_none_iff.mp hok.2)
  | callback k =>
    have hp := phase_ne_none_iff.mp hok.2
    exact hcrew k _ hok.1 (by omega)
  | sync k =>
    have hp := phase_ne_none_iff.mp hok.2
    exact hcrew k _ hok.1 (by omega)
  | last k => rw [rounds, show k = stop nodes abortCallback from hok]
  | done k => exact absurd rfl (hend k)

theorem rounds_done {k : ℕ} (hok : Ok nodes abortCallback i (.done k)) :
    rounds nodes i (.done k : Pc K) = behind nodes (stop nodes abortCallback) + 1 := by
  rw [rounds, show k = stop nodes abortCallback from hok]

theorem rounds_le {l : Pc K} (hok : Ok nodes abortCallback i l) :
    rounds nodes i l ≤ behind nodes (stop nodes abortCallback) + 1 := by
  by_cases hend : ∃ k, l = .done k
  · obtain ⟨k, rfl⟩ := hend
    exact (rounds_done hok).le
  · push Not at hend
    exact (rounds_le_behind hok hend).trans (Nat.le_succ _)

/-- Once a thread has passed the last barrier all threads have. -/
theorem LoopInv.all_done {r : ℕ} (h : LoopInv nodes abortCallback s r) {k : ℕ} (hi : s.seats i = .running (.done k))
    (j : Fin n) : ∃ k', s.seats j = .running (.done k') := by
  have hended := (h.inRound i).1 _ hi
  rw [rounds_done (h.placed.running hi)] at hended
  cases hj : s.seats j with
  | running l =>
    have hround := (h.inRound j).1 l hj
    by_cases hend : ∃ k', l = .done k'
    · obtain ⟨k', rfl⟩ := hend
      exact ⟨k', rfl⟩
    · push Not at hend
      have hle := rounds_le_behind (h.placed.running hj) hend
      omega
  | waiting l =>
    have hround := (h.inRound j).2 l hj
    have hle := rounds_le (h.placed.waiting hj)
    omega

/-- A thread comes to its end behind the last barrier only. -/
theorem halt_done {l : Pc K} (hok : Ok nodes abortCallback i l) (h : graphComputeThread nodes abortCallback i l = .halt) :
    l = .done (stop nodes abortCallback) := by
  cases l with
  | head k => cases h
  | kernel k p x =>
    simp only [graphComputeThread] at h
    split at h
    · next hnone => exact absurd hnone hok.2
    · split at h
      · cases h
      · split at h <;> cases h
  | callback k => cases h
  | sync k =>
    simp only [graphComputeThread] at h
    split_ifs at h
  | last k => cases h
  | done k => rw [show k = stop nodes abortCallback from hok]

theorem running_moves {l : Pc K} (hok : Ok nodes abortCallback i l) (hseat : s.seats i = .running l)
    (hend : ∀ k, l ≠ .done k) : Moves (graphComputeThread nodes abortCallback) s := by
  cases hturn : graphComputeThread nodes abortCallback i l with
  | act run => exact ⟨_, _, .act hseat hturn⟩
  | wait next => exact ⟨_, _, .arrive hseat hturn⟩
  | halt => exact absurd (halt_done hok hturn) (hend _)

/-- No thread waits for one that has left. -/
theorem LoopInv.moves {r : ℕ} (h : LoopInv nodes abortCallback s r) (hend : ¬∀ i, ∃ k, s.seats i = .running (.done k)) :
    Moves (graphComputeThread nodes abortCallback) s := by
  by_cases hrunning : ∃ i l, s.seats i = .running l ∧ ∀ k, l ≠ .done k
  · obtain ⟨i, l, hseat, hl⟩ := hrunning
    exact running_moves (h.placed.running hseat) hseat hl
  · push Not at hrunning hend
    obtain ⟨i, hi⟩ := hend
    obtain ⟨l, hl⟩ : ∃ l, s.seats i = .waiting l := by
      cases hseat : s.seats i with
      | running l =>
        obtain ⟨k, rfl⟩ := hrunning i l hseat
        exact absurd hseat (hi k)
      | waiting l => exact ⟨l, rfl⟩
    have hall : ∀ j, ∃ next, s.seats j = .waiting next := fun j => by
      cases hseat : s.seats j with
      | running l' =>
        obtain ⟨k, rfl⟩ := hrunning j l' hseat
        obtain ⟨k', hk'⟩ := h.all_done hseat i
        exact absurd hk' (hi k')
      | waiting next => exact ⟨next, rfl⟩
    choose next hnext using hall
    exact ⟨.release, _, .release hnext⟩

end Runs

end PyannoteCpp.GraphCompute
