import PyannoteCpp.Crews
import PyannoteCpp.GgmlBarrier

set_option autoImplicit false

/-!
# The threads of `ggml_graph_compute`

Each thread goes through all nodes and takes its share of each. Barriers stand
between the nodes and may stand inside a kernel. After a node the first thread
asks the callback whether the graph is to be aborted, and stores the number of
the next node for the others to read.
-/
namespace PyannoteCpp.GraphCompute
open Rendezvous Crews

variable {n : ℕ} {K M : Type*}

/-- What the threads do at a node: one crew up to each barrier of the kernel and one behind the last of them. A node
whose op is empty has none. -/
abbrev Node (n : ℕ) (K M : Type*) := List (Crew n K M)

inductive Status where
  | success
  | aborted
  deriving DecidableEq

/-- The memory of the tensors with the fields `abort` and `ec` of the pool. -/
structure Shared (M : Type*) where
  mem : M
  abort : ℤ
  ec : Status

inductive Pc (K : Type*) where
  | head (node : ℕ)
  | kernel (node phase : ℕ) (k : K)
  | callback (node : ℕ)
  | sync (node : ℕ)
  | last (node : ℕ)
  | done (node : ℕ)

section Thread

variable (nodes : List (Node n K M)) (abortCallback : ℕ → Bool)

def phase (node p : ℕ) : Option (Crew n K M) := nodes[node]?.bind (fun crews => crews[p]?)

/-- The body of the loop; a node whose op is empty is skipped. -/
def enter (i : Fin n) (node : ℕ) : Pc K :=
  match phase nodes node 0 with
  | none => .head (node + 1)
  | some c => .kernel node 0 (c.start i)

/-- The answer of the callback after a node is `abortCallback node`; without a callback it is always `false`. -/
def graphComputeThread : Program n (Pc K) (Shared M)
  | i, .head node => .act (fun m =>
      (if node < nodes.length ∧ m.abort ≠ node then enter nodes i node else .last node, m))
  | i, .kernel node p k =>
    match phase nodes node p with
    | none => .halt
    | some c => match c.turn i k with
      | some run => .act (fun m => (.kernel node p (run m.mem).1, { m with mem := (run m.mem).2 }))
      | none => match phase nodes node (p + 1) with
        | some c' => .wait (.kernel node (p + 1) (c'.start i))
        | none => .act (fun m => (.callback node, m))
  | i, .callback node => .act (fun m =>
      (.sync node, if i.val = 0 ∧ abortCallback node then { m with abort := node + 1, ec := .aborted } else m))
  | _, .sync node =>
    if node + 1 < nodes.length then .wait (.head (node + 1)) else .act (fun m => (.head (node + 1), m))
  | _, .last node => .wait (.done node)
  | _, .done _ => .halt

/-- After the node the graph is aborted. -/
def Aborts (node : ℕ) : Prop := phase nodes node 0 ≠ none ∧ abortCallback node = true

instance (node : ℕ) : Decidable (Aborts nodes abortCallback node) :=
  decidable_of_iff ((phase nodes node 0).isSome ∧ abortCallback node = true) (by
    unfold Aborts
    rw [Option.isSome_iff_ne_none])

/-- The node at which the threads leave the loop. -/
def stop : ℕ :=
  match (List.range nodes.length).find? (fun node => decide (Aborts nodes abortCallback node)) with
  | some node => node + 1
  | none => nodes.length

end Thread

section Turns

variable (nodes : List (Node n K M)) (abortCallback : ℕ → Bool) (i : Fin n)

inductive Acts : Pc K → Shared M → Pc K → Shared M → Prop where
  | into {node : ℕ} {m : Shared M} (hnode : node < nodes.length) (habort : m.abort ≠ node) :
      Acts (.head node) m (enter nodes i node) m
  | leave {node : ℕ} {m : Shared M} (hexit : ¬(node < nodes.length ∧ m.abort ≠ node)) : Acts (.head node) m (.last node) m
  | work {node p : ℕ} {k : K} {m : Shared M} {c : Crew n K M} {run : M → K × M} (hphase : phase nodes node p = some c)
      (hturn : c.turn i k = some run) :
      Acts (.kernel node p k) m (.kernel node p (run m.mem).1) { m with mem := (run m.mem).2 }
  | finish {node p : ℕ} {k : K} {m : Shared M} {c : Crew n K M} (hphase : phase nodes node p = some c)
      (hturn : c.turn i k = none) (hnext : phase nodes node (p + 1) = none) :
      Acts (.kernel node p k) m (.callback node) m
  | abort {node : ℕ} {m : Shared M} (hfirst : i.val = 0) (hanswer : abortCallback node = true) :
      Acts (.callback node) m (.sync node) { m with abort := node + 1, ec := .aborted }
  | ask {node : ℕ} {m : Shared M} (hanswer : ¬(i.val = 0 ∧ abortCallback node = true)) :
      Acts (.callback node) m (.sync node) m
  | past {node : ℕ} {m : Shared M} (hnext : ¬node + 1 < nodes.length) : Acts (.sync node) m (.head (node + 1)) m

/-- Where a thread comes to a barrier and where it goes on. -/
inductive Waits : Pc K → Pc K → Prop where
  | phase {node p : ℕ} {k : K} {c c' : Crew n K M} (hphase : phase nodes node p = some c) (hturn : c.turn i k = none)
      (hnext : phase nodes node (p + 1) = some c') : Waits (.kernel node p k) (.kernel node (p + 1) (c'.start i))
  | node {node : ℕ} (hnext : node + 1 < nodes.length) : Waits (.sync node) (.head (node + 1))
  | last {node : ℕ} : Waits (.last node) (.done node)

variable {nodes abortCallback i}

theorem act_acts {l : Pc K} {run : Shared M → Pc K × Shared M}
    (h : graphComputeThread nodes abortCallback i l = .act run) (m : Shared M) :
    Acts nodes abortCallback i l m (run m).1 (run m).2 := by
  cases l with
  | head node =>
    obtain rfl := Turn.act.inj h
    dsimp only
    split_ifs with hloop
    · exact .into hloop.1 hloop.2
    · exact .leave hloop
  | kernel node p k =>
    simp only [graphComputeThread] at h
    split at h
    · exact nomatch h
    · next c hphase =>
      split at h
      · next run hturn =>
        obtain rfl := Turn.act.inj h
        exact .work hphase hturn
      · next hturn =>
        split at h
        · exact nomatch h
        · next hnext =>
          obtain rfl := Turn.act.inj h
          exact .finish hphase hturn hnext
  | callback node =>
    obtain rfl := Turn.act.inj h
    dsimp only
    split_ifs with hanswer
    · exact .abort hanswer.1 hanswer.2
    · exact .ask hanswer
  | sync node =>
    simp only [graphComputeThread] at h
    split_ifs at h with hnext
    obtain rfl := Turn.act.inj h
    exact .past hnext
  | last node => exact nomatch h
  | done node => exact nomatch h

theorem wait_waits {l next : Pc K} (h : graphComputeThread nodes abortCallback i l = .wait next) :
    Waits nodes i l next := by
  cases l with
  | head node => exact nomatch h
  | kernel node p k =>
    simp only [graphComputeThread] at h
    split at h
    · exact nomatch h
    · next c hphase =>
      split at h
      · exact nomatch h
      · next hturn =>
        split at h
        · next c' hnext =>
          obtain rfl := Turn.wait.inj h
          exact .phase hphase hturn hnext
        · exact nomatch h
  | callback node => exact nomatch h
  | sync node =>
    simp only [graphComputeThread] at h
    split_ifs at h with hnext
    obtain rfl := Turn.wait.inj h
    exact .node hnext
  | last node =>
    obtain rfl := Turn.wait.inj h
    exact .last
  | done node => exact nomatch h

end Turns

section Stop

variable {nodes : List (Node n K M)} {abortCallback : ℕ → Bool}

theorem phase_ne_none_lt {node p : ℕ} (h : phase nodes node p ≠ none) : node < nodes.length := by
  by_contra hlen
  refine h ?_
  unfold phase
  rw [List.getElem?_eq_none (by omega)]
  rfl

variable (nodes abortCallback) in
/-- The loop ends after the first node after which the graph is aborted, or at the end. -/
theorem stop_cases : (∃ node, stop nodes abortCallback = node + 1 ∧ Aborts nodes abortCallback node ∧
      ∀ k < node, ¬Aborts nodes abortCallback k) ∨
    (stop nodes abortCallback = nodes.length ∧ ∀ k, ¬Aborts nodes abortCallback k) := by
  unfold stop
  split
  · next node hfind =>
    obtain ⟨haborts, -, hbefore⟩ := List.find?_range_eq_some.mp hfind
    refine .inl ⟨node, rfl, of_decide_eq_true haborts, fun k hk hk' => ?_⟩
    have hfalse := hbefore k hk
    rw [decide_eq_true hk'] at hfalse
    exact absurd hfalse (by decide)
  · next hfind =>
    refine .inr ⟨rfl, fun k haborts => ?_⟩
    have hfalse := List.find?_range_eq_none.mp hfind k (phase_ne_none_lt haborts.1)
    rw [decide_eq_true haborts] at hfalse
    exact absurd hfalse (by decide)

variable (nodes abortCallback) in
theorem stop_le : stop nodes abortCallback ≤ nodes.length := by
  rcases stop_cases nodes abortCallback with ⟨node, hstop, haborts, -⟩ | ⟨hstop, -⟩
  · have hlt := phase_ne_none_lt haborts.1
    omega
  · exact hstop.le

theorem aborts_stop {node : ℕ} (hnode : node < stop nodes abortCallback) (h : Aborts nodes abortCallback node) :
    stop nodes abortCallback = node + 1 := by
  rcases stop_cases nodes abortCallback with ⟨first, hstop, -, hfirst⟩ | ⟨-, hnone⟩
  · have hge : ¬node < first := fun hlt => hfirst node hlt h
    omega
  · exact absurd h (hnone node)

end Stop

section Places

variable (nodes : List (Node n K M)) (abortCallback : ℕ → Bool)

def before (node : ℕ) : ℕ := (nodes.take node).flatten.length

def phases (node : ℕ) : ℕ := (nodes[node]?.getD []).length

/-- The barriers behind a thread at the head of the loop: there is none behind the last node. -/
def behind (node : ℕ) : ℕ :=
  if node < nodes.length then before nodes node
  else before nodes (nodes.length - 1) + (phases nodes (nodes.length - 1) - 1)

def rounds : Fin n → Pc K → ℕ
  | _, .head node => behind nodes node
  | _, .kernel node p _ => before nodes node + p
  | _, .callback node => before nodes node + (phases nodes node - 1)
  | _, .sync node => before nodes node + (phases nodes node - 1)
  | _, .last node => behind nodes node
  | _, .done node => behind nodes node + 1

/-- The places of a loop that ends at `stop`. -/
def Ok : Fin n → Pc K → Prop
  | _, .head node => node ≤ stop nodes abortCallback
  | _, .kernel node p _ => node < stop nodes abortCallback ∧ phase nodes node p ≠ none
  | _, .callback node => node < stop nodes abortCallback ∧ phase nodes node 0 ≠ none
  | _, .sync node => node < stop nodes abortCallback ∧ phase nodes node 0 ≠ none
  | _, .last node => node = stop nodes abortCallback
  | _, .done node => node = stop nodes abortCallback

variable {nodes abortCallback}

theorem phase_ne_none_iff {node p : ℕ} : phase nodes node p ≠ none ↔ p < phases nodes node := by
  unfold phase phases
  cases nodes[node]? with
  | none => simp
  | some crews =>
    rw [Option.bind_some, Option.getD_some, ne_eq, List.getElem?_eq_none_iff, not_le]

theorem before_succ (node : ℕ) : before nodes (node + 1) = before nodes node + phases nodes node := by
  unfold before phases
  rw [List.take_add_one, List.flatten_append, List.length_append]
  cases nodes[node]? with
  | none => rfl
  | some crews => simp

variable (nodes) in
theorem before_mono {node node' : ℕ} (h : node ≤ node') : before nodes node ≤ before nodes node' := by
  induction h with
  | refl => exact le_rfl
  | step _ ih => exact ih.trans (by rw [before_succ]; omega)

theorem round_inj {a b p q : ℕ} (hp : p < phases nodes a) (hq : q < phases nodes b)
    (h : before nodes a + p = before nodes b + q) : a = b ∧ p = q := by
  rcases Nat.lt_trichotomy a b with hab | rfl | hab
  · have hmono := before_mono nodes (Nat.succ_le_of_lt hab)
    rw [Nat.succ_eq_add_one, before_succ] at hmono
    omega
  · exact ⟨rfl, by omega⟩
  · have hmono := before_mono nodes (Nat.succ_le_of_lt hab)
    rw [Nat.succ_eq_add_one, before_succ] at hmono
    omega

variable (nodes) in
theorem behind_succ {node : ℕ} (h : node < nodes.length) :
    behind nodes (node + 1) = if node + 1 < nodes.length then before nodes (node + 1)
      else before nodes node + (phases nodes node - 1) := by
  unfold behind
  split_ifs with hnext
  · rfl
  · have hlast : nodes.length - 1 = node := by omega
    rw [hlast]

variable (nodes) in
theorem enter_cases (i : Fin n) (node : ℕ) : (phases nodes node = 0 ∧ enter nodes i node = .head (node + 1)) ∨
    ∃ c, phase nodes node 0 = some c ∧ enter nodes i node = .kernel node 0 (c.start i) := by
  unfold enter
  cases hphase : phase nodes node 0 with
  | none =>
    have hnone := mt phase_ne_none_iff.mpr (not_not.mpr hphase)
    exact .inl ⟨by omega, rfl⟩
  | some c => exact .inr ⟨c, rfl, rfl⟩

theorem rounds_enter (i : Fin n) {node : ℕ} (h : node < nodes.length) :
    rounds nodes i (enter nodes i node) = behind nodes node := by
  have hbehind : behind nodes node = before nodes node := if_pos h
  rcases enter_cases nodes i node with ⟨hempty, henter⟩ | ⟨c, -, henter⟩
  · rw [henter, rounds, behind_succ nodes h, hbehind, before_succ, hempty]
    split_ifs <;> rfl
  · rw [henter, rounds, hbehind]
    rfl

theorem counts : Counts (graphComputeThread nodes abortCallback) (Ok nodes abortCallback) (rounds nodes) where
  act := by
    intro i l run hok hturn mem
    have hacts := act_acts hturn mem
    generalize (run mem).1 = next, (run mem).2 = m at hacts ⊢
    cases hacts with
    | into hnode _ => exact rounds_enter i hnode
    | leave _ => rfl
    | work _ _ => rfl
    | @finish node p k _ c hphase _ hnext =>
      have hp := phase_ne_none_iff.mp hok.2
      have hlast := mt phase_ne_none_iff.mpr (not_not.mpr hnext)
      simp only [rounds]
      omega
    | abort _ _ => rfl
    | ask _ => rfl
    | @past node _ hnext =>
      simp only [rounds]
      rw [behind_succ nodes (phase_ne_none_lt hok.2), if_neg hnext]
  wait := by
    intro i l next hok hturn
    cases wait_waits hturn with
    | phase _ _ _ => exact (Nat.add_assoc _ _ _).symm
    | @node node hnext =>
      have hfull := phase_ne_none_iff.mp hok.2
      simp only [rounds]
      rw [behind_succ nodes (phase_ne_none_lt hok.2), if_pos hnext, before_succ]
      omega
    | last => rfl

end Places

end PyannoteCpp.GraphCompute
