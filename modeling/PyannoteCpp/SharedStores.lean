import Mathlib.Data.Multiset.Bind
import Mathlib.Tactic

set_option autoImplicit false

/-!
# Stores that threads share out

A thread's stores are a list; one that reads or writes outside the memory has
no address and no value. The threads take the turns of a loop by their
remainder, so together they take every turn once. Stores at addresses that all
differ give the same memory in every order.
-/
namespace PyannoteCpp.SharedStores

variable {V α κ : Type*}

def turns (ith nth bound : ℕ) : List ℕ := (List.range ((bound - ith + nth - 1) / nth)).map (fun t => ith + t * nth)

def threads (nth : ℕ) (work : ℕ → List α) : List α := (List.range nth).flatMap work

/-- The memory after the stores; none if one of them faults. -/
def perform (stores : List (Option (ℕ × V))) (mem : ℕ → V) : Option (ℕ → V) :=
  stores.foldlM (fun mem s => s.map (fun s => Function.update mem s.1 s.2)) mem

section Turns

variable {ith nth bound : ℕ}

theorem mem_turns (hnth : 0 < nth) {i : ℕ} : i ∈ turns ith nth bound ↔ i < bound ∧ ∃ t, i = ith + t * nth := by
  unfold turns
  simp only [List.mem_map, List.mem_range]
  have hcount : ∀ t, t < (bound - ith + nth - 1) / nth ↔ ith + t * nth < bound := fun t => by
    rw [← Nat.add_one_le_iff, Nat.le_div_iff_mul_le hnth, Nat.succ_mul]
    omega
  constructor
  · rintro ⟨t, ht, rfl⟩
    exact ⟨(hcount t).1 ht, t, rfl⟩
  · rintro ⟨hlt, t, rfl⟩
    exact ⟨t, (hcount t).2 hlt, rfl⟩

theorem mem_turns_iff (hith : ith < nth) {i : ℕ} : i ∈ turns ith nth bound ↔ i < bound ∧ i % nth = ith := by
  rw [mem_turns (Nat.zero_lt_of_lt hith)]
  refine and_congr_right (fun _ => ⟨?_, fun h => ⟨i / nth, ?_⟩⟩)
  · rintro ⟨t, rfl⟩
    rw [Nat.add_mul_mod_self_right, Nat.mod_eq_of_lt hith]
  · rw [← h, Nat.mul_comm]
    exact (Nat.mod_add_div i nth).symm

theorem turns_nodup (hnth : 0 < nth) : (turns ith nth bound).Nodup :=
  List.nodup_range.map (fun t t' (h : ith + t * nth = ith + t' * nth) =>
    Nat.eq_of_mul_eq_mul_right hnth (Nat.add_left_cancel h))

theorem threads_turns (hnth : 0 < nth) (bound : ℕ) :
    (threads nth (fun ith => turns ith nth bound)).Perm (List.range bound) := by
  have hnodup : (threads nth (fun ith => turns ith nth bound)).Nodup := by
    refine List.nodup_flatMap.2 ⟨fun ith _ => turns_nodup hnth, ?_⟩
    refine (List.nodup_range (n := nth)).imp_of_mem (fun {i j} hi hj hne k hki hkj => hne ?_)
    rw [List.mem_range] at hi hj
    rw [← ((mem_turns_iff hi).1 hki).2, ((mem_turns_iff hj).1 hkj).2]
  refine (List.perm_ext_iff_of_nodup hnodup List.nodup_range).2 (fun i => ?_)
  unfold threads
  rw [List.mem_flatMap, List.mem_range]
  constructor
  · rintro ⟨ith, hith, hi⟩
    exact ((mem_turns_iff (List.mem_range.1 hith)).1 hi).1
  · intro hi
    have hmod := Nat.mod_lt i hnth
    exact ⟨i % nth, List.mem_range.2 hmod, (mem_turns_iff hmod).2 ⟨hi, rfl⟩⟩

theorem threads_flatMap_comm (nth : ℕ) (l : List κ) (work : ℕ → κ → List α) :
    (threads nth (fun ith => l.flatMap (work ith))).Perm (l.flatMap (fun k => threads nth (fun ith => work ith k))) := by
  have hswap := Multiset.bind_bind (↑(List.range nth)) (↑l) (f := fun ith k => (work ith k : Multiset α))
  simp only [Multiset.coe_bind] at hswap
  exact Multiset.coe_eq_coe.1 hswap

theorem threads_turns_flatMap (hnth : 0 < nth) (bound : ℕ) (work : ℕ → List α) :
    (threads nth (fun ith => (turns ith nth bound).flatMap work)).Perm ((List.range bound).flatMap work) := by
  have hassoc : threads nth (fun ith => (turns ith nth bound).flatMap work) =
      (threads nth (fun ith => turns ith nth bound)).flatMap work := List.flatMap_assoc.symm
  rw [hassoc]
  exact (threads_turns hnth bound).flatMap_right work

end Turns

section Perform

variable {stores order : List (Option (ℕ × V))} {mem mem' : ℕ → V}

theorem perform_cons (s : ℕ × V) (stores : List (Option (ℕ × V))) (mem : ℕ → V) :
    perform (some s :: stores) mem = perform stores (Function.update mem s.1 s.2) := by
  unfold perform
  rw [List.foldlM_cons]
  rfl

theorem perform_none (h : none ∈ stores) (mem : ℕ → V) : perform stores mem = none := by
  induction stores generalizing mem with
  | nil => exact absurd h List.not_mem_nil
  | cons s stores ih =>
    cases s with
    | none => rfl
    | some s =>
      rw [perform_cons]
      exact ih ((List.mem_cons.1 h).resolve_left (by simp)) _

theorem perform_frame {a : ℕ} (h : perform stores mem = some mem') (ha : ∀ s ∈ stores, ∀ p ∈ s, p.1 ≠ a) :
    mem' a = mem a := by
  induction stores generalizing mem with
  | nil =>
    have hmem : mem = mem' := Option.some.inj h
    rw [hmem]
  | cons s stores ih =>
    cases s with
    | none => exact absurd h (by rw [perform_none List.mem_cons_self]; simp)
    | some s =>
      rw [perform_cons] at h
      rw [ih h (fun t ht => ha t (List.mem_cons_of_mem _ ht)),
        Function.update_of_ne (ha _ List.mem_cons_self s rfl).symm]

theorem perform_distinct (hsome : none ∉ stores) (hdistinct : (stores.map (Option.map Prod.fst)).Nodup) (mem : ℕ → V) :
    ∃ mem', perform stores mem = some mem' ∧ ∀ p, some p ∈ stores → mem' p.1 = p.2 := by
  induction stores generalizing mem with
  | nil => exact ⟨mem, rfl, fun _ h => absurd h List.not_mem_nil⟩
  | cons s stores ih =>
    rw [List.map_cons, List.nodup_cons] at hdistinct
    cases s with
    | none => exact absurd List.mem_cons_self hsome
    | some s =>
      obtain ⟨mem', hmem', hvalues⟩ :=
        ih (fun h => hsome (List.mem_cons_of_mem _ h)) hdistinct.2 (Function.update mem s.1 s.2)
      refine ⟨mem', by rw [perform_cons, hmem'], fun p hp => ?_⟩
      rcases List.mem_cons.1 hp with hps | hp
      · obtain rfl := Option.some.inj hps
        have hkeep : mem' p.1 = Function.update mem p.1 p.2 p.1 := by
          refine perform_frame hmem' (fun t ht q hq heq => hdistinct.1 ?_)
          have hmem : t.map Prod.fst ∈ stores.map (Option.map Prod.fst) := List.mem_map_of_mem ht
          rwa [Option.mem_def.1 hq, Option.map_some, heq] at hmem
        rw [hkeep, Function.update_self]
      · exact hvalues p hp

/-- In any order, stores at distinct addresses give each address its value. -/
theorem perform_keyed {l : List κ} {place : κ → ℕ} {value : κ → V} (hl : (l.map place).Nodup)
    (horder : order.Perm (l.map (fun k => some (place k, value k)))) (mem : ℕ → V) :
    ∃ mem', perform order mem = some mem' ∧ ∀ k ∈ l, mem' (place k) = value k := by
  have hsome : none ∉ order := fun h => by
    obtain ⟨k, -, hk⟩ := List.mem_map.1 (horder.mem_iff.1 h)
    exact absurd hk (by simp)
  have hdistinct : (order.map (Option.map Prod.fst)).Nodup := by
    refine (horder.map (Option.map Prod.fst)).nodup_iff.2 ?_
    have hplaces := hl.map (Option.some_injective ℕ)
    rw [List.map_map] at hplaces ⊢
    exact hplaces
  obtain ⟨mem', hmem', hvalues⟩ := perform_distinct hsome hdistinct mem
  exact ⟨mem', hmem', fun k hk => hvalues (place k, value k) (horder.mem_iff.2 (List.mem_map_of_mem hk))⟩

end Perform

end PyannoteCpp.SharedStores
