import PyannoteCpp.Rendezvous

set_option autoImplicit false

/-!
# The counters of `ggml_barrier`

The build without OpenMP: a counter of the threads that have come and a counter
of the barriers passed, which is a 32-bit word. Each load, store and addition is
a step of its own, in one order that all threads see.
-/
namespace PyannoteCpp.GgmlBarrier
open ReachableStates Rendezvous

variable {n : ℕ} {L M : Type*}

/-- Where a thread is: in its own code or before a line of `ggml_barrier`, to go on at `l` after it. -/
inductive Place (L : Type*) where
  | running (l : L)
  | loadPassed (l : L)
  | addBarrier (l : L) (nPassed : BitVec 32)
  | storeZero (l : L)
  | addPassed (l : L)
  | spin (l : L) (nPassed : BitVec 32)

structure Pool (n : ℕ) (L M : Type*) where
  nBarrier : ℕ
  nBarrierPassed : BitVec 32
  places : Fin n → Place L
  mem : M

namespace Pool

def goto (s : Pool n L M) (i : Fin n) (p : Place L) : Pool n L M := { s with places := Function.update s.places i p }

@[simp] theorem goto_nBarrier (s : Pool n L M) (i : Fin n) (p : Place L) : (s.goto i p).nBarrier = s.nBarrier := rfl

@[simp] theorem goto_nBarrierPassed (s : Pool n L M) (i : Fin n) (p : Place L) :
    (s.goto i p).nBarrierPassed = s.nBarrierPassed := rfl

@[simp] theorem goto_places (s : Pool n L M) (i : Fin n) (p : Place L) :
    (s.goto i p).places = Function.update s.places i p := rfl

end Pool

/-- The next line of thread `i`; none when it has come to the end. -/
def step (prog : Program n L M) (s : Pool n L M) (i : Fin n) : Option (Pool n L M) :=
  match s.places i with
  | .running l => match prog i l with
    | .act run => some { s.goto i (.running (run s.mem).1) with mem := (run s.mem).2 }
    | .wait next => some (s.goto i (if n = 1 then .running next else .loadPassed next))
    | .halt => none
  | .loadPassed l => some (s.goto i (.addBarrier l s.nBarrierPassed))
  | .addBarrier l nPassed =>
    some { s.goto i (if s.nBarrier = n - 1 then .storeZero l else .spin l nPassed) with nBarrier := s.nBarrier + 1 }
  | .storeZero l => some { s.goto i (.addPassed l) with nBarrier := 0 }
  | .addPassed l => some { s.goto i (.running l) with nBarrierPassed := s.nBarrierPassed + 1 }
  | .spin l nPassed => some (if s.nBarrierPassed = nPassed then s else s.goto i (.running l))

def Step (prog : Program n L M) (s : Pool n L M) (i : Fin n) (u : Pool n L M) : Prop := step prog s i = some u

/-- The pool may have been used before, so the counter of the barriers passed may stand anywhere. -/
def Started (first : Fin n → L) (mem : M) (s : Pool n L M) : Prop :=
  s.nBarrier = 0 ∧ (s.places = fun i => .running (first i)) ∧ s.mem = mem

def seat (nBarrierPassed : BitVec 32) : Place L → Seat L
  | .running l => .running l
  | .loadPassed l => .waiting l
  | .addBarrier l _ => .waiting l
  | .storeZero l => .waiting l
  | .addPassed l => .waiting l
  | .spin l nPassed => if nBarrierPassed = nPassed then .waiting l else .running l

def view (s : Pool n L M) : Hall n L M := ⟨fun i => seat s.nBarrierPassed (s.places i), s.mem⟩

def Blocked (s : Pool n L M) (i : Fin n) : Prop := ∃ l, s.places i = .spin l s.nBarrierPassed

def Last (s : Pool n L M) (i : Fin n) : Prop := ∃ l, s.places i = .storeZero l ∨ s.places i = .addPassed l

def Counted (s : Pool n L M) (i : Fin n) : Prop := Blocked s i ∨ ∃ l, s.places i = .storeZero l

def counted (s : Pool n L M) : Set (Fin n) := {i | Counted s i}

structure PoolInv (s : Pool n L M) : Prop where
  fresh : ∀ i l nPassed, s.places i = .addBarrier l nPassed → nPassed = s.nBarrierPassed
  spinning : ∀ i l nPassed, s.places i = .spin l nPassed → nPassed = s.nBarrierPassed ∨ nPassed + 1 = s.nBarrierPassed
  alone : ∀ i, Last s i → ∀ j, j ≠ i → Blocked s j
  counts : (∃ i l, s.places i = .addPassed l) ∨ s.nBarrier = (counted s).ncard
  zeroed : ∀ i l, s.places i = .addPassed l → s.nBarrier = 0
  open_ : ∃ i, ¬Blocked s i

section Invariant

variable {s u : Pool n L M} {i j : Fin n} {p : Place L}

theorem mem_counted : i ∈ counted s ↔ Counted s i := Iff.rfl

theorem succ_ne (w : BitVec 32) : w + 1 ≠ w := by bv_omega

section Others

variable (hpassed : u.nBarrierPassed = s.nBarrierPassed) (hplaces : u.places = Function.update s.places i p)
include hplaces

theorem places_self : u.places i = p := by rw [hplaces, Function.update_self]

theorem places_of_ne (hj : j ≠ i) : u.places j = s.places j := by rw [hplaces, Function.update_of_ne hj]

include hpassed

theorem blocked_of_ne (hj : j ≠ i) : Blocked u j ↔ Blocked s j := by
  unfold Blocked
  rw [places_of_ne hplaces hj, hpassed]

theorem counted_of_ne (hj : j ≠ i) : Counted u j ↔ Counted s j := by
  unfold Counted
  rw [blocked_of_ne hpassed hplaces hj, places_of_ne hplaces hj]

theorem counted_insert (hbefore : ¬Counted s i) (hafter : Counted u i) : (counted u).ncard = (counted s).ncard + 1 := by
  have hset : counted u = insert i (counted s) := by
    ext j
    rw [Set.mem_insert_iff, mem_counted, mem_counted]
    by_cases hj : j = i
    · subst hj
      exact iff_of_true hafter (.inl rfl)
    · rw [counted_of_ne hpassed hplaces hj, or_iff_right hj]
  rw [hset, Set.ncard_insert_of_notMem (mt mem_counted.mp hbefore)]

theorem counted_same (h : Counted u i ↔ Counted s i) : counted u = counted s := by
  ext j
  rw [mem_counted, mem_counted]
  by_cases hj : j = i
  · subst hj
    exact h
  · exact counted_of_ne hpassed hplaces hj

end Others

theorem PoolInv.quiet (h : PoolInv s) (hbarrier : u.nBarrier = s.nBarrier) (hpassed : u.nBarrierPassed = s.nBarrierPassed)
    (hplaces : u.places = Function.update s.places i p) (hbefore : ¬Counted s i) (hlast : ¬Last s i)
    (hfresh : ∀ l nPassed, p = .addBarrier l nPassed → nPassed = s.nBarrierPassed)
    (hspin : ∀ l nPassed, p ≠ .spin l nPassed) (hzero : ∀ l, p ≠ .storeZero l) (hadd : ∀ l, p ≠ .addPassed l) :
    PoolInv u := by
  have hself := places_self hplaces
  have hafter : ¬Counted u i := by
    rintro (⟨l, hl⟩ | ⟨l, hl⟩)
    · exact hspin l _ (hself.symm.trans hl)
    · exact hzero l (hself.symm.trans hl)
  have hafterLast : ¬Last u i := by
    rintro ⟨l, hl | hl⟩
    · exact hzero l (hself.symm.trans hl)
    · exact hadd l (hself.symm.trans hl)
  refine ⟨fun j l nPassed hj => ?_, fun j l nPassed hj => ?_, fun j hj k hk => ?_, ?_, fun j l hj => ?_, ?_⟩
  · rw [hpassed]
    by_cases hij : j = i
    · subst hij
      exact hfresh l nPassed (hself.symm.trans hj)
    · exact h.fresh j l nPassed (places_of_ne hplaces hij ▸ hj)
  · rw [hpassed]
    by_cases hij : j = i
    · subst hij
      exact absurd (hself.symm.trans hj) (hspin l nPassed)
    · exact h.spinning j l nPassed (places_of_ne hplaces hij ▸ hj)
  · have hji : j ≠ i := fun hji => hafterLast (hji ▸ hj)
    have hlastj : Last s j := by
      unfold Last at hj ⊢
      rwa [places_of_ne hplaces hji] at hj
    -- The thread of this step would be blocked, had the last one come.
    exact absurd (.inl (h.alone j hlastj i hji.symm)) hbefore
  · rcases h.counts with ⟨j, l, hj⟩ | hcount
    · have hji : i ≠ j := fun hji => hlast ⟨l, .inr (hji ▸ hj)⟩
      exact absurd (.inl (h.alone j ⟨l, .inr hj⟩ i hji)) hbefore
    · exact .inr (by rw [hbarrier, hcount, counted_same hpassed hplaces (iff_of_false hafter hbefore)])
  · rw [hbarrier]
    have hji : j ≠ i := fun hji => hadd l (hself.symm.trans (hji ▸ hj))
    exact h.zeroed j l (places_of_ne hplaces hji ▸ hj)
  · exact ⟨i, fun hblocked => hafter (.inl hblocked)⟩

theorem PoolInv.no_last (h : PoolInv s) (hi : ¬Blocked s i) (hlast : ¬Last s i) (j : Fin n) : ¬Last s j := by
  intro hj
  have hij : i ≠ j := fun hij => hlast (hij ▸ hj)
  exact hi (h.alone j hj i hij)

theorem PoolInv.count (h : PoolInv s) (hi : ¬Blocked s i) (hlast : ¬Last s i) : s.nBarrier = (counted s).ncard := by
  rcases h.counts with ⟨j, l, hj⟩ | hcount
  · exact absurd ⟨l, .inr hj⟩ (h.no_last hi hlast j)
  · exact hcount

theorem PoolInv.others_blocked (h : PoolInv s) (hi : ¬Counted s i) (hlast : ¬Last s i) (hn : s.nBarrier = n - 1)
    (j : Fin n) (hj : j ≠ i) : Blocked s j := by
  have hcard := h.count (fun hb => hi (.inl hb)) hlast
  have hsub : counted s ⊆ {i}ᶜ := fun k hk hki => hi (Set.mem_singleton_iff.mp hki ▸ hk)
  have hothers : ({i}ᶜ : Set (Fin n)).ncard = n - 1 := by
    rw [Set.ncard_compl, Set.ncard_singleton, Nat.card_fin]
  have hall : counted s = {i}ᶜ := Set.eq_of_subset_of_ncard_le hsub (by rw [hothers, ← hcard, hn])
  have hcounted : j ∈ counted s := by
    rw [hall]
    exact hj
  rcases hcounted with hb | ⟨l, hl⟩
  · exact hb
  · exact absurd ⟨l, .inl hl⟩ (h.no_last (fun hb => hi (.inl hb)) hlast j)

/-- A thread adds itself to the counter; it is the last one exactly when all others are blocked. -/
theorem PoolInv.come (h : PoolInv s) {l : L} {nPassed : BitVec 32} (hi : s.places i = .addBarrier l nPassed) :
    PoolInv { s.goto i (if s.nBarrier = n - 1 then .storeZero l else .spin l nPassed) with
      nBarrier := s.nBarrier + 1 } := by
  obtain rfl := h.fresh i l nPassed hi
  have hbefore : ¬Counted s i := by
    rintro (⟨l', hl'⟩ | ⟨l', hl'⟩) <;> exact nomatch hi.symm.trans hl'
  have hlast : ¬Last s i := by
    rintro ⟨l', hl' | hl'⟩ <;> exact nomatch hi.symm.trans hl'
  have hblocked : ¬Blocked s i := fun hb => hbefore (.inl hb)
  have hnobody := h.no_last hblocked hlast
  have hcount := h.count hblocked hlast
  set p : Place L := if s.nBarrier = n - 1 then .storeZero l else .spin l s.nBarrierPassed with hp
  set u : Pool n L M := { s.goto i p with nBarrier := s.nBarrier + 1 } with hu
  have hpassed : u.nBarrierPassed = s.nBarrierPassed := rfl
  have hplaces : u.places = Function.update s.places i p := rfl
  have hself := places_self hplaces
  have hp_cases : (s.nBarrier = n - 1 ∧ p = .storeZero l) ∨ (s.nBarrier ≠ n - 1 ∧ p = .spin l s.nBarrierPassed) := by
    rw [hp]
    split_ifs with hn
    · exact .inl ⟨hn, rfl⟩
    · exact .inr ⟨hn, rfl⟩
  have hafter : Counted u i := by
    rcases hp_cases with ⟨-, hpz⟩ | ⟨-, hps⟩
    · exact .inr ⟨l, hself.trans hpz⟩
    · exact .inl ⟨l, hself.trans hps⟩
  refine ⟨fun j l' nPassed hj => ?_, fun j l' nPassed hj => ?_, fun j hj k hk => ?_, .inr ?_, fun j l' hj => ?_, ?_⟩
  · by_cases hji : j = i
    · subst hji
      rcases hp_cases with ⟨-, hpz⟩ | ⟨-, hps⟩
      · exact nomatch (hself.trans hpz).symm.trans hj
      · exact nomatch (hself.trans hps).symm.trans hj
    · exact h.fresh j l' nPassed (places_of_ne hplaces hji ▸ hj)
  · by_cases hji : j = i
    · subst hji
      rcases hp_cases with ⟨-, hpz⟩ | ⟨-, hps⟩
      · exact nomatch (hself.trans hpz).symm.trans hj
      · exact .inl (Place.spin.inj ((hself.trans hps).symm.trans hj)).2.symm
    · exact h.spinning j l' nPassed (places_of_ne hplaces hji ▸ hj)
  · have hji : j = i := by
      by_contra hji
      refine hnobody j ?_
      unfold Last at hj ⊢
      rwa [places_of_ne hplaces hji] at hj
    subst hji
    rcases hp_cases with ⟨hn, -⟩ | ⟨-, hps⟩
    · exact (blocked_of_ne hpassed hplaces hk).mpr (h.others_blocked hbefore hlast hn k hk)
    · obtain ⟨l', hl' | hl'⟩ := hj
      · exact nomatch (hself.trans hps).symm.trans hl'
      · exact nomatch (hself.trans hps).symm.trans hl'
  · rw [counted_insert hpassed hplaces hbefore hafter, ← hcount]
  · have hji : j ≠ i := by
      rintro rfl
      rcases hp_cases with ⟨-, hpz⟩ | ⟨-, hps⟩
      · exact nomatch (hself.trans hpz).symm.trans hj
      · exact nomatch (hself.trans hps).symm.trans hj
    exact absurd ⟨l', .inr (places_of_ne hplaces hji ▸ hj)⟩ (hnobody j)
  · rcases hp_cases with ⟨-, hpz⟩ | ⟨hn, -⟩
    · exact ⟨i, fun ⟨l', hl'⟩ => nomatch (hself.trans hpz).symm.trans hl'⟩
    · by_contra hall
      push Not at hall
      -- Had the others all come, this thread would have been the last.
      refine hn ?_
      have hset : counted s = {i}ᶜ := by
        ext k
        refine ⟨fun hk hki => hbefore (Set.mem_singleton_iff.mp hki ▸ hk), fun hk => .inl ?_⟩
        exact (blocked_of_ne hpassed hplaces hk).mp (hall k)
      rw [hcount, hset, Set.ncard_compl, Set.ncard_singleton, Nat.card_fin]

theorem PoolInv.zero (h : PoolInv s) {l : L} (hi : s.places i = .storeZero l) :
    PoolInv { s.goto i (.addPassed l) with nBarrier := 0 } := by
  have hothers := h.alone i ⟨l, .inl hi⟩
  set u : Pool n L M := { s.goto i (.addPassed l) with nBarrier := 0 } with hu
  have hplaces : u.places = Function.update s.places i (.addPassed l) := rfl
  have hself := places_self hplaces
  have hplace : ∀ j, (j = i ∧ u.places j = .addPassed l) ∨ ∃ l', u.places j = .spin l' u.nBarrierPassed := fun j => by
    by_cases hji : j = i
    · exact .inl ⟨hji, hji ▸ hself⟩
    · rw [places_of_ne hplaces hji]
      exact .inr (hothers j hji)
  refine ⟨fun j l' nPassed hj => ?_, fun j l' nPassed hj => ?_, fun j hj k hk => ?_, .inl ⟨i, l, hself⟩, fun _ _ _ => rfl,
    ⟨i, fun ⟨l', hl'⟩ => nomatch hself.symm.trans hl'⟩⟩
  · rcases hplace j with ⟨-, hp⟩ | ⟨l'', hs⟩
    · exact nomatch hp.symm.trans hj
    · exact nomatch hs.symm.trans hj
  · rcases hplace j with ⟨-, hp⟩ | ⟨l'', hs⟩
    · exact nomatch hp.symm.trans hj
    · exact .inl (Place.spin.inj (hj.symm.trans hs)).2
  · have hji : j = i := by
      rcases hplace j with ⟨hji, -⟩ | ⟨l'', hs⟩
      · exact hji
      · obtain ⟨l', hl' | hl'⟩ := hj
        · exact nomatch hl'.symm.trans hs
        · exact nomatch hl'.symm.trans hs
    exact (hplace k).resolve_left (fun hki => hk (hki.1.trans hji.symm))

theorem PoolInv.pass (h : PoolInv s) {l : L} (hi : s.places i = .addPassed l) :
    PoolInv { s.goto i (.running l) with nBarrierPassed := s.nBarrierPassed + 1 } := by
  have hothers := h.alone i ⟨l, .inr hi⟩
  set u : Pool n L M := { s.goto i (.running l) with nBarrierPassed := s.nBarrierPassed + 1 } with hu
  have hplaces : u.places = Function.update s.places i (.running l) := rfl
  have hplace : ∀ j, u.places j = .running l ∨ ∃ l', u.places j = .spin l' s.nBarrierPassed := fun j => by
    by_cases hji : j = i
    · exact .inl (hji ▸ places_self hplaces)
    · rw [places_of_ne hplaces hji]
      exact .inr (hothers j hji)
  have hnone : ∀ j, ¬Counted u j := by
    rintro j (⟨l', hl'⟩ | ⟨l', hl'⟩)
    · rcases hplace j with hr | ⟨l'', hs⟩
      · exact nomatch hr.symm.trans hl'
      · exact succ_ne _ (Place.spin.inj (hl'.symm.trans hs)).2
    · rcases hplace j with hr | ⟨l'', hs⟩
      · exact nomatch hr.symm.trans hl'
      · exact nomatch hs.symm.trans hl'
  have hpast : ∀ j l', u.places j ≠ .addPassed l' := fun j l' hj => by
    rcases hplace j with hr | ⟨l'', hs⟩
    · exact nomatch hr.symm.trans hj
    · exact nomatch hs.symm.trans hj
  refine ⟨fun j l' nPassed hj => ?_, fun j l' nPassed hj => .inr ?_, fun j hj => ?_, .inr ?_,
    fun j l' hj => absurd hj (hpast j l'), ⟨i, fun hb => hnone i (.inl hb)⟩⟩
  · rcases hplace j with hr | ⟨l'', hs⟩
    · exact nomatch hr.symm.trans hj
    · exact nomatch hs.symm.trans hj
  · rcases hplace j with hr | ⟨l'', hs⟩
    · exact nomatch hr.symm.trans hj
    · rw [(Place.spin.inj (hj.symm.trans hs)).2]
  · obtain ⟨l', hl' | hl'⟩ := hj
    · exact absurd (.inr ⟨l', hl'⟩) (hnone j)
    · exact absurd hl' (hpast j l')
  · have hempty : counted u = ∅ := Set.eq_empty_of_forall_notMem hnone
    rw [hempty, Set.ncard_empty]
    exact h.zeroed i l hi

end Invariant

section Lines

variable {prog : Program n L M} {first : Fin n → L} {mem : M} {s u : Pool n L M} {i : Fin n}

inductive Line (prog : Program n L M) (s : Pool n L M) (i : Fin n) : Pool n L M → Prop where
  | act {l : L} {run : M → L × M} (hplace : s.places i = .running l) (hturn : prog i l = .act run) :
      Line prog s i { s.goto i (.running (run s.mem).1) with mem := (run s.mem).2 }
  | single {l next : L} (hplace : s.places i = .running l) (hturn : prog i l = .wait next) (hn : n = 1) :
      Line prog s i (s.goto i (.running next))
  | enter {l next : L} (hplace : s.places i = .running l) (hturn : prog i l = .wait next) :
      Line prog s i (s.goto i (.loadPassed next))
  | load {l : L} (hplace : s.places i = .loadPassed l) : Line prog s i (s.goto i (.addBarrier l s.nBarrierPassed))
  | come {l : L} {nPassed : BitVec 32} (hplace : s.places i = .addBarrier l nPassed) :
      Line prog s i { s.goto i (if s.nBarrier = n - 1 then .storeZero l else .spin l nPassed) with
        nBarrier := s.nBarrier + 1 }
  | zero {l : L} (hplace : s.places i = .storeZero l) : Line prog s i { s.goto i (.addPassed l) with nBarrier := 0 }
  | pass {l : L} (hplace : s.places i = .addPassed l) :
      Line prog s i { s.goto i (.running l) with nBarrierPassed := s.nBarrierPassed + 1 }
  | spin {l : L} (hplace : s.places i = .spin l s.nBarrierPassed) : Line prog s i s
  | leave {l : L} {nPassed : BitVec 32} (hplace : s.places i = .spin l nPassed) (hpassed : s.nBarrierPassed ≠ nPassed) :
      Line prog s i (s.goto i (.running l))

theorem step_line (h : Step prog s i u) : Line prog s i u := by
  unfold Step step at h
  split at h
  · next l hplace =>
    split at h
    · next run hturn =>
      obtain rfl := Option.some.inj h
      exact .act hplace hturn
    · next next hturn =>
      obtain rfl := Option.some.inj h
      split_ifs with hn
      · exact .single hplace hturn hn
      · exact .enter hplace hturn
    · exact nomatch h
  · next l hplace =>
    obtain rfl := Option.some.inj h
    exact .load hplace
  · next l nPassed hplace =>
    obtain rfl := Option.some.inj h
    exact .come hplace
  · next l hplace =>
    obtain rfl := Option.some.inj h
    exact .zero hplace
  · next l hplace =>
    obtain rfl := Option.some.inj h
    exact .pass hplace
  · next l nPassed hplace =>
    obtain rfl := Option.some.inj h
    split_ifs with hpassed
    · exact .spin (hpassed ▸ hplace)
    · exact .leave hplace hpassed

theorem not_counted_of {p : Place L} (hplace : s.places i = p) (hspin : ∀ l, p ≠ .spin l s.nBarrierPassed)
    (hzero : ∀ l, p ≠ .storeZero l) : ¬Counted s i := by
  rintro (⟨l, hl⟩ | ⟨l, hl⟩)
  · exact hspin l (hplace.symm.trans hl)
  · exact hzero l (hplace.symm.trans hl)

theorem not_last_of {p : Place L} (hplace : s.places i = p) (hzero : ∀ l, p ≠ .storeZero l)
    (hadd : ∀ l, p ≠ .addPassed l) : ¬Last s i := by
  rintro ⟨l, hl | hl⟩
  · exact hzero l (hplace.symm.trans hl)
  · exact hadd l (hplace.symm.trans hl)

theorem start_inv (hn : 0 < n) (h : Started first mem s) : PoolInv s := by
  obtain ⟨hbarrier, hplaces, -⟩ := h
  have hplace : ∀ j, s.places j = .running (first j) := congrFun hplaces
  have hnone : ∀ j, ¬Counted s j := fun j =>
    not_counted_of (hplace j) (fun _ hl => nomatch hl) (fun _ hl => nomatch hl)
  have hlast : ∀ j, ¬Last s j := fun j => not_last_of (hplace j) (fun _ hl => nomatch hl) (fun _ hl => nomatch hl)
  refine ⟨fun j _ _ hj => ?_, fun j _ _ hj => ?_, fun j hj => absurd hj (hlast j), .inr ?_, fun _ _ _ => hbarrier,
    ⟨⟨0, hn⟩, fun hb => hnone _ (.inl hb)⟩⟩
  · exact nomatch (hplace j).symm.trans hj
  · exact nomatch (hplace j).symm.trans hj
  have hempty : counted s = ∅ := Set.eq_empty_of_forall_notMem hnone
  rw [hbarrier, hempty, Set.ncard_empty]

theorem line_inv (h : PoolInv s) (hline : Line prog s i u) : PoolInv u := by
  cases hline with
  | act hplace _ | single hplace _ _ | enter hplace _ | load hplace =>
    refine h.quiet rfl rfl rfl (not_counted_of hplace ?_ ?_) (not_last_of hplace ?_ ?_) ?_ ?_ ?_ ?_ <;> simp
  | come hplace => exact h.come hplace
  | zero hplace => exact h.zero hplace
  | pass hplace => exact h.pass hplace
  | spin => exact h
  | leave hplace hpassed =>
    refine h.quiet rfl rfl rfl (not_counted_of hplace ?_ ?_) (not_last_of hplace ?_ ?_) ?_ ?_ ?_ ?_ <;>
      simp [Ne.symm hpassed]

theorem view_seat (s : Pool n L M) (i : Fin n) : (view s).seats i = seat s.nBarrierPassed (s.places i) := rfl

theorem view_goto {p : Place L} (hpassed : u.nBarrierPassed = s.nBarrierPassed)
    (hplaces : u.places = Function.update s.places i p) :
    view u = ⟨Function.update (view s).seats i (seat s.nBarrierPassed p), u.mem⟩ := by
  unfold view
  rw [hpassed, hplaces]
  congr 1
  exact Function.comp_update (seat s.nBarrierPassed) s.places i p

theorem view_same {p : Place L} (hpassed : u.nBarrierPassed = s.nBarrierPassed)
    (hplaces : u.places = Function.update s.places i p) (hmem : u.mem = s.mem)
    (h : seat s.nBarrierPassed p = (view s).seats i) : view u = view s := by
  rw [view_goto hpassed hplaces, h, Function.update_eq_self, hmem]
  rfl

theorem view_pass (h : PoolInv s) {l : L} (hplace : s.places i = .addPassed l) :
    Rendezvous.Step prog (view s) .release (view { s.goto i (.running l) with nBarrierPassed := s.nBarrierPassed + 1 }) := by
  have hothers := h.alone i ⟨l, .inr hplace⟩
  have hseat : ∀ j, ∃ next, (view s).seats j = .waiting next ∧
      seat (s.nBarrierPassed + 1) (Function.update s.places i (.running l) j) = .running next := fun j => by
    rw [view_seat]
    by_cases hj : j = i
    · rw [hj, hplace, Function.update_self]
      exact ⟨l, rfl, rfl⟩
    · obtain ⟨next, hnext⟩ := hothers j hj
      rw [Function.update_of_ne hj, hnext]
      exact ⟨next, if_pos rfl, if_neg (succ_ne _)⟩
  choose next hwaiting hrunning using hseat
  have hview : view { s.goto i (.running l) with nBarrierPassed := s.nBarrierPassed + 1 } =
      ⟨fun j => .running (next j), (view s).mem⟩ := by
    unfold view
    congr 1
    exact funext hrunning
  rw [hview]
  exact .release hwaiting

theorem line_view (h : PoolInv s) (hline : Line prog s i u)
    (hs : Reachable (Rendezvous.Started first mem) (Rendezvous.Step prog) (view s)) :
    Reachable (Rendezvous.Started first mem) (Rendezvous.Step prog) (view u) := by
  have hseat := view_seat s i
  cases hline with
  | act hplace hturn =>
    rw [hplace] at hseat
    convert hs.step (.act hseat hturn) using 1
    refine view_goto (p := .running _) ?_ ?_ <;> rfl
  | enter hplace hturn =>
    rw [hplace] at hseat
    convert hs.step (.arrive hseat hturn) using 1
    refine view_goto (p := .loadPassed _) ?_ ?_ <;> rfl
  | @single l next hplace hturn hn =>
    rw [hplace] at hseat
    subst hn
    -- A single thread waits for nobody.
    have hall : ∀ j, Function.update (view s).seats i (.waiting next) j = .waiting next := fun j => by
      rw [Subsingleton.elim j i, Function.update_self]
    have hrunning : Function.update (view s).seats i (.running next) = fun _ => .running next := by
      funext j
      rw [Subsingleton.elim j i, Function.update_self]
    convert (hs.step (.arrive hseat hturn)).step (.release hall) using 1
    rw [← hrunning]
    refine view_goto (p := .running next) ?_ ?_ <;> rfl
  | load hplace =>
    convert hs using 1
    exact view_same rfl rfl rfl (by rw [hseat, hplace]; rfl)
  | @come l nPassed hplace =>
    obtain rfl := h.fresh i l nPassed hplace
    convert hs using 1
    exact view_same rfl rfl rfl (by rw [hseat, hplace]; split_ifs <;> simp [seat])
  | zero hplace =>
    convert hs using 1
    exact view_same rfl rfl rfl (by rw [hseat, hplace]; rfl)
  | pass hplace => exact hs.step (view_pass h hplace)
  | spin => exact hs
  | leave hplace hpassed =>
    convert hs using 1
    exact view_same rfl rfl rfl (by rw [hseat, hplace]; exact (if_neg hpassed).symm)

theorem pool_reachable (hn : 0 < n) (h : Reachable (Started first mem) (Step prog) s) :
    PoolInv s ∧ Reachable (Rendezvous.Started first mem) (Rendezvous.Step prog) (view s) := by
  induction h with
  | @start s h =>
    refine ⟨start_inv hn h, .start ?_⟩
    obtain ⟨-, hplaces, rfl⟩ := h
    unfold Rendezvous.Started view
    congr 1
    funext j
    rw [congrFun hplaces j]
    rfl
  | step _ h ih => exact ⟨line_inv ih.1 (step_line h), line_view ih.1 (step_line h) ih.2⟩

theorem exists_line (hend : ∀ l, s.places i = .running l → prog i l ≠ .halt) :
    ∃ u, Step prog s i u := by
  unfold Step step
  cases hplace : s.places i with
  | running l =>
    dsimp only
    cases hturn : prog i l with
    | act run => exact ⟨_, rfl⟩
    | wait next => exact ⟨_, rfl⟩
    | halt => exact absurd hturn (hend l hplace)
  | loadPassed l => exact ⟨_, rfl⟩
  | addBarrier l nPassed => exact ⟨_, rfl⟩
  | storeZero l => exact ⟨_, rfl⟩
  | addPassed l => exact ⟨_, rfl⟩
  | spin l nPassed => exact ⟨_, rfl⟩

/-- When nobody waits the counter of the threads that have come is zero. -/
theorem PoolInv.nobody (h : PoolInv s) (hrunning : ∀ i, ∃ l, (view s).seats i = .running l) : s.nBarrier = 0 := by
  have hplace : ∀ i p, s.places i = p → ∀ l, seat s.nBarrierPassed p ≠ .waiting l := fun i p hp l hl => by
    obtain ⟨l', hl'⟩ := hrunning i
    rw [view_seat, hp, hl] at hl'
    cases hl'
  have hnone : ∀ i, ¬Counted s i := by
    rintro i (⟨l, hl⟩ | ⟨l, hl⟩)
    · exact hplace i _ hl l (if_pos rfl)
    · exact hplace i _ hl l rfl
  rcases h.counts with ⟨i, l, hl⟩ | hcount
  · exact absurd rfl (hplace i _ hl l)
  · have hempty : counted s = ∅ := Set.eq_empty_of_forall_notMem hnone
    rw [hcount, hempty, Set.ncard_empty]

/-- Where the threads could go on at a rendezvous, they go on here. -/
theorem PoolInv.progress (h : PoolInv s) (hmoves : Moves prog (view s)) : ∃ i, ¬Blocked s i ∧ ∃ u, Step prog s i u := by
  have hwaits : ∀ j, Blocked s j → ∃ l, (view s).seats j = .waiting l := by
    rintro j ⟨l, hl⟩
    rw [view_seat, hl]
    exact ⟨l, if_pos rfl⟩
  have hmove : ∀ j l, (view s).seats j = .running l → prog j l ≠ .halt → ¬Blocked s j ∧ ∃ u, Step prog s j u := by
    intro j l hseat hturn
    have hfree : ¬Blocked s j := fun hb => by
      obtain ⟨l', hl'⟩ := hwaits j hb
      exact nomatch hseat.symm.trans hl'
    refine ⟨hfree, exists_line (fun l' hl' => ?_)⟩
    have hrunning : (view s).seats j = .running l' := by
      rw [view_seat, hl']
      rfl
    rw [← Seat.running.inj (hseat.symm.trans hrunning)]
    exact hturn
  obtain ⟨move, u, hstep⟩ := hmoves
  cases hstep with
  | @act j l run hseat hturn => exact ⟨j, hmove j l hseat (by rw [hturn]; exact fun h => nomatch h)⟩
  | @arrive j l next hseat hturn => exact ⟨j, hmove j l hseat (by rw [hturn]; exact fun h => nomatch h)⟩
  | release hall =>
    obtain ⟨j, hj⟩ := h.open_
    refine ⟨j, hj, exists_line (fun l hl => ?_)⟩
    have hrunning : (view s).seats j = .running l := by
      rw [view_seat, hl]
      rfl
    exact nomatch (hall j).symm.trans hrunning

/-- Whatever the threads do between the barriers and in whatever order they run: what the pool reaches, threads reach
that all meet at each barrier, and the pool stands still only where these do. -/
theorem barrier_meets (hn : 0 < n) (h : Reachable (Started first mem) (Step prog) s) :
    Reachable (Rendezvous.Started first mem) (Rendezvous.Step prog) (view s) ∧
      (Moves prog (view s) → ∃ i, ¬Blocked s i ∧ ∃ u, Step prog s i u) := by
  obtain ⟨hinv, hview⟩ := pool_reachable hn h
  exact ⟨hview, hinv.progress⟩

def meeting : Program 2 ℕ Unit := fun _ l => if l = 0 then .wait 1 else .halt

/-- The first thread spins, the second one comes last; the counter of the barriers passed goes back to zero. -/
theorem meeting_run : ∃ s, Reachable (Started (fun _ => 0) ()) (Step meeting) s ∧ s.nBarrierPassed = 0 ∧
    s.places 0 = .spin 1 (BitVec.allOnes 32) ∧ s.places 1 = .running 1 ∧ s.mem = () := by
  have hrun : ∃ s, [0, 0, 0, 1, 1, 1, 1, 1].foldlM (step meeting) ⟨0, BitVec.allOnes 32, fun _ => .running 0, ()⟩ = some s ∧
      s.nBarrierPassed = 0 ∧ s.places 0 = .spin 1 (BitVec.allOnes 32) ∧ s.places 1 = .running 1 ∧ s.mem = () :=
    ⟨_, rfl, rfl, rfl, rfl, rfl⟩
  obtain ⟨s, hs, hrest⟩ := hrun
  exact ⟨s, Reachable.foldlM (fun _ _ _ => id) (.start ⟨rfl, rfl, rfl⟩) hs, hrest⟩

theorem barrier_meets_pair :
    Reachable (Rendezvous.Started (fun _ => 0) ()) (Rendezvous.Step meeting) ⟨fun _ => .running 1, ()⟩ := by
  obtain ⟨s, hreach, hpassed, hzero, hone, -⟩ := meeting_run
  have hview : view s = ⟨fun _ => .running 1, ()⟩ := by
    unfold view
    congr 1
    funext i
    fin_cases i
    · rw [hpassed]
      exact (congrArg (seat 0) hzero).trans rfl
    · exact (congrArg (seat _) hone).trans rfl
  exact hview ▸ (barrier_meets (by decide) hreach).1

end Lines

end PyannoteCpp.GgmlBarrier
