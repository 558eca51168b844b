import PyannoteCpp.ReachableStates
import Mathlib.Tactic

set_option autoImplicit false

/-!
# Threads that meet at barriers

Every thread runs a program of its own over one memory. The actions of the
threads interleave in any order. At a barrier a thread waits until all of them
wait, and then all go on at once.
-/
namespace PyannoteCpp.Rendezvous
open ReachableStates

variable {n : ℕ} {L M : Type*}

/-- What a thread does next. -/
inductive Turn (L M : Type*) where
  | act (run : M → L × M)
  | wait (next : L)
  | halt

abbrev Program (n : ℕ) (L M : Type*) := Fin n → L → Turn L M

inductive Seat (L : Type*) where
  | running (l : L)
  | waiting (l : L)

structure Hall (n : ℕ) (L M : Type*) where
  seats : Fin n → Seat L
  mem : M

inductive Move (n : ℕ) where
  | thread (i : Fin n)
  | release

inductive Step (prog : Program n L M) : Hall n L M → Move n → Hall n L M → Prop where
  | act {s : Hall n L M} {i : Fin n} {l : L} {run : M → L × M} (hseat : s.seats i = .running l)
      (hturn : prog i l = .act run) :
      Step prog s (.thread i) ⟨Function.update s.seats i (.running (run s.mem).1), (run s.mem).2⟩
  | arrive {s : Hall n L M} {i : Fin n} {l next : L} (hseat : s.seats i = .running l)
      (hturn : prog i l = .wait next) :
      Step prog s (.thread i) ⟨Function.update s.seats i (.waiting next), s.mem⟩
  | release {s : Hall n L M} {next : Fin n → L} (hall : ∀ i, s.seats i = .waiting (next i)) :
      Step prog s .release ⟨fun i => .running (next i), s.mem⟩

def Started (first : Fin n → L) (mem : M) (s : Hall n L M) : Prop := s = ⟨fun i => .running (first i), mem⟩

/-- Some thread can do something, or all threads leave a barrier. -/
def Moves (prog : Program n L M) (s : Hall n L M) : Prop := ∃ move u, Step prog s move u

/-- Every thread came to the end of its program. -/
def Halted (prog : Program n L M) (s : Hall n L M) : Prop := ∀ i, ∃ l, s.seats i = .running l ∧ prog i l = .halt

section Rounds

variable {prog : Program n L M} {ok : Fin n → L → Prop} {rounds : Fin n → L → ℕ} {first : Fin n → L} {mem : M}
  {s u : Hall n L M} {i : Fin n}

/-- A place that a thread can come to tells how many barriers lie behind the thread. -/
structure Counts (prog : Program n L M) (ok : Fin n → L → Prop) (rounds : Fin n → L → ℕ) : Prop where
  act : ∀ {i l run}, ok i l → prog i l = .act run → ∀ mem, rounds i (run mem).1 = rounds i l
  wait : ∀ {i l next}, ok i l → prog i l = .wait next → rounds i next = rounds i l + 1

def Seat.place : Seat L → L
  | .running l => l
  | .waiting l => l

def Placed (ok : Fin n → L → Prop) (s : Hall n L M) : Prop := ∀ i, ok i (s.seats i).place

/-- All threads have the same number of barriers behind them. -/
def InRound (rounds : Fin n → L → ℕ) (s : Hall n L M) (r : ℕ) : Prop :=
  ∀ i, (∀ l, s.seats i = .running l → rounds i l = r) ∧ ∀ l, s.seats i = .waiting l → rounds i l = r + 1

theorem Placed.update (h : Placed ok s) {seat : Seat L} {mem : M} (hseat : ok i seat.place) :
    Placed ok ⟨Function.update s.seats i seat, mem⟩ := by
  intro j
  by_cases hj : j = i
  · subst hj
    simpa only [Function.update_self] using hseat
  · simpa only [Function.update_of_ne hj] using h j

theorem Placed.running (h : Placed ok s) {l : L} (hseat : s.seats i = .running l) : ok i l := by
  have hplace := h i
  rwa [hseat] at hplace

theorem Placed.waiting (h : Placed ok s) {l : L} (hseat : s.seats i = .waiting l) : ok i l := by
  have hplace := h i
  rwa [hseat] at hplace

theorem InRound.update {r : ℕ} (h : InRound rounds s r) {seat : Seat L} {mem : M}
    (hrunning : ∀ l, seat = .running l → rounds i l = r) (hwaiting : ∀ l, seat = .waiting l → rounds i l = r + 1) :
    InRound rounds ⟨Function.update s.seats i seat, mem⟩ r := by
  intro j
  by_cases hj : j = i
  · subst hj
    simpa only [Function.update_self] using And.intro hrunning hwaiting
  · simpa only [Function.update_of_ne hj] using h j

/-- A step leaves all threads in one round: in the same one, or in the next one after a barrier. -/
theorem InRound.step (hcount : Counts prog ok rounds) (hplaced : Placed ok s) {r : ℕ} (h : InRound rounds s r)
    {move : Move n} (hstep : Step prog s move u) :
    InRound rounds u (match move with | .thread _ => r | .release => r + 1) := by
  cases hstep with
  | @act i l run hseat hturn =>
    refine h.update (fun l' hl' => ?_) (fun l' hl' => nomatch hl')
    rw [← Seat.running.inj hl', hcount.act (hplaced.running hseat) hturn]
    exact (h i).1 l hseat
  | @arrive i l next hseat hturn =>
    refine h.update (fun l' hl' => nomatch hl') (fun l' hl' => ?_)
    rw [← Seat.waiting.inj hl', hcount.wait (hplaced.running hseat) hturn, (h i).1 l hseat]
  | @release next hall =>
    refine fun i => ⟨fun l' hl' => ?_, fun l' hl' => nomatch hl'⟩
    rw [← Seat.running.inj hl']
    exact (h i).2 (next i) (hall i)

theorem started_inRound {r : ℕ} (hfirst : ∀ i, rounds i (first i) = r) (h : Started first mem s) : InRound rounds s r := by
  subst h
  exact fun i => ⟨fun l hl => by rw [← Seat.running.inj hl]; exact hfirst i, fun l hl => nomatch hl⟩

end Rounds

end PyannoteCpp.Rendezvous
