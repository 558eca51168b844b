import PyannoteCpp.ByteStream

set_option autoImplicit false

/-!
# Readers and the prefixes they take

A reader takes a value off the front of its input or stops with an error. What
it takes, and where it stops with an error of a chosen kind, are languages of
prefixes: the rest of the input does not matter.
-/
namespace PyannoteCpp.PrefixGrammar

variable {σ ε α β S : Type}

abbrev Reader (σ ε α : Type) := StateT (List σ) (Except ε) α

/-- The reader takes exactly the prefixes of `G`. -/
def Accepts (p : Reader σ ε α) (G : α → List σ → Prop) : Prop :=
  ∀ input a rest, p.run input = .ok (a, rest) ↔ ∃ front, G a front ∧ input = front ++ rest

/-- The reader stops with an error of the kind `E` exactly on the prefixes of `B`. -/
def StopsOn (E : ε → Prop) (p : Reader σ ε α) (B : List σ → Prop) : Prop :=
  ∀ input, (∃ e, E e ∧ p.run input = .error e) ↔ ∃ front rest, B front ∧ input = front ++ rest

/-- The reader never stops with an error of the kind `E`. -/
def Safe (E : ε → Prop) (p : Reader σ ε α) : Prop := ∀ input e, p.run input = .error e → ¬E e

theorem Accepts.congr {p : Reader σ ε α} {G H : α → List σ → Prop} (h : Accepts p G)
    (same : ∀ a front, G a front ↔ H a front) : Accepts p H := by
  intro input a rest
  rw [h input a rest]
  simp only [same]

theorem StopsOn.congr {E : ε → Prop} {p : Reader σ ε α} {B C : List σ → Prop} (h : StopsOn E p B)
    (same : ∀ front, B front ↔ C front) : StopsOn E p C := by
  intro input
  rw [h input]
  simp only [same]

theorem accepts_pure (a : α) : Accepts (pure a : Reader σ ε α) (fun b front => b = a ∧ front = []) := by
  intro input b rest
  constructor
  · intro h
    cases h
    exact ⟨[], ⟨rfl, rfl⟩, rfl⟩
  · rintro ⟨_, ⟨rfl, rfl⟩, rfl⟩
    rfl

theorem stopsOn_pure (E : ε → Prop) (a : α) : StopsOn E (pure a : Reader σ ε α) (fun _ => False) := by
  intro input
  constructor
  · rintro ⟨e, -, h⟩
    cases h
  · rintro ⟨_, _, h, -⟩
    exact h.elim

theorem accepts_throw (e : ε) : Accepts (throw e : Reader σ ε α) (fun _ _ => False) := by
  intro input a rest
  constructor
  · intro h
    cases h
  · rintro ⟨_, h, -⟩
    exact h.elim

theorem stopsOn_throw (E : ε → Prop) (e : ε) :
    StopsOn E (throw e : Reader σ ε α) (fun front => E e ∧ front = []) := by
  intro input
  constructor
  · rintro ⟨e', he, h⟩
    cases h
    exact ⟨[], input, ⟨he, rfl⟩, rfl⟩
  · rintro ⟨_, _, ⟨he, -⟩, -⟩
    exact ⟨e, he, rfl⟩

theorem except_bind_ok {x : Except ε α} {k : α → Except ε β} {b : β} :
    x >>= k = .ok b ↔ ∃ a, x = .ok a ∧ k a = .ok b := by
  cases x with
  | error e => exact iff_of_false (by intro h; cases h) (by rintro ⟨_, h, -⟩; cases h)
  | ok a =>
    refine ⟨fun h => ⟨a, rfl, h⟩, ?_⟩
    rintro ⟨_, h, hk⟩
    cases h
    exact hk

theorem except_map_ok {x : Except ε α} {f : α → β} {b : β} : x.map f = .ok b ↔ ∃ a, x = .ok a ∧ f a = b := by
  cases x with
  | error e => exact iff_of_false (by intro h; cases h) (by rintro ⟨_, h, -⟩; cases h)
  | ok a =>
    constructor
    · intro h
      exact ⟨a, rfl, Except.ok.inj h⟩
    · rintro ⟨_, h, hb⟩
      cases h
      exact congrArg Except.ok hb

theorem except_bind_error {x : Except ε α} {k : α → Except ε β} {e : ε} :
    x >>= k = .error e ↔ x = .error e ∨ ∃ a, x = .ok a ∧ k a = .error e := by
  cases x with
  | error e' =>
    refine ⟨fun h => .inl ?_, ?_⟩
    · cases h
      rfl
    · rintro (h | ⟨_, h, -⟩)
      · cases h
        rfl
      · cases h
  | ok a =>
    refine ⟨fun h => .inr ⟨a, rfl, h⟩, ?_⟩
    rintro (h | ⟨_, h, hk⟩)
    · cases h
    · cases h
      exact hk

theorem run_bind_ok {p : Reader σ ε α} {k : α → Reader σ ε β} {input rest : List σ} {b : β} :
    (p >>= k).run input = .ok (b, rest) ↔ ∃ a mid, p.run input = .ok (a, mid) ∧ (k a).run mid = .ok (b, rest) := by
  change (p.run input >>= fun r => (k r.1).run r.2) = _ ↔ _
  rw [except_bind_ok]
  exact Prod.exists

theorem run_bind_error {p : Reader σ ε α} {k : α → Reader σ ε β} {input : List σ} {e : ε} :
    (p >>= k).run input = .error e ↔
      p.run input = .error e ∨ ∃ a mid, p.run input = .ok (a, mid) ∧ (k a).run mid = .error e := by
  change (p.run input >>= fun r => (k r.1).run r.2) = _ ↔ _
  rw [except_bind_error]
  exact or_congr_right Prod.exists

theorem Accepts.bind {p : Reader σ ε α} {k : α → Reader σ ε β} {G : α → List σ → Prop}
    {H : α → β → List σ → Prop} (hp : Accepts p G) (hk : ∀ a, Accepts (k a) (H a)) :
    Accepts (p >>= k) (fun b front => ∃ a f₁ f₂, G a f₁ ∧ H a b f₂ ∧ front = f₁ ++ f₂) := by
  intro input b rest
  rw [run_bind_ok]
  constructor
  · rintro ⟨a, mid, h, hb⟩
    obtain ⟨f₁, hG, rfl⟩ := (hp _ _ _).mp h
    obtain ⟨f₂, hH, rfl⟩ := (hk a _ _ _).mp hb
    exact ⟨f₁ ++ f₂, ⟨a, f₁, f₂, hG, hH, rfl⟩, (List.append_assoc _ _ _).symm⟩
  · rintro ⟨_, ⟨a, f₁, f₂, hG, hH, rfl⟩, rfl⟩
    exact ⟨a, f₂ ++ rest, (hp _ _ _).mpr ⟨f₁, hG, List.append_assoc _ _ _⟩, (hk a _ _ _).mpr ⟨f₂, hH, rfl⟩⟩

theorem StopsOn.bind {E : ε → Prop} {p : Reader σ ε α} {k : α → Reader σ ε β} {G : α → List σ → Prop}
    {B : List σ → Prop} {C : α → List σ → Prop} (hp : Accepts p G) (hs : StopsOn E p B)
    (hk : ∀ a, StopsOn E (k a) (C a)) :
    StopsOn E (p >>= k) (fun front => B front ∨ ∃ a f₁ f₂, G a f₁ ∧ C a f₂ ∧ front = f₁ ++ f₂) := by
  intro input
  simp only [run_bind_error]
  constructor
  · rintro ⟨e, he, h | ⟨a, mid, h, hb⟩⟩
    · obtain ⟨front, rest, hB, rfl⟩ := (hs _).mp ⟨e, he, h⟩
      exact ⟨front, rest, .inl hB, rfl⟩
    · obtain ⟨f₁, hG, rfl⟩ := (hp _ _ _).mp h
      obtain ⟨f₂, rest, hC, rfl⟩ := (hk a _).mp ⟨e, he, hb⟩
      exact ⟨f₁ ++ f₂, rest, .inr ⟨a, f₁, f₂, hG, hC, rfl⟩, (List.append_assoc _ _ _).symm⟩
  · rintro ⟨_, rest, hB | ⟨a, f₁, f₂, hG, hC, rfl⟩, rfl⟩
    · obtain ⟨e, he, h⟩ := (hs _).mpr ⟨_, rest, hB, rfl⟩
      exact ⟨e, he, .inl h⟩
    · obtain ⟨e, he, h⟩ := (hk a _).mpr ⟨f₂, rest, hC, rfl⟩
      exact ⟨e, he, .inr ⟨a, _, (hp _ _ _).mpr ⟨f₁, hG, List.append_assoc _ _ _⟩, h⟩⟩

theorem safe_pure (E : ε → Prop) (a : α) : Safe E (pure a : Reader σ ε α) := by
  intro input e h
  cases h

theorem safe_throw {E : ε → Prop} {e : ε} (h : ¬E e) : Safe E (throw e : Reader σ ε α) := by
  intro input e' hrun
  cases hrun
  exact h

theorem Safe.bind {E : ε → Prop} {p : Reader σ ε α} {k : α → Reader σ ε β} (hp : Safe E p)
    (hk : ∀ a, Safe E (k a)) : Safe E (p >>= k) := by
  intro input e h
  rcases run_bind_error.mp h with hfirst | ⟨a, mid, -, hsecond⟩
  · exact hp _ _ hfirst
  · exact hk a _ _ hsecond

theorem Safe.stopsOn {E : ε → Prop} {p : Reader σ ε α} (h : Safe E p) : StopsOn E p (fun _ => False) := by
  intro input
  refine iff_of_false ?_ (fun ⟨_, _, hf, _⟩ => hf)
  rintro ⟨e, he, hrun⟩
  exact h _ _ hrun he

/-- Behind a reader that never stops so, only the second one can. -/
theorem StopsOn.after {E : ε → Prop} {p : Reader σ ε α} {k : α → Reader σ ε β} {G : α → List σ → Prop}
    {C : α → List σ → Prop} (hp : Accepts p G) (hs : Safe E p) (hk : ∀ a, StopsOn E (k a) (C a)) :
    StopsOn E (p >>= k) (fun front => ∃ a f₁ f₂, G a f₁ ∧ C a f₂ ∧ front = f₁ ++ f₂) :=
  (StopsOn.bind hp hs.stopsOn hk).congr (fun _ => or_iff_right id)

def require (c : Prop) [Decidable c] (e : ε) : Reader σ ε Unit := if c then pure () else throw e

theorem accepts_require (c : Prop) [Decidable c] (e : ε) :
    Accepts (require c e : Reader σ ε Unit) (fun _ front => c ∧ front = []) := by
  unfold require
  split
  · exact (accepts_pure ()).congr (fun _ _ => by simp [*])
  · exact (accepts_throw e).congr (fun _ _ => by simp [*])

theorem safe_require {E : ε → Prop} (c : Prop) [Decidable c] {e : ε} (h : ¬E e) :
    Safe E (require c e : Reader σ ε Unit) := by
  unfold require
  split
  · exact safe_pure E ()
  · exact safe_throw h

theorem stopsOn_require (E : ε → Prop) (c : Prop) [Decidable c] (e : ε) :
    StopsOn E (require c e : Reader σ ε Unit) (fun front => ¬c ∧ E e ∧ front = []) := by
  unfold require
  split
  · exact (stopsOn_pure E ()).congr (fun _ => by simp [*])
  · exact (stopsOn_throw E e).congr (fun _ => by simp [*])

theorem Accepts.map {p : Reader σ ε α} {G : α → List σ → Prop} (hp : Accepts p G) (f : α → β) :
    Accepts (p >>= fun a => pure (f a)) (fun b front => ∃ a, G a front ∧ b = f a) := by
  refine (hp.bind (fun a => accepts_pure (f a))).congr (fun b front => ⟨?_, ?_⟩)
  · rintro ⟨a, f₁, _, hG, ⟨rfl, rfl⟩, rfl⟩
    exact ⟨a, by rwa [List.append_nil], rfl⟩
  · rintro ⟨a, hG, rfl⟩
    exact ⟨a, front, [], hG, ⟨rfl, rfl⟩, (List.append_nil _).symm⟩

theorem StopsOn.map {E : ε → Prop} {p : Reader σ ε α} {G : α → List σ → Prop} {B : List σ → Prop}
    (hp : Accepts p G) (hs : StopsOn E p B) (f : α → β) : StopsOn E (p >>= fun a => pure (f a)) B :=
  (StopsOn.bind hp hs (fun a => stopsOn_pure E (f a))).congr (fun _ => by simp)

theorem Accepts.afterRequire {c : Prop} [Decidable c] {p : Reader σ ε α} {G : α → List σ → Prop} (e : ε)
    (hp : Accepts p G) : Accepts (require c e >>= fun _ => p) (fun a front => c ∧ G a front) := by
  refine ((accepts_require c e).bind (fun _ => hp)).congr (fun a front => ⟨?_, ?_⟩)
  · rintro ⟨_, _, f₂, ⟨hc, rfl⟩, hG, rfl⟩
    exact ⟨hc, hG⟩
  · rintro ⟨hc, hG⟩
    exact ⟨(), [], front, ⟨hc, rfl⟩, hG, rfl⟩

theorem StopsOn.afterRequire {E : ε → Prop} {c : Prop} [Decidable c] {p : Reader σ ε α} {B : List σ → Prop}
    (e : ε) (hs : StopsOn E p B) :
    StopsOn E (require c e >>= fun _ => p) (fun front => (¬c ∧ E e ∧ front = []) ∨ (c ∧ B front)) := by
  refine (StopsOn.bind (accepts_require c e) (stopsOn_require E c e) (fun _ => hs)).congr (fun front => ?_)
  constructor
  · rintro (h | ⟨_, _, f₂, ⟨hc, rfl⟩, hB, rfl⟩)
    · exact .inl h
    · exact .inr ⟨hc, hB⟩
  · rintro (h | ⟨hc, hB⟩)
    · exact .inl h
    · exact .inr ⟨(), [], front, ⟨hc, rfl⟩, hB, rfl⟩

theorem StopsOn.afterCheck {E : ε → Prop} {c : Prop} [Decidable c] {p : Reader σ ε α} {B : List σ → Prop}
    {e : ε} (he : ¬E e) (hs : StopsOn E p B) :
    StopsOn E (require c e >>= fun _ => p) (fun front => c ∧ B front) :=
  (hs.afterRequire e).congr (fun _ => by simp [he])

theorem accepts_lift (x : Except ε α) :
    Accepts (liftM x : Reader σ ε α) (fun a front => x = .ok a ∧ front = []) := by
  cases x with
  | ok v => exact (accepts_pure v).congr (fun a front => by simp [eq_comm])
  | error e => exact (accepts_throw e).congr (fun a front => by simp)

theorem stopsOn_lift (E : ε → Prop) (x : Except ε α) :
    StopsOn E (liftM x : Reader σ ε α) (fun front => (∃ e, E e ∧ x = .error e) ∧ front = []) := by
  cases x with
  | ok v => exact (stopsOn_pure E v).congr (fun front => by simp)
  | error e => exact (stopsOn_throw E e).congr (fun front => by simp)

section Loop

variable (step : S → Reader σ ε S)

/-- A loop that carries a state for a given number of turns. -/
def turns : ℕ → S → Reader σ ε S
  | 0, s => pure s
  | n + 1, s => step s >>= turns n

/-- The prefixes of a number of turns one after another. -/
inductive Turns (G : S → S → List σ → Prop) : ℕ → S → S → List σ → Prop
  | done (s : S) : Turns G 0 s s []
  | next {n : ℕ} {s t u : S} {front back : List σ} (head : G s t front) (tail : Turns G n t u back) :
      Turns G (n + 1) s u (front ++ back)

variable {step}

theorem Turns.invariant {G : S → S → List σ → Prop} {I : ℕ → S → Prop} {n m : ℕ} {s t : S} {front : List σ}
    (h : Turns G n s t front) (hs : I m s)
    (keep : ∀ {m s t front}, I m s → G s t front → I (m + 1) t) : I (m + n) t := by
  induction h generalizing m with
  | done s => exact hs
  | next head _ ih =>
    have hnext := ih (keep hs head)
    rwa [Nat.add_right_comm] at hnext

theorem accepts_turns {G : S → S → List σ → Prop} (h : ∀ s, Accepts (step s) (G s)) (n : ℕ) (s : S) :
    Accepts (turns step n s) (Turns G n s) := by
  induction n generalizing s with
  | zero =>
    refine (accepts_pure s).congr (fun t front => ⟨?_, fun h => ?_⟩)
    · rintro ⟨rfl, rfl⟩
      exact .done t
    · cases h
      exact ⟨rfl, rfl⟩
  | succ n ih =>
    refine ((h s).bind ih).congr (fun u front => ⟨?_, fun h => ?_⟩)
    · rintro ⟨t, f₁, f₂, head, tail, rfl⟩
      exact .next head tail
    · cases h with
      | next head tail => exact ⟨_, _, _, head, tail, rfl⟩

/-- A loop stops in some turn, after turns that succeeded. -/
theorem stopsOn_turns {E : ε → Prop} {G : S → S → List σ → Prop} {B : S → List σ → Prop}
    (h : ∀ s, Accepts (step s) (G s)) (hs : ∀ s, StopsOn E (step s) (B s)) (n : ℕ) (s : S) :
    StopsOn E (turns step n s)
      (fun front => ∃ m < n, ∃ t f₁ f₂, Turns G m s t f₁ ∧ B t f₂ ∧ front = f₁ ++ f₂) := by
  induction n generalizing s with
  | zero => exact (stopsOn_pure E s).congr (fun _ => ⟨False.elim, fun ⟨_, hm, _⟩ => absurd hm (Nat.not_lt_zero _)⟩)
  | succ n ih =>
    refine (StopsOn.bind (h s) (hs s) ih).congr (fun front => ⟨?_, ?_⟩)
    · rintro (hB | ⟨t, f₁, _, head, ⟨m, hm, u, g₁, g₂, tail, hB, rfl⟩, rfl⟩)
      · exact ⟨0, Nat.succ_pos n, s, [], front, .done s, hB, rfl⟩
      · exact ⟨m + 1, Nat.succ_lt_succ hm, u, f₁ ++ g₁, g₂, .next head tail, hB, (List.append_assoc _ _ _).symm⟩
    · rintro ⟨m, hm, t, f₁, f₂, hrun, hB, rfl⟩
      cases hrun with
      | done => exact .inl hB
      | next head tail =>
        exact .inr ⟨_, _, _, head, ⟨_, Nat.lt_of_succ_lt_succ hm, t, _, f₂, tail, hB, rfl⟩, List.append_assoc _ _ _⟩

theorem safe_turns {E : ε → Prop} (h : ∀ s, Safe E (step s)) (n : ℕ) (s : S) : Safe E (turns step n s) := by
  induction n generalizing s with
  | zero => exact safe_pure E s
  | succ n ih => exact (h s).bind ih

end Loop

/-- A loop that appends an element a turn, each of which has its own prefix. -/
theorem turns_append {P : α → Prop} {w : α → List σ} {n : ℕ} {s t : List α} {front : List σ} :
    Turns (fun s t front => ∃ a, (P a ∧ front = w a) ∧ t = s ++ [a]) n s t front ↔
      ∃ as : List α, as.length = n ∧ (∀ a ∈ as, P a) ∧ t = s ++ as ∧ front = as.flatMap w := by
  constructor
  · intro h
    induction h with
    | done s => exact ⟨[], rfl, by simp, (List.append_nil s).symm, rfl⟩
    | next head _ ih =>
      obtain ⟨a, ⟨ha, rfl⟩, rfl⟩ := head
      obtain ⟨as, rfl, has, rfl, rfl⟩ := ih
      exact ⟨a :: as, rfl, List.forall_mem_cons.mpr ⟨ha, has⟩, by simp, by simp⟩
  · rintro ⟨as, hn, has, rfl, rfl⟩
    induction as generalizing n s with
    | nil =>
      cases hn
      simpa using Turns.done s
    | cons a as ih =>
      cases hn
      obtain ⟨ha, has⟩ := List.forall_mem_cons.mp has
      have tail := ih (s := s ++ [a]) rfl has
      rw [List.append_assoc] at tail
      exact .next ⟨a, ⟨ha, rfl⟩, rfl⟩ tail

section Bytes

def readBytes (short : ε) (n : ℕ) : Reader UInt8 ε (List UInt8) := fun input =>
  if n ≤ input.length then .ok (input.take n, input.drop n) else .error short

def readUInt (short : ε) (n : ℕ) : Reader UInt8 ε ℕ := do
  let bytes ← readBytes short n
  pure (leValue bytes)

theorem accepts_readBytes (short : ε) (n : ℕ) :
    Accepts (readBytes short n) (fun bytes front => front = bytes ∧ bytes.length = n) := by
  intro input bytes rest
  change (if n ≤ input.length then _ else _) = _ ↔ _
  constructor
  · intro h
    split at h
    · cases h
      exact ⟨_, ⟨rfl, List.length_take_of_le ‹_›⟩, (List.take_append_drop n input).symm⟩
    · cases h
  · rintro ⟨_, ⟨rfl, rfl⟩, rfl⟩
    rw [if_pos (by simp), List.take_left, List.drop_left]

theorem safe_readBytes {E : ε → Prop} {short : ε} (h : ¬E short) (n : ℕ) : Safe E (readBytes short n) := by
  intro input e hrun
  change (if n ≤ input.length then _ else _) = _ at hrun
  split at hrun
  · cases hrun
  · cases hrun
    exact h

theorem accepts_readUInt (short : ε) (n : ℕ) :
    Accepts (readUInt short n) (fun v front => v < 256 ^ n ∧ front = leBytes n v) := by
  refine ((accepts_readBytes short n).bind (fun bytes => accepts_pure (leValue bytes))).congr (fun v front => ?_)
  constructor
  · rintro ⟨bytes, f₁, f₂, ⟨rfl, rfl⟩, ⟨rfl, rfl⟩, rfl⟩
    rw [List.append_nil]
    exact ⟨leValue_lt _, (leBytes_leValue _).symm⟩
  · rintro ⟨hlt, rfl⟩
    exact ⟨_, _, [], ⟨rfl, leBytes_length n v⟩, ⟨(leValue_leBytes n v hlt).symm, rfl⟩, (List.append_nil _).symm⟩

theorem safe_readUInt {E : ε → Prop} {short : ε} (h : ¬E short) (n : ℕ) : Safe E (readUInt short n) :=
  (safe_readBytes h n).bind (fun _ => safe_pure E _)

end Bytes

end PyannoteCpp.PrefixGrammar
