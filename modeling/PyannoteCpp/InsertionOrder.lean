import Mathlib.Data.List.Nodup

set_option autoImplicit false

/-!
# Insertion-ordered maps

A finite map as the list of its entries, whose keys are distinct. A change takes the
entries of some keys out, keeps the others in their order and puts new entries at the
back. What a run of changes leaves under a key is what the last change of that key put
there.
-/
namespace PyannoteCpp.InsertionOrder

variable {α K : Type*} [DecidableEq K] (key : α → K)

structure Change (α K : Type*) where
  keys : List K
  entries : List α

/-- The keys that a change writes are among those that it touches. -/
structure Change.Proper (c : Change α K) : Prop where
  covered : ∀ e ∈ c.entries, key e ∈ c.keys
  distinct : (c.entries.map key).Nodup

def Change.apply (c : Change α K) (l : List α) : List α := l.filter (fun e => key e ∉ c.keys) ++ c.entries

def remove (k : K) : Change α K := ⟨[k], []⟩

def puts (es : List α) : Change α K := ⟨es.map key, es⟩

def put (e : α) : Change α K := puts key [e]

def keep : Change α K := ⟨[], []⟩

def run (cs : List (Change α K)) (l : List α) : List α := cs.foldl (fun l c => c.apply key l) l

/-- What a change leaves under a key. -/
def Change.value (c : Change α K) (k : K) (old : Option α) : Option α :=
  if k ∈ c.keys then c.entries.find? (fun e => key e = k) else old

def lastWrite (cs : List (Change α K)) (l : List α) (k : K) : Option α :=
  cs.foldl (fun old c => c.value key k old) (l.find? (fun e => key e = k))

section Changes

variable {key} {l : List α}

omit [DecidableEq K] in
theorem puts_proper {es : List α} (h : (es.map key).Nodup) : (puts key es).Proper key :=
  ⟨fun _ he => List.mem_map_of_mem he, h⟩

omit [DecidableEq K] in
theorem put_proper (e : α) : (put key e).Proper key := puts_proper (List.nodup_singleton _)

omit [DecidableEq K] in
theorem remove_proper (k : K) : (remove k : Change α K).Proper key := ⟨fun _ he => (nomatch he), List.nodup_nil⟩

omit [DecidableEq K] in
theorem keep_proper : (keep : Change α K).Proper key := ⟨fun _ he => (nomatch he), List.nodup_nil⟩

@[simp] theorem keep_apply (l : List α) : (keep : Change α K).apply key l = l := by
  simp [Change.apply, keep]

theorem apply_distinct {c : Change α K} (hc : c.Proper key) (h : (l.map key).Nodup) : ((c.apply key l).map key).Nodup := by
  unfold Change.apply
  rw [List.map_append]
  refine List.nodup_append.mpr ⟨h.sublist (List.filter_sublist.map key), hc.distinct, ?_⟩
  rintro k hold k' hnew rfl
  obtain ⟨e, he, rfl⟩ := List.mem_map.mp hold
  obtain ⟨e', he', hsame⟩ := List.mem_map.mp hnew
  exact of_decide_eq_true (List.mem_filter.mp he).2 (hsame ▸ hc.covered e' he')

theorem remove_absent {k : K} (h : ∀ e ∈ l, key e ≠ k) : (remove k : Change α K).apply key l = l := by
  unfold Change.apply remove
  rw [List.append_nil]
  exact List.filter_eq_self.mpr fun e he => by simpa using h e he

theorem remove_entry {l₁ l₂ : List α} {e : α} (h : ((l₁ ++ e :: l₂).map key).Nodup) :
    (remove (key e) : Change α K).apply key (l₁ ++ e :: l₂) = l₁ ++ l₂ := by
  rw [List.map_append, List.map_cons] at h
  obtain ⟨-, hlater, hearlier⟩ := List.nodup_append.mp h
  have hrest : ∀ e' ∈ l₁ ++ l₂, key e' ≠ key e := by
    intro e' he' hsame
    rcases List.mem_append.mp he' with hleft | hright
    · exact hearlier _ (List.mem_map_of_mem hleft) _ List.mem_cons_self hsame
    · exact (List.nodup_cons.mp hlater).1 (hsame ▸ List.mem_map_of_mem hright)
  conv_rhs => rw [← remove_absent hrest]
  unfold Change.apply remove
  rw [List.filter_append, List.filter_append, List.filter_cons_of_neg (by simp)]

omit [DecidableEq K] in
theorem eq_of_key (h : (l.map key).Nodup) {e e' : α} (he : e ∈ l) (he' : e' ∈ l) (hkey : key e = key e') : e = e' :=
  List.inj_on_of_nodup_map h he he' hkey

theorem find_iff (h : (l.map key).Nodup) {k : K} {e : α} :
    l.find? (fun e => key e = k) = some e ↔ e ∈ l ∧ key e = k := by
  constructor
  · intro hfind
    exact ⟨List.mem_of_find?_eq_some hfind, by simpa using List.find?_some hfind⟩
  · rintro ⟨he, rfl⟩
    cases hfind : l.find? (fun e' => key e' = key e) with
    | none => simpa using List.find?_eq_none.mp hfind e he
    | some e' =>
      have hkey : key e' = key e := by simpa using List.find?_some hfind
      rw [eq_of_key h (List.mem_of_find?_eq_some hfind) he hkey]

theorem value_find {c : Change α K} (hc : c.Proper key) (k : K) :
    (c.apply key l).find? (fun e => key e = k) = c.value key k (l.find? fun e => key e = k) := by
  unfold Change.apply Change.value
  rw [List.find?_append, List.find?_filter]
  split
  · rename_i hk
    have hold : l.find? (fun e => decide (key e ∉ c.keys ∧ decide (key e = k) = true)) = none :=
      List.find?_eq_none.mpr fun e _ => by
        rw [decide_eq_true_iff, decide_eq_true_iff]
        rintro ⟨hout, rfl⟩
        exact hout hk
    simp only [decide_eq_true_eq] at hold ⊢
    rw [hold, Option.none_or]
  · rename_i hk
    have hnew : c.entries.find? (fun e => key e = k) = none :=
      List.find?_eq_none.mpr fun e he => by
        rw [decide_eq_true_iff]
        rintro rfl
        exact hk (hc.covered e he)
    rw [hnew, Option.or_none]
    congr 1
    funext e
    simp only [decide_eq_true_eq, decide_eq_decide]
    constructor
    · exact fun h => h.2
    · rintro rfl
      exact ⟨hk, rfl⟩

end Changes

section Runs

variable {key} {l : List α} {cs : List (Change α K)}

theorem run_distinct (hcs : ∀ c ∈ cs, c.Proper key) (h : (l.map key).Nodup) : ((run key cs l).map key).Nodup := by
  unfold run
  induction cs generalizing l with
  | nil => exact h
  | cons c cs ih =>
    obtain ⟨hc, hcs⟩ := List.forall_mem_cons.mp hcs
    exact ih hcs (apply_distinct hc h)

theorem run_find (hcs : ∀ c ∈ cs, c.Proper key) (k : K) :
    (run key cs l).find? (fun e => key e = k) = lastWrite key cs l k := by
  unfold run lastWrite
  induction cs generalizing l with
  | nil => rfl
  | cons c cs ih =>
    obtain ⟨hc, hcs⟩ := List.forall_mem_cons.mp hcs
    rw [List.foldl_cons, List.foldl_cons, ih hcs, value_find hc]

theorem mem_run_iff (hcs : ∀ c ∈ cs, c.Proper key) (h : (l.map key).Nodup) (e : α) :
    e ∈ run key cs l ↔ lastWrite key cs l (key e) = some e := by
  rw [← run_find hcs, find_iff (run_distinct hcs h)]
  exact (and_iff_left rfl).symm

theorem foldl_put {es : List α} (h : (es.map key).Nodup) (l : List α) :
    es.foldl (fun l e => (put key e).apply key l) l = (puts key es).apply key l := by
  induction es generalizing l with
  | nil => simp [puts, Change.apply]
  | cons e es ih =>
    obtain ⟨hnew, hrest⟩ := List.nodup_cons.mp h
    have hstay : decide (key e ∉ es.map key) = true := decide_eq_true hnew
    have hsame : ∀ e', (decide (key e' ∉ es.map key) && decide (key e' ∉ [key e])) = decide (key e' ∉ key e :: es.map key) := by
      intro e'
      simp only [List.mem_cons, ← Bool.decide_and]
      exact decide_eq_decide.mpr (by tauto)
    have hlast : [e].filter (fun e' => decide (key e' ∉ es.map key)) = [e] := List.filter_cons_of_pos hstay
    rw [List.foldl_cons, ih hrest]
    change (l.filter (fun e' => decide (key e' ∉ [key e])) ++ [e]).filter (fun e' => decide (key e' ∉ es.map key)) ++ es =
      l.filter (fun e' => decide (key e' ∉ key e :: es.map key)) ++ e :: es
    rw [List.filter_append, List.filter_filter, hlast, List.append_assoc,
      List.singleton_append, List.filter_congr fun e' _ => hsame e']

end Runs

end PyannoteCpp.InsertionOrder
