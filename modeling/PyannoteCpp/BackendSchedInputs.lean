import PyannoteCpp.BackendSched
import PyannoteCpp.CheckedLoops

set_option autoImplicit false

/-!
# The inputs of a split

A source is looked up, copied if its backend cannot serve the split, and listed.
A split lists a source once, so the table fills with the distinct sources that
have no copy yet.
-/
namespace PyannoteCpp.BackendSched

open CheckedLoops

theorem card_filter_insert {s : Finset ℕ} {p p' : ℕ → Bool} (t : ℕ) (h : ∀ u, p' u = true ↔ p u = true ∧ u ≠ t) :
    {u ∈ insert t s | p u = true}.card = (if p t then 1 else 0) + {u ∈ s | p' u = true}.card := by
  have hrest : {u ∈ s | p' u = true} = {u ∈ s | p u = true}.erase t := by
    ext u
    simp [h]
    tauto
  rw [Finset.filter_insert, hrest]
  by_cases ht : p t
  · have hcard := Finset.card_erase_add_one (Finset.mem_insert_self t {u ∈ s | p u = true})
    rw [Finset.erase_insert_eq_erase] at hcard
    rw [if_pos ht, if_pos ht]
    omega
  · rw [if_neg ht, if_neg ht, Finset.erase_eq_of_notMem (by simp [ht])]
    omega

def Source.tensor? : Source → Option ℕ
  | .tensor t => some t
  | .copy _ _ _ => none

section source

variable (sched : Sched) (graph : Cgraph) (ids : BackendIds) (st : SplitState)

/-- The split has to list the source. -/
def needsCopy (t : ℕ) : Bool :=
  isForeign sched graph ids st.split.backendId t && (st.copies t st.split.backendId).isNone

/-- The source is a graph input that is not in the table of graph inputs yet. -/
def needsRow (t : ℕ) : Bool :=
  (graph.tensor t).input && decide (1 < sched.nCopies) && (ids t).any (fun b => (st.copies t b).isNone)

def newInputs (srcs : List Source) : Finset ℕ :=
  {t ∈ (srcs.filterMap Source.tensor?).toFinset | needsCopy sched graph ids st t}

def newGraphInputs (srcs : List Source) : Finset ℕ :=
  {t ∈ (srcs.filterMap Source.tensor?).toFinset | needsRow sched graph ids st t}

/-- The sources have a backend, and the table of graph inputs takes the graph inputs among them. -/
def Admitted (srcs : List Source) : Prop :=
  (∀ src ∈ srcs, ∃ t, src = .tensor t ∧ (ids t).isSome) ∧
    st.graphInputs.length + (newGraphInputs sched graph ids st srcs).card ≤ ggmlSchedMaxSplitInputs

def registered (t b : ℕ) : SplitState := if needsRow sched graph ids st t then putGraphInput sched st t b else st

def listed (t : ℕ) : SplitState := if needsCopy sched graph ids st t then putInput st t else st

/-- The state after a source, when the tables have room. -/
def taken (t b : ℕ) : SplitState := listed sched graph ids (registered sched graph ids st t b) t

def takenAs (t b : ℕ) : Source :=
  if isForeign sched graph ids st.split.backendId t then copyOf sched (taken sched graph ids st t b) t else .tensor t

end source

variable {sched : Sched} {graph : Cgraph} {ids : BackendIds} {st st' : SplitState} {t b u : ℕ}

theorem needsRow_eq (ht : ids t = some b) :
    needsRow sched graph ids st t = true ↔
      (graph.tensor t).input = true ∧ 1 < sched.nCopies ∧ (st.copies t b).isNone = true := by
  simp [needsRow, ht, and_assoc]

theorem isForeign_ne (h : isForeign sched graph ids b t = true) : ids t ≠ some b := by
  simp [isForeign] at h
  exact h.1

theorem setCopies_self {row : ℕ → Source} : setCopies st t b row t b = some row := by
  simp [setCopies]

theorem setCopies_ne {row : ℕ → Source} {c : ℕ} (h : ¬(u = t ∧ c = b)) :
    setCopies st t b row u c = st.copies u c := by
  unfold setCopies
  by_cases hu : u = t
  · subst hu
    rw [Function.update_self, Function.update_of_ne (fun hc => h ⟨rfl, hc⟩)]
  · rw [Function.update_of_ne hu]

theorem registered_split : (registered sched graph ids st t b).split = st.split := by
  unfold registered
  split <;> rfl

theorem needsCopy_registered (ht : ids t = some b) :
    needsCopy sched graph ids (registered sched graph ids st t b) u = needsCopy sched graph ids st u := by
  unfold needsCopy
  rw [registered_split]
  cases hf : isForeign sched graph ids st.split.backendId u with
  | false => rfl
  | true =>
    have hne := isForeign_ne hf
    have hcell : (registered sched graph ids st t b).copies u st.split.backendId =
        st.copies u st.split.backendId := by
      unfold registered
      split
      · refine setCopies_ne ?_
        rintro ⟨rfl, hb⟩
        exact hne (hb ▸ ht)
      · rfl
    rw [hcell]

theorem takeSource_none {src : Source} (h : src.tensor?.bind ids = none) :
    takeSource sched graph ids st src = .error .srcBackend := by
  cases src with
  | copy t b c => rfl
  | tensor t =>
    have ht : ids t = none := h
    simp [takeSource, ht]

theorem takeSource_eq (ht : ids t = some b) :
    takeSource sched graph ids st (.tensor t) =
      if needsRow sched graph ids st t ∧ ggmlSchedMaxSplitInputs ≤ st.graphInputs.length then .error .graphInputs
      else if needsCopy sched graph ids st t ∧ ggmlSchedMaxSplitInputs ≤ st.split.inputs.length then
        .error .splitInputs
      else .ok (taken sched graph ids st t b, takenAs sched graph ids st t b) := by
  have hregister : registerInput sched graph st t b =
      if needsRow sched graph ids st t ∧ ggmlSchedMaxSplitInputs ≤ st.graphInputs.length then .error .graphInputs
      else .ok (registered sched graph ids st t b) := by
    unfold registerInput registered addGraphInput
    simp only [← @needsRow_eq sched graph ids st t b ht]
    by_cases hrow : needsRow sched graph ids st t
    · by_cases hroom : st.graphInputs.length < ggmlSchedMaxSplitInputs
      · simp [hrow, hroom]
      · simp [hrow, hroom, Nat.not_lt.1 hroom]
    · simp [hrow]
  simp only [takeSource, ht, hregister]
  by_cases hfull : needsRow sched graph ids st t ∧ ggmlSchedMaxSplitInputs ≤ st.graphInputs.length
  · rw [if_pos hfull, if_pos hfull]
  rw [if_neg hfull, if_neg hfull]
  have hcopy := @needsCopy_registered sched graph ids st t b t ht
  have hsplit := @registered_split sched graph ids st t b
  simp only [takenAs, taken, listed, copyInput, addInput, hcopy, hsplit]
  cases hf : isForeign sched graph ids st.split.backendId t with
  | false =>
    have hno : needsCopy sched graph ids st t = false := by simp [needsCopy, hf]
    simp [hno]
  | true =>
    have hnone : ((registered sched graph ids st t b).copies t st.split.backendId).isNone =
        needsCopy sched graph ids st t := by
      rw [← hcopy, needsCopy, hsplit, hf, Bool.true_and]
    rw [hnone]
    by_cases hneed : needsCopy sched graph ids st t
    · by_cases hroom : st.split.inputs.length < ggmlSchedMaxSplitInputs
      · simp [hneed, hroom]
      · simp [hneed, hroom, Nat.not_lt.1 hroom]
    · simp [hneed]

/-! What a source leaves for the next ones. -/

theorem needsCopy_listed : needsCopy sched graph ids (listed sched graph ids st t) u = true ↔
    needsCopy sched graph ids st u = true ∧ u ≠ t := by
  unfold listed
  split
  · by_cases hu : u = t
    · subst hu
      have hself : needsCopy sched graph ids (putInput st u) u = false := by
        simp [needsCopy, putInput, listInput, setCopies_self]
      simp [hself]
    · simp [needsCopy, putInput, listInput, setCopies_ne (fun h => hu h.1), hu]
  · rename_i hneed
    constructor
    · intro hu
      refine ⟨hu, ?_⟩
      rintro rfl
      exact hneed hu
    · exact And.left

theorem needsCopy_taken (ht : ids t = some b) :
    needsCopy sched graph ids (taken sched graph ids st t b) u = true ↔
      needsCopy sched graph ids st u = true ∧ u ≠ t := by
  rw [taken, needsCopy_listed, needsCopy_registered ht]

theorem taken_copies_ne {c : ℕ} (h : u ≠ t) : (taken sched graph ids st t b).copies u c = st.copies u c := by
  unfold taken listed registered
  split <;> split <;> simp only [putInput, putGraphInput, setCopies_ne (fun h' => h h'.1)]

theorem taken_row (ht : ids t = some b) :
    (taken sched graph ids st t b).copies t b = (registered sched graph ids st t b).copies t b := by
  unfold taken listed
  split
  · rename_i hneed
    refine setCopies_ne ?_
    rintro ⟨-, hb⟩
    have hforeign := isForeign_ne (Bool.and_eq_true_iff.1 hneed).1
    exact hforeign (hb ▸ ht)
  · rfl

theorem needsRow_taken (ht : ids t = some b) :
    needsRow sched graph ids (taken sched graph ids st t b) u = true ↔
      needsRow sched graph ids st u = true ∧ u ≠ t := by
  by_cases hu : u = t
  · subst hu
    refine iff_of_false ?_ (fun h => h.2 rfl)
    intro hrow
    obtain ⟨hin, hcopies, hnone⟩ := (needsRow_eq ht).1 hrow
    rw [taken_row ht] at hnone
    by_cases hold : needsRow sched graph ids st u = true
    · rw [registered, if_pos hold] at hnone
      simp [putGraphInput, setCopies_self] at hnone
    · rw [registered, if_neg hold] at hnone
      exact hold ((needsRow_eq ht).2 ⟨hin, hcopies, hnone⟩)
  · simp only [needsRow, taken_copies_ne hu]
    simp [hu]

theorem taken_inputs (ht : ids t = some b) : (taken sched graph ids st t b).split.inputs.length =
    st.split.inputs.length + if needsCopy sched graph ids st t then 1 else 0 := by
  rw [← @needsCopy_registered sched graph ids st t b t ht, ← @registered_split sched graph ids st t b]
  unfold taken listed
  split
  · simp [putInput, listInput]
  · omega

theorem taken_graphInputs : (taken sched graph ids st t b).graphInputs.length =
    st.graphInputs.length + if needsRow sched graph ids st t then 1 else 0 := by
  have hlisted : (taken sched graph ids st t b).graphInputs = (registered sched graph ids st t b).graphInputs := by
    unfold taken listed
    split <;> rfl
  rw [hlisted]
  unfold registered
  split
  · simp [putGraphInput]
  · omega

theorem newInputs_cons {rest : List Source} (ht : ids t = some b) :
    (newInputs sched graph ids st (.tensor t :: rest)).card =
      (if needsCopy sched graph ids st t then 1 else 0) +
        (newInputs sched graph ids (taken sched graph ids st t b) rest).card := by
  unfold newInputs
  rw [List.filterMap_cons_some (show Source.tensor? (.tensor t) = some t from rfl), List.toFinset_cons]
  exact card_filter_insert t (fun u => needsCopy_taken ht)

theorem newGraphInputs_cons {rest : List Source} (ht : ids t = some b) :
    (newGraphInputs sched graph ids st (.tensor t :: rest)).card =
      (if needsRow sched graph ids st t then 1 else 0) +
        (newGraphInputs sched graph ids (taken sched graph ids st t b) rest).card := by
  unfold newGraphInputs
  rw [List.filterMap_cons_some (show Source.tensor? (.tensor t) = some t from rfl), List.toFinset_cons]
  exact card_filter_insert t (fun u => needsRow_taken ht)

theorem admitted_cons {rest : List Source} (ht : ids t = some b) :
    Admitted sched graph ids st (.tensor t :: rest) ↔
      Admitted sched graph ids (taken sched graph ids st t b) rest := by
  unfold Admitted
  rw [newGraphInputs_cons ht, taken_graphInputs]
  constructor
  · rintro ⟨hassigned, hroom⟩
    exact ⟨fun src hsrc => hassigned src (List.mem_cons_of_mem _ hsrc), by omega⟩
  · rintro ⟨hassigned, hroom⟩
    refine ⟨?_, by omega⟩
    intro src hsrc
    rcases List.mem_cons.1 hsrc with rfl | hsrc
    · exact ⟨t, rfl, by rw [ht]; rfl⟩
    · exact hassigned src hsrc

theorem newInputs_nil : (newInputs sched graph ids st []).card = 0 := by simp [newInputs]

theorem newGraphInputs_nil : (newGraphInputs sched graph ids st []).card = 0 := by simp [newGraphInputs]

/-- What holds of the two tables before every source. -/
def InRange (st : SplitState) : Prop :=
  st.split.inputs.length ≤ ggmlSchedMaxSplitInputs ∧ st.graphInputs.length ≤ ggmlSchedMaxSplitInputs

/-- Some of the first sources overrun the table, and no other check stops there. -/
def Overrun (sched : Sched) (graph : Cgraph) (ids : BackendIds) (st : SplitState) (srcs : List Source) : Prop :=
  ∃ first, first <+: srcs ∧ Admitted sched graph ids st first ∧
    ggmlSchedMaxSplitInputs < st.split.inputs.length + (newInputs sched graph ids st first).card

theorem overrun_cons {src : Source} {rest : List Source} (hfill : InRange st) :
    Overrun sched graph ids st (src :: rest) ↔
      ∃ first, first <+: rest ∧ Admitted sched graph ids st (src :: first) ∧
        ggmlSchedMaxSplitInputs < st.split.inputs.length + (newInputs sched graph ids st (src :: first)).card := by
  constructor
  · rintro ⟨first, hfirst, hadmit, hover⟩
    cases first with
    | nil =>
      have hfill := hfill.1
      rw [newInputs_nil] at hover
      omega
    | cons head tail =>
      obtain ⟨rfl, htail⟩ := List.cons_prefix_cons.1 hfirst
      exact ⟨tail, htail, hadmit, hover⟩
  · rintro ⟨first, hfirst, hadmit, hover⟩
    exact ⟨src :: first, List.cons_prefix_cons.2 ⟨rfl, hfirst⟩, hadmit, hover⟩

theorem takeSource_ok {src src' : Source} (h : takeSource sched graph ids st src = .ok (st', src')) :
    ∃ t b, src = .tensor t ∧ ids t = some b ∧ st' = taken sched graph ids st t b ∧
      src' = takenAs sched graph ids st t b ∧
      (needsRow sched graph ids st t = true → st.graphInputs.length < ggmlSchedMaxSplitInputs) ∧
      (needsCopy sched graph ids st t = true → st.split.inputs.length < ggmlSchedMaxSplitInputs) := by
  cases hid : src.tensor?.bind ids with
  | none =>
    rw [takeSource_none hid] at h
    cases h
  | some b =>
    obtain ⟨t, hsrc, ht⟩ := Option.bind_eq_some_iff.1 hid
    have hsrc : src = .tensor t := by
      cases src with
      | tensor u => cases hsrc; rfl
      | copy _ _ _ => cases hsrc
    subst hsrc
    rw [takeSource_eq ht] at h
    split at h
    · cases h
    · rename_i hrow
      split at h
      · cases h
      · rename_i hfull
        cases h
        exact ⟨t, b, rfl, ht, rfl, rfl, fun hn => Nat.not_le.1 (fun hle => hrow ⟨hn, hle⟩),
          fun hn => Nat.not_le.1 (fun hle => hfull ⟨hn, hle⟩)⟩

theorem inRange_taken (ht : ids t = some b) (h : InRange st)
    (hrow : needsRow sched graph ids st t = true → st.graphInputs.length < ggmlSchedMaxSplitInputs)
    (hcopy : needsCopy sched graph ids st t = true → st.split.inputs.length < ggmlSchedMaxSplitInputs) :
    InRange (taken sched graph ids st t b) := by
  unfold InRange
  rw [taken_inputs ht, taken_graphInputs]
  have h1 := h.1
  have h2 := h.2
  constructor
  · split
    · exact hcopy ‹_›
    · omega
  · split
    · exact hrow ‹_›
    · omega

theorem takeSources_overrun {srcs : List Source} (h : InRange st) :
    takeSources sched graph ids st srcs = .error .splitInputs ↔ Overrun sched graph ids st srcs := by
  induction srcs generalizing st with
  | nil =>
    refine iff_of_false (by intro h; cases h) ?_
    rintro ⟨first, hfirst, -, hover⟩
    have hfill := h.1
    rw [List.prefix_nil.1 hfirst, newInputs_nil] at hover
    omega
  | cons src rest ih =>
    rw [overrun_cons h]
    unfold takeSources
    cases hid : src.tensor?.bind ids with
    | none =>
      rw [takeSource_none hid]
      refine iff_of_false (by intro h; cases h) ?_
      rintro ⟨first, -, hadmit, -⟩
      obtain ⟨t, rfl, ht⟩ := hadmit.1 _ List.mem_cons_self
      have hid : ids t = none := hid
      rw [hid] at ht
      cases ht
    | some b =>
      obtain ⟨t, hsrc, ht⟩ := Option.bind_eq_some_iff.1 hid
      have hsrc : src = .tensor t := by
        cases src with
        | tensor u => cases hsrc; rfl
        | copy _ _ _ => cases hsrc
      subst hsrc
      have hrow := @taken_graphInputs sched graph ids st t b
      have hfill := @taken_inputs sched graph ids st t b ht
      have hgraph := h.2
      simp only [admitted_cons ht, newInputs_cons ht]
      rw [takeSource_eq ht]
      by_cases hfull : needsRow sched graph ids st t ∧ ggmlSchedMaxSplitInputs ≤ st.graphInputs.length
      · rw [if_pos hfull]
        refine iff_of_false (by intro h; cases h) ?_
        rintro ⟨first, -, hadmit, -⟩
        have hroom := hadmit.2
        rw [hrow, if_pos hfull.1] at hroom
        omega
      rw [if_neg hfull]
      have hadd : needsRow sched graph ids st t = true → st.graphInputs.length < ggmlSchedMaxSplitInputs :=
        fun hneed => Nat.not_le.1 (fun hle => hfull ⟨hneed, hle⟩)
      by_cases hover : needsCopy sched graph ids st t ∧ ggmlSchedMaxSplitInputs ≤ st.split.inputs.length
      · rw [if_pos hover]
        refine iff_of_true rfl ⟨[], List.nil_prefix, ⟨by simp, ?_⟩, by rw [if_pos hover.1]; omega⟩
        rw [newGraphInputs_nil, hrow]
        split
        · exact hadd ‹_›
        · omega
      rw [if_neg hover]
      have hcopy : needsCopy sched graph ids st t = true → st.split.inputs.length < ggmlSchedMaxSplitInputs :=
        fun hneed => Nat.not_le.1 (fun hle => hover ⟨hneed, hle⟩)
      have htaken := inRange_taken ht h hadd hcopy
      have hrest := ih htaken
      simp only [Overrun, hfill, Nat.add_assoc] at hrest
      rw [← hrest]
      dsimp only
      cases takeSources sched graph ids (taken sched graph ids st t b) rest with
      | error e => rfl
      | ok r => exact iff_of_false (by intro h; cases h) (by intro h; cases h)

theorem takeSources_ok {srcs srcs' : List Source} (h : takeSources sched graph ids st srcs = .ok (st', srcs')) :
    srcs'.length = srcs.length ∧ st'.srcs = st.srcs ∧ (InRange st → InRange st') := by
  induction srcs generalizing st srcs' with
  | nil =>
    cases h
    exact ⟨rfl, rfl, id⟩
  | cons src rest ih =>
    unfold takeSources at h
    cases hsource : takeSource sched graph ids st src with
    | error e => rw [hsource] at h; cases h
    | ok r =>
      obtain ⟨mid, src'⟩ := r
      rw [hsource] at h
      cases hrest : takeSources sched graph ids mid rest with
      | error e => simp only [hrest] at h; cases h
      | ok r =>
        obtain ⟨last, rest'⟩ := r
        simp only [hrest] at h
        cases h
        obtain ⟨hlength, hsame, hrange⟩ := ih hrest
        obtain ⟨t, b, rfl, ht, rfl, -, hrow, hcopy⟩ := takeSource_ok hsource
        refine ⟨by simp [hlength], hsame.trans ?_, fun hst => hrange (inRange_taken ht hst hrow hcopy)⟩
        unfold taken listed registered
        split <;> split <;> rfl

/-! A node that stays in the split. -/

/-- The node stays in the current split, and the split lists its sources that have no copy. -/
def Room (sched : Sched) (graph : Cgraph) (ids : BackendIds) (st : SplitState) (node : ℕ) : Prop :=
  isViewNode graph node = false → ids node = some st.split.backendId → needNewSplit sched graph ids st node = false →
    ∀ first, first <+: st.srcs node → Admitted sched graph ids st first →
      st.split.inputs.length + (newInputs sched graph ids st first).card ≤ ggmlSchedMaxSplitInputs

/-- What holds before every node. -/
def Bounded (st : SplitState) : Prop := InRange st ∧ ∀ node, (st.srcs node).length ≤ ggmlMaxSrc

theorem inRange_enterSplit {i node : ℕ} (h : InRange st) : InRange (enterSplit sched graph ids st i node b) := by
  unfold enterSplit
  split
  · exact ⟨Nat.zero_le _, h.2⟩
  · exact h

theorem enterSplit_srcs {i node : ℕ} : (enterSplit sched graph ids st i node b).srcs = st.srcs := by
  unfold enterSplit
  split <;> rfl

theorem newInputs_le {srcs : List Source} : (newInputs sched graph ids st srcs).card ≤ srcs.length :=
  calc (newInputs sched graph ids st srcs).card
    _ ≤ (srcs.filterMap Source.tensor?).toFinset.card := Finset.card_filter_le _ _
    _ ≤ (srcs.filterMap Source.tensor?).length := List.toFinset_card_le _
    _ ≤ srcs.length := List.length_filterMap_le _ _

theorem splitNode_bounded {entry : ℕ × ℕ} (h : Bounded st) (hnode : splitNode sched graph ids st entry = .ok st') :
    Bounded st' := by
  unfold splitNode at hnode
  split at hnode
  · cases hnode
    exact h
  cases hb : ids entry.1 with
  | none => rw [hb] at hnode; cases hnode
  | some b =>
    simp only [hb] at hnode
    cases htake : takeSources sched graph ids (enterSplit sched graph ids st entry.2 entry.1 b) (st.srcs entry.1) with
    | error e => rw [htake] at hnode; cases hnode
    | ok r =>
      obtain ⟨mid, srcs⟩ := r
      rw [htake] at hnode
      cases hnode
      obtain ⟨hlength, hsame, hrange⟩ := takeSources_ok htake
      refine ⟨hrange (inRange_enterSplit h.1), ?_⟩
      intro node
      change (Function.update mid.srcs entry.1 srcs node).length ≤ ggmlMaxSrc
      rw [Function.update_apply]
      split
      · rw [hlength]
        exact h.2 entry.1
      · rw [hsame, enterSplit_srcs]
        exact h.2 node

theorem splitStart_bounded : Bounded (splitStart sched graph ids) := by
  refine ⟨⟨Nat.zero_le _, Nat.zero_le _⟩, ?_⟩
  intro node
  change ((graph.tensor node).src.map Source.tensor).length ≤ ggmlMaxSrc
  rw [List.length_map]
  exact (graph.tensor node).src_le

/-- A new split has room for every node, so only a node that stays can overrun the table. -/
theorem enterSplit_overrun {i node : ℕ} (h : Bounded st) (hview : isViewNode graph node = false)
    (hb : ids node = some b) :
    Overrun sched graph ids (enterSplit sched graph ids st i node b) (st.srcs node) ↔
      ¬Room sched graph ids st node := by
  unfold enterSplit
  by_cases hnew : b ≠ st.split.backendId ∨ needNewSplit sched graph ids st node = true
  · rw [if_pos hnew]
    refine iff_of_false ?_ (fun hroom => hroom ?_)
    · rintro ⟨first, hfirst, -, hover⟩
      have hle := @newInputs_le sched graph ids (startSplit st i b) first
      have hlength := hfirst.length_le
      have hsrcs := h.2 node
      change ggmlSchedMaxSplitInputs < 0 + _ at hover
      unfold ggmlSchedMaxSplitInputs at hover
      unfold ggmlMaxSrc at hsrcs
      omega
    · intro _ hsame hstay
      rw [hb] at hsame
      rcases hnew with hne | hneed
      · exact absurd (Option.some.inj hsame) hne
      · rw [hstay] at hneed
        cases hneed
  · rw [if_neg hnew]
    obtain ⟨hsame, hstay⟩ := not_or.1 hnew
    have hsame := not_not.1 hsame
    have hstay := Bool.eq_false_iff.2 hstay
    subst hsame
    unfold Room Overrun
    constructor
    · rintro ⟨first, hfirst, hadmit, hover⟩ hroom
      have hle := hroom hview hb hstay first hfirst hadmit
      omega
    · intro hroom
      by_contra hno
      refine hroom ?_
      intro _ _ _ first hfirst hadmit
      by_contra hover
      exact hno ⟨first, hfirst, hadmit, Nat.not_le.1 hover⟩

theorem splitNode_overrun {i node : ℕ} (h : Bounded st) :
    splitNode sched graph ids st (node, i) = .error .splitInputs ↔ ¬Room sched graph ids st node := by
  unfold splitNode
  cases hview : isViewNode graph node with
  | true =>
    refine iff_of_false (by intro h; cases h) (fun hroom => hroom ?_)
    intro hno
    rw [hview] at hno
    cases hno
  | false =>
    cases hb : ids node with
    | none =>
      refine iff_of_false (by intro h; cases h) (fun hroom => hroom ?_)
      intro _ hsome
      rw [hb] at hsome
      cases hsome
    | some b =>
      rw [← enterSplit_overrun h hview hb, ← takeSources_overrun (inRange_enterSplit h.1)]
      dsimp only
      cases takeSources sched graph ids (enterSplit sched graph ids st i node b) (st.srcs node) with
      | error e => simp
      | ok r => simp

/-- The state of pass 5 before the node at a position. -/
def StateBefore (sched : Sched) (graph : Cgraph) (ids : BackendIds) (i : ℕ) (st : SplitState) : Prop :=
  (graph.nodes.zipIdx.take i).foldlM (splitNode sched graph ids) (splitStart sched graph ids) = .ok st

theorem stateBefore_bounded {i : ℕ} (h : StateBefore sched graph ids i st) : Bounded st :=
  foldlM_steps (I := fun _ st => Bounded st) (fun _ _ _ _ hst hnode => splitNode_bounded hst hnode)
    splitStart_bounded h

/-- No split overruns its table of inputs exactly when every node that stays in a split has room there. -/
theorem splitNodes_inputs (sched : Sched) (graph : Cgraph) (ids : BackendIds) :
    splitNodes sched graph ids ≠ .error .splitInputs ↔
      ∀ i node st, graph.nodes[i]? = some node → StateBefore sched graph ids i st → Room sched graph ids st node := by
  unfold splitNodes
  rw [Ne, foldlM_error_iff]
  constructor
  · intro h i node st hnode hst
    by_contra hroom
    refine h ⟨i, (node, i), st, ?_, hst, (splitNode_overrun (stateBefore_bounded hst)).2 hroom⟩
    simp [List.getElem?_zipIdx, hnode]
  · rintro h ⟨i, entry, st, hentry, hst, hstop⟩
    obtain ⟨node, hnode, rfl⟩ := Option.map_eq_some_iff.1 ((List.getElem?_zipIdx ..).symm.trans hentry)
    exact (splitNode_overrun (stateBefore_bounded hst)).1 hstop (h i node st hnode hst)

/-- A first backend and the one of the host, which do not read each other's memory. -/
def twoBackends : Sched :=
  { nBackends := 2, bufts := id, supportsOp := fun _ _ => true, supportsBuft := fun b buft => b == buft,
    offloadOp := fun _ _ => false, buftIsHost := fun buft => buft == 1, opOffload := false, nCopies := 1,
    curCopy := 0, curCopy_lt := Nat.one_pos, lastBackend := 0 }

def inputLeaf : Tensor := ⟨.none, true, [], Nat.zero_le _, none, none⟩

def sumNode (a b : ℕ) : Tensor := ⟨.add, false, [a, b], by simp [ggmlMaxSrc], none, none⟩

/-- Sums of inputs of the graph. The first fifteen read twenty-nine inputs and the last one two more. -/
def sumGraph : Cgraph :=
  ⟨fun t => if t < 14 then sumNode (16 + 2 * t) (17 + 2 * t)
    else if t = 14 then sumNode 44 16 else if t = 15 then sumNode 45 46 else inputLeaf,
    List.range 16, (List.range 31).map (16 + ·)⟩

def firstNode : BackendIds := fun t => if t = 0 then some 0 else none

theorem error_of_stops {α : Type} {x : Except SchedAbort α} {e : SchedAbort} (h : x.map (fun _ => ()) = .error e) :
    x = .error e := by
  cases x with
  | error e' => exact congrArg Except.error (Except.error.inj h)
  | ok a => cases h

theorem sumGraph_overruns : splitGraph twoBackends sumGraph firstNode = .error .splitInputs :=
  error_of_stops (by decide +kernel)

end PyannoteCpp.BackendSched
