import PyannoteCpp.StreamingActivity
import PyannoteCpp.StreamingClusteringRuns
import PyannoteCpp.StreamingEmbeddings
import PyannoteCpp.StreamingRetention

set_option autoImplicit false

/-!
# What stands behind a reported segment

The whole streaming program: the chunks are segmented, clustered with the embeddings
of their speakers and credited to global speakers, and the activity of these is
aggregated and tracked. At each frame of a reported segment a local speaker of one
of the chunks was active and credited to the reported one.
-/
namespace PyannoteCpp.StreamingPipeline
open ActiveRuns ReachableStates StreamingClustering StreamingLoop

variable {K : Type*} [Field K] [LinearOrder K] {dim : ℕ}

namespace Pipeline

variable (p : Pipeline K dim)

def call (k : ℕ) : Call K dim := ⟨p.numFrames, 3, fun t s => .finite (p.seg k t s), p.embeddings k⟩

/-- The clustering object before each chunk, and the order in which `std::sort` left the pairs, by whatever distance. -/
structure Session where
  distance : Embedding K dim → Embedding K dim → ExactFloat K
  object : ℕ → OnlineSpeakerClustering K p.maxSpeakers dim
  sorted : ℕ → List (Pair K 3 p.maxSpeakers)
  starts : object 0 = .fresh (.finite p.tauActive) (.finite p.rhoUpdate) (.finite p.deltaNew)
  sorts : ∀ k, (object k).Sorts distance (p.call k) (sorted k)
  next : ∀ k, object (k + 1) = ((object k).identify distance (p.call k) (sorted k)).2

namespace Session

variable {p} (c : p.Session)

def mapping (k : ℕ) : Fin 3 → Option (Fin p.maxSpeakers) := ((c.object k).identify c.distance (p.call k) (c.sorted k)).1

def globalSeg (k t g : ℕ) : K :=
  if h : t < p.numFrames ∧ g < p.maxSpeakers then
    ((c.object k).globalSeg c.distance (p.call k) (c.sorted k) ⟨t, h.1⟩ ⟨g, h.2⟩).value
  else 0

def program : Program K := { p.toSetup with weights := p.weights, tauActive := p.tauActive, globalSeg := c.globalSeg }

theorem reachable (k : ℕ) : Reachable Start (Step c.distance) (c.object k) := by
  induction k with
  | zero => exact .start ⟨_, _, _, c.starts⟩
  | succ k ih => exact ih.step (i := p.call k) ⟨c.sorted k, c.sorts k, c.next k⟩

theorem mapped_usable {k : ℕ} {s : Fin 3} {g : Fin p.maxSpeakers} (h : c.mapping k s = some g) :
    hasNan (p.embeddings k s) = false :=
  (finalTable_sound (finiteCenters_reachable (c.reachable k)) (c.sorts k)).mappedFinite s g h

end Session

end Pipeline

section Aggregation

section Levels

variable {numFrames numLocal maxSpeakers : ℕ} {segmentation : Fin numFrames → Fin numLocal → K}
  {mapping : Fin numLocal → Option (Fin maxSpeakers)} {fallbackLocal : Bool} {level : K} {t : Fin numFrames}
  {g : Fin maxSpeakers} {out : Fin numFrames → Fin maxSpeakers → ExactFloat K}

/-- A cell that is not below the level has it from a speaker that is credited there. -/
def Credited (segmentation : Fin numFrames → Fin numLocal → K) (mapping : Fin numLocal → Option (Fin maxSpeakers))
    (fallbackLocal : Bool) (level : K) (t : Fin numFrames) (g : Fin maxSpeakers) (x : ExactFloat K) : Prop :=
  ∃ v, x = .finite v ∧ (level ≤ v → ∃ s, level ≤ segmentation t s ∧ targetColumn mapping fallbackLocal s = some g)

omit [Field K] in
theorem permuteOne_credited (s : Fin numLocal) (h : Credited segmentation mapping fallbackLocal level t g (out t g)) :
    Credited segmentation mapping fallbackLocal level t g
      (permuteOne (fun t s => .finite (segmentation t s)) mapping fallbackLocal out s t g) := by
  obtain ⟨v, hv, hsource⟩ := h
  unfold permuteOne
  cases htarget : targetColumn mapping fallbackLocal s with
  | none => exact ⟨v, hv, hsource⟩
  | some f =>
    by_cases hg : g = f
    · subst hg
      dsimp only
      rw [Function.update_self, hv]
      unfold ExactFloat.max
      split_ifs
      · exact ⟨segmentation t s, rfl, fun hle => ⟨s, hle, htarget⟩⟩
      · exact ⟨v, rfl, hsource⟩
    · dsimp only
      rw [Function.update_of_ne hg]
      exact ⟨v, hv, hsource⟩

theorem permuteSegmentation_credited (hlevel : 0 < level) : Credited segmentation mapping fallbackLocal level t g
    (permuteSegmentation (fun t s => .finite (segmentation t s)) mapping fallbackLocal t g) := by
  unfold permuteSegmentation
  generalize List.finRange numLocal = speakers
  induction speakers using List.reverseRecOn with
  | nil => exact ⟨0, rfl, fun hle => absurd hlevel (not_lt.mpr hle)⟩
  | append_singleton speakers s ih =>
    rw [List.foldl_append, List.foldl_cons, List.foldl_nil]
    exact permuteOne_credited s ih

end Levels

variable [IsStrictOrderedRing K]

theorem aggregateBuffers_source {weights : FrameWeights K} {buffers : List (BufferSeg K)} {focusStart : ℚ} {t s : ℕ} {level : K}
    (hlevel : 0 < level) (h : level ≤ aggregateBuffers weights buffers focusStart t s) :
    ∃ buf ∈ buffers, ∃ src, buf.source focusStart t = some src ∧ level ≤ buf.data src s := by
  by_contra hnone
  push Not at hnone
  have hbelow : ∀ l : List (BufferSeg K), (∀ buf ∈ l, buf ∈ buffers) →
      0 ≤ (sumBuffers weights l focusStart).sumW t ∧
        (sumBuffers weights l focusStart).sum t s ≤ level * (sumBuffers weights l focusStart).sumW t ∧
        (0 < (sumBuffers weights l focusStart).sumW t →
          (sumBuffers weights l focusStart).sum t s < level * (sumBuffers weights l focusStart).sumW t) := by
    intro l hl
    induction l using List.reverseRecOn with
    | nil => exact ⟨le_rfl, by simp [sumBuffers], fun hpos => absurd hpos (lt_irrefl _)⟩
    | append_singleton l buf ih =>
      obtain ⟨hnonneg, hle, hlt⟩ := ih (fun b hb => hl b (List.mem_append_left _ hb))
      unfold sumBuffers at hnonneg hle hlt ⊢
      rw [List.foldl_append, List.foldl_cons, List.foldl_nil]
      simp only [addBuffer]
      cases hsrc : buf.source focusStart t with
      | none => exact ⟨hnonneg, hle, hlt⟩
      | some src =>
        have hdata : buf.data src s < level := hnone buf (hl buf (by simp)) src hsrc
        have hweight := weights.pos buf.numFrames src
        have hscaled := mul_lt_mul_of_pos_left hdata hweight
        dsimp only
        refine ⟨by linarith, by nlinarith, fun _ => by nlinarith⟩
  obtain ⟨hnonneg, hle, hlt⟩ := hbelow buffers (fun _ hb => hb)
  unfold aggregateBuffers at h
  dsimp only at h
  split_ifs at h with hzero
  · rw [le_antisymm hzero hnonneg, mul_zero] at hle
    exact absurd (h.trans hle) (not_le.mpr hlevel)
  · have hpos := not_le.mp hzero
    rw [le_div_iff₀ hpos] at h
    exact absurd (hlt hpos) (not_lt.mpr h)

end Aggregation

namespace Pipeline

section Chunks

variable {p : Pipeline K dim} (c : p.Session) {k : ℕ}

theorem chunk_stateAt (h : c.program.Ran k) :
    (c.program.stateAt k).chunkIndex = k ∧ (c.program.stateAt k).pos = p.position k := by
  induction k with
  | zero => exact ⟨rfl, rfl⟩
  | succ k ih =>
    obtain ⟨hindex, hpos⟩ := ih (h.mono (Nat.le_succ k))
    obtain ⟨hnext, hindex', -⟩ := Program.body_fields (p := c.program) (c.program.stateAt k)
    rw [Program.stateAt_succ (h k (Nat.lt_succ_self k))]
    refine ⟨by rw [hindex', hindex], ?_⟩
    have hposition : p.position (k + 1) = advance (p.position k) p.stepSamples := Function.iterate_succ_apply' _ _ _
    rw [hnext, hpos, hposition]
    rfl

/-- A buffered prediction is that of an earlier chunk or of this one. -/
theorem mem_buffered (h : c.program.Ran k) {buf : BufferSeg K} (hbuf : buf ∈ c.program.buffered (c.program.stateAt k)) :
    ∃ j ≤ k, buf = c.program.pushed (c.program.stateAt j) := by
  obtain ⟨d, hkept⟩ := Program.exists_kept h
  rw [hkept.buffered] at hbuf
  obtain ⟨j, hj, hpushed⟩ := List.mem_map.mp (List.mem_of_mem_drop hbuf)
  exact ⟨j, Nat.le_of_lt_succ (List.mem_range.mp hj), hpushed.symm⟩

omit [Field K] [LinearOrder K] in
theorem source_time {buf : BufferSeg K} {focusStart : ℚ} {t src : ℕ} (hres : 0 < buf.resolution)
    (h : buf.source focusStart t = some src) : src < buf.numFrames ∧
      buf.start + (src + 1 / 2) * buf.resolution ≤ focusStart + (t + 1 / 2) * buf.resolution ∧
      focusStart + (t + 1 / 2) * buf.resolution < buf.start + (src + 3 / 2) * buf.resolution := by
  unfold BufferSeg.source at h
  dsimp only at h
  split_ifs at h with hout
  push Not at hout
  have hsrc : ((src : ℕ) : ℤ) = ⌊(focusStart - buf.start) / buf.resolution⌋ + t := by
    rw [← Option.some.inj h]
    exact Int.toNat_of_nonneg hout.1
  have hlow := Int.floor_le ((focusStart - buf.start) / buf.resolution)
  have hhigh := Int.lt_floor_add_one ((focusStart - buf.start) / buf.resolution)
  have hcast : (⌊(focusStart - buf.start) / buf.resolution⌋ : ℚ) = src - t := by
    have hdiff : ⌊(focusStart - buf.start) / buf.resolution⌋ = src - t := by omega
    rw [hdiff]
    push_cast
    ring
  rw [hcast] at hlow hhigh
  rw [le_div_iff₀ hres] at hlow
  rw [div_lt_iff₀ hres] at hhigh
  refine ⟨by omega, by linarith, by linarith⟩

end Chunks

section Reports

variable {p : Pipeline K dim} (c : p.Session) {n : ℕ}

/-- At that time a local speaker of chunk `k` is active and credited to the global speaker. -/
structure Backed (k t : ℕ) (s : Fin 3) (g : ℕ) (time : ℚ) : Prop where
  frame : t < p.numFrames
  from_start : p.position k / p.sampleRate + (t + 1 / 2) * p.segResolution ≤ time
  to_stop : time < p.position k / p.sampleRate + (t + 3 / 2) * p.segResolution
  active : p.tauActive ≤ p.seg k t s
  credited : (∃ hg : g < p.maxSpeakers, c.mapping k s = some ⟨g, hg⟩) ∨ (c.mapping k s = none ∧ s.val = g)

variable {c}

theorem globalSeg_backed (htau : 0 < p.tauActive) {k t g : ℕ} (h : p.tauActive ≤ c.globalSeg k t g) :
    ∃ s, p.tauActive ≤ p.seg k t s ∧
      ((∃ hg : g < p.maxSpeakers, c.mapping k s = some ⟨g, hg⟩) ∨ (c.mapping k s = none ∧ s.val = g)) := by
  unfold Session.globalSeg at h
  split_ifs at h with hcell
  · obtain ⟨v, hv, hsource⟩ : Credited (fun (t : Fin p.numFrames) s => p.seg k t s) (c.mapping k) true p.tauActive ⟨t, hcell.1⟩
      ⟨g, hcell.2⟩ ((c.object k).globalSeg c.distance (p.call k) (c.sorted k) ⟨t, hcell.1⟩ ⟨g, hcell.2⟩) :=
        permuteSegmentation_credited htau
    have hvalue : ((c.object k).globalSeg c.distance (p.call k) (c.sorted k) ⟨t, hcell.1⟩ ⟨g, hcell.2⟩).value = v :=
      congrArg ExactFloat.value hv
    rw [hvalue] at h
    obtain ⟨s, hactive, htarget⟩ := hsource h
    refine ⟨s, hactive, (targetColumn_some htarget).imp (fun hmapped => ⟨hcell.2, hmapped⟩) (fun hlocal => ?_)⟩
    exact ⟨hlocal.1, hlocal.2.2⟩
  · exact absurd htau (not_lt.mpr h)

theorem fed_backed [IsStrictOrderedRing K] (htau : 0 < p.tauActive) (h : c.program.Tiled) {f : ℚ × (ℕ → Bool)} (hf : f ∈ c.program.fed n) {g : ℕ}
    (hactive : f.2 g = true) : ∃ k < n, ∃ t s, Backed c k t s g f.1 := by
  obtain ⟨i, hi, hf⟩ := List.mem_flatMap.mp hf
  rw [List.mem_range] at hi
  split_ifs at hf with hrunning
  · obtain ⟨u, hu, rfl⟩ := List.mem_map.mp hf
    have hran := Program.ran_of_running hrunning
    obtain ⟨buf, hbuf, src, hsrc, hlevel⟩ := aggregateBuffers_source htau (of_decide_eq_true hactive)
    obtain ⟨k, hk, rfl⟩ := mem_buffered c hran hbuf
    obtain ⟨hindex, hpos⟩ := chunk_stateAt c (hran.mono hk)
    obtain ⟨hframe, hfrom, hto⟩ := source_time h.resolution_pos hsrc
    change p.tauActive ≤ c.globalSeg (c.program.stateAt k).chunkIndex src g at hlevel
    rw [hindex] at hlevel
    obtain ⟨s, hspeaks, hcredited⟩ := globalSeg_backed htau hlevel
    refine ⟨k, hk.trans_lt hi, src, s, hframe, ?_, ?_, hspeaks, hcredited⟩
    · rw [← hpos]
      exact hfrom
    · rw [← hpos]
      exact hto
  · exact nomatch hf

/-- At every frame in a reported segment its speaker was active. -/
theorem reported_active (h : c.program.Tiled) (clock : (∃ m : ℤ, p.step * p.sampleRate = m) ∨ c.program.Segmented)
    {seg : Segment} (hseg : seg ∈ c.program.output (c.program.stateAt n)) {f : ℚ × (ℕ → Bool)} (hf : f ∈ c.program.fed n)
    (hstart : seg.start ≤ f.1) (hstop : f.1 < seg.stop) : f.2 seg.speaker = true := by
  obtain ⟨hspeaker, hfinish⟩ := (Program.mem_output (Program.printed_speaker n)).mp hseg
  have hrising := h.speakerFrames_rising clock n seg.speaker
  have hview : Tracker.view seg.speaker (c.program.stateAt n).tracker = scan (c.program.speakerFrames n seg.speaker) :=
    Program.view_stateAt hspeaker n
  have hreported := reported_scan c.program.endTime hrising
  rw [← hview] at hreported
  generalize hl : c.program.speakerFrames n seg.speaker = l at hreported hrising
  have hmem : (f.1, f.2 seg.speaker) ∈ l := hl ▸ List.mem_map_of_mem hf
  obtain ⟨t, ht, hget⟩ := List.mem_iff_getElem.mp hmem
  have htime : timeAt c.program.endTime l t = f.1 := by simp [timeAt, List.getElem?_eq_getElem ht, hget]
  have hvalue : activeAt l t = f.2 seg.speaker := by simp [activeAt, List.getElem?_eq_getElem ht, hget]
  rw [← htime] at hstart hstop
  rw [← hvalue]
  exact hreported.inside hrising hfinish ht hstart hstop

/-- At every frame in a reported segment a local speaker of a chunk is active that was credited to the reported one: mapped
to it by the clustering of that chunk, with an embedding of its own newest speech, or left unmapped with its number. -/
theorem reports_backed [IsStrictOrderedRing K] (c : p.Session) (hdim : 0 < dim) (htau : 0 < p.tauActive) (h : c.program.Tiled)
    (clock : (∃ m : ℤ, p.step * p.sampleRate = m) ∨ c.program.Segmented) (n : ℕ) {seg : Segment}
    (hseg : seg ∈ c.program.output (c.program.stateAt n)) {f : ℚ × (ℕ → Bool)} (hf : f ∈ c.program.fed n)
    (hstart : seg.start ≤ f.1) (hstop : f.1 < seg.stop) :
    ∃ k < n, ∃ t s, Backed c k t s seg.speaker f.1 ∧
      (c.mapping k s ≠ none → ∃ j ≤ k, p.Newest (k + 1) j s (p.embeddings k s) ∧ (p.computeEmbeddings k = true → j = k) ∧
        p.embeddings k s = p.getEmbedding (p.masked j s) ∧ p.sampleRate / 2 ≤ (p.masked j s).length ∧
        ∀ x ∈ p.masked j s, p.Spoken j s x) := by
  obtain ⟨k, hk, t, s, hbacked⟩ := fed_backed htau h hf (reported_active h clock hseg hf hstart hstop)
  refine ⟨k, hk, t, s, hbacked, fun hmapped => ?_⟩
  obtain ⟨g, hg⟩ := Option.ne_none_iff_exists'.mp hmapped
  obtain ⟨j, hj, hnewest, hsame⟩ := embeddings_newest hdim (c.mapped_usable hg)
  obtain ⟨hvalue, hlength, hspoken⟩ := fresh_spoken hnewest.made
  exact ⟨j, hj, hnewest, hsame, hvalue, hlength, hspoken⟩

end Reports

section Monologue

/-- Half a second with one speaker, whose chunk the network knows by its first sample. -/
def monologue : Pipeline ℚ 1 where
  sampleRate := 30
  samples := 15
  duration := 1 / 2
  step := 1 / 2
  latencyOption := -1
  numFrames := 15
  maxSpeakers := 2
  data i := if i = 0 then 1 else 0
  weights := .even
  tauActive := 3 / 5
  tauEmbed := 3 / 10
  rhoUpdate := 3 / 10
  deltaNew := 1
  embedEvery := 1
  runSegmentation samples _ s := if samples.head? = some 1 ∧ s.val = 1 then 1 else 0
  fbankFrames _ := 10
  getEmbedding samples := fun _ => .finite samples.sum

def monologueObject : ℕ → OnlineSpeakerClustering ℚ 2 1
  | 0 => .fresh (.finite (3 / 5)) (.finite (3 / 10)) (.finite 1)
  | k + 1 => ((monologueObject k).identify cosineDistance (monologue.call k) []).2

theorem monologue_position (k : ℕ) : monologue.position k = 15 * k := by
  have hstep : monologue.stepSamples = 15 := by decide +kernel
  induction k with
  | zero => rfl
  | succ k ih =>
    have hnext : monologue.position (k + 1) = advance (monologue.position k) monologue.stepSamples :=
      Function.iterate_succ_apply' _ _ _
    rw [hnext, ih, hstep, advance, if_pos (by omega)]
    omega

theorem monologue_silent (k t : ℕ) (s : Fin 3) : monologue.seg (k + 1) t s = 0 := by
  refine if_neg (fun h => ?_)
  have hsize : monologue.chunkSamples = 15 := by decide +kernel
  have hhead : (monologue.chunk (k + 1)).head? = some 0 := by
    rw [chunk, hsize, monologue_position, List.head?_map, List.head?_range, if_neg (by decide), Option.map_some,
      if_neg (by change ¬15 * (k + 1) + 0 < 15; omega)]
  rw [hhead] at h
  exact absurd h.1 (by decide)

theorem monologue_tau (k : ℕ) : (monologueObject k).tauActive = .finite (3 / 5) := by
  cases k with
  | zero => rfl
  | succ k => exact monologue_tau k

theorem monologue_pairs (k : ℕ) : (monologueObject k).pairs cosineDistance (monologue.call k) = [] := by
  cases k with
  | zero => rfl
  | succ k =>
    have hmax : ∀ s, (monologue.call (k + 1)).maxVal s = .finite 0 := fun s => by
      unfold Call.maxVal
      induction List.finRange (monologue.call (k + 1)).numFrames with
      | nil => rfl
      | cons t l ih =>
        have hcell : (monologue.call (k + 1)).segmentation t s = .finite 0 :=
          congrArg ExactFloat.finite (monologue_silent k t s)
        have hkeep : (0 : ExactFloat ℚ).max (.finite 0) = 0 := ite_self _
        rw [List.foldl_cons, hcell, hkeep, ih]
    have hactive : (monologueObject (k + 1)).activeSpeakers (monologue.call (k + 1)) = [] := by
      refine List.filter_eq_nil_iff.mpr (fun s _ => ?_)
      rw [hmax, monologue_tau, ExactFloat.finite_le]
      norm_num
    unfold OnlineSpeakerClustering.pairs
    rw [hactive]
    cases (monologueObject (k + 1)).centers <;> rfl

theorem monologue_sorts (k : ℕ) : (monologueObject k).Sorts cosineDistance (monologue.call k) [] := by
  rw [OnlineSpeakerClustering.Sorts, monologue_pairs]
  exact ⟨List.Perm.nil, fun _ => ⟨List.Perm.nil, List.Pairwise.nil⟩⟩

theorem monologue_starts : monologueObject 0 = .fresh (.finite monologue.tauActive) (.finite monologue.rhoUpdate)
    (.finite monologue.deltaNew) := rfl

theorem monologue_next (k : ℕ) : monologueObject (k + 1) = ((monologueObject k).identify cosineDistance (monologue.call k) []).2 := rfl

def monologueSession : monologue.Session where
  distance := cosineDistance
  object := monologueObject
  sorted _ := []
  starts := monologue_starts
  sorts := monologue_sorts
  next := monologue_next

theorem monologue_tiled : monologueSession.program.Tiled where
  sampleRate_pos := by decide
  numFrames_pos := by decide
  step_pos := by decide +kernel
  step_le := by decide +kernel
  latency_le := by decide +kernel

theorem monologue_step : monologue.step * monologue.sampleRate = (15 : ℤ) := by decide +kernel

theorem monologue_output : (monologueSession.program.output (monologueSession.program.stateAt 1)).map
    (fun seg => (seg.start, seg.stop, seg.speaker)) = [(1 / 60, 1 / 2, 0)] := by decide +kernel

theorem monologue_fed : (monologueSession.program.fed 1).head?.map (fun f => (f.1, f.2 0)) = some (1 / 60, true) := by
  decide +kernel

theorem reports_backed_monologue : ∃ k t s, Backed monologueSession k t s 0 (1 / 60) ∧
    (monologueSession.mapping k s ≠ none → ∃ j ≤ k, monologue.embeddings k s = monologue.getEmbedding (monologue.masked j s)) ∧
    monologueSession.mapping 0 1 ≠ none := by
  have hmem : ((1 / 60, 1 / 2, 0) : ℚ × ℚ × ℕ) ∈ (monologueSession.program.output (monologueSession.program.stateAt 1)).map
      (fun seg => (seg.start, seg.stop, seg.speaker)) := by
    rw [monologue_output]
    exact List.mem_singleton_self _
  obtain ⟨⟨start, stop, speaker⟩, hseg, hfields⟩ := List.mem_map.mp hmem
  obtain ⟨hstart, hfields⟩ := Prod.ext_iff.mp hfields
  obtain ⟨hstop, hspeaker⟩ := Prod.ext_iff.mp hfields
  dsimp only at hstart hstop hspeaker
  subst hstart hstop hspeaker
  obtain ⟨⟨time, row⟩, hfirst, htime⟩ := Option.map_eq_some_iff.mp monologue_fed
  obtain ⟨htime, -⟩ := Prod.ext_iff.mp htime
  dsimp only at htime
  subst htime
  obtain ⟨k, -, t, s, hbacked, hmapped⟩ := reports_backed monologueSession Nat.one_pos (by decide +kernel) monologue_tiled
    (Or.inl ⟨15, monologue_step⟩) 1 hseg (List.mem_of_mem_head? hfirst) le_rfl (by norm_num)
  refine ⟨k, t, s, hbacked, fun hk => ?_, by decide +kernel⟩
  obtain ⟨j, hj, -, -, hvalue, -⟩ := hmapped hk
  exact ⟨j, hj, hvalue⟩

end Monologue

end Pipeline

end PyannoteCpp.StreamingPipeline
