import PyannoteCpp.StreamingLoop
import PyannoteCpp.StreamingPermutation

set_option autoImplicit false

/-!
# The embeddings the streaming program clusters with

In every chunk that computes embeddings a local speaker gets one of its own
samples, when there are enough of them; the samples are those of the frames it
speaks in, of the frames it speaks in alone when these suffice. Other chunks reuse
for each local speaker the newest embedding there is.
-/
namespace PyannoteCpp.StreamingPipeline
open RoundHalfAway StreamingClustering StreamingLoop

variable {K : Type*} [Field K] [LinearOrder K] {dim : ℕ}

/-- The recording, the options and what the two networks and the filterbank make of samples. -/
structure Pipeline (K : Type*) [Field K] [LinearOrder K] (dim : ℕ) extends Setup where
  data : ℕ → K
  weights : FrameWeights K
  tauActive : K
  tauEmbed : K
  rhoUpdate : K
  deltaNew : K
  embedEvery : ℕ
  runSegmentation : List K → ℕ → Fin 3 → K
  /-- `fbank.size() / 80`. -/
  fbankFrames : List K → ℕ
  getEmbedding : List K → Embedding K dim

namespace Pipeline

variable (p : Pipeline K dim)

def chunkSamples : ℕ := (roundAway (p.duration * p.sampleRate)).toNat

def frameSamples : ℕ := (roundAway (270 / 16000 * p.sampleRate : ℚ)).toNat

def position (k : ℕ) : ℕ := (fun pos => advance pos p.stepSamples)^[k] 0

/-- Padded with zeros behind the end of the recording. -/
def chunk (k : ℕ) : List K :=
  (List.range p.chunkSamples).map (fun i => if p.position k + i < p.samples then p.data (p.position k + i) else 0)

def seg (k t : ℕ) (s : Fin 3) : K := p.runSegmentation (p.chunk k) t s

def computeEmbeddings (k : ℕ) : Bool := p.embedEvery ≤ 1 ∨ k % p.embedEvery = 0

section Selection

variable (k : ℕ) (s : Fin 3)

def minNumFrames : ℤ :=
  ⌈(p.numFrames * roundAway (3 / 10 * p.sampleRate : ℚ) : ℚ) / max 1 p.chunkSamples⌉

def frameSum (t : ℕ) : ℕ := ((List.finRange 3).filter (fun s => p.tauEmbed ≤ p.seg k t s)).length

def maxVal : K := (List.range p.numFrames).foldl (fun m t => max m (p.seg k t s)) 0

def cleanFrames : ℕ :=
  ((List.range p.numFrames).filter (fun t => p.tauEmbed ≤ p.seg k t s ∧ p.frameSum k t = 1)).length

def useClean : Bool := p.minNumFrames ≤ p.cleanFrames k s

/-- The samples of a frame that the chunk has. -/
def frameRange (t : ℕ) : List ℕ :=
  (List.range p.chunkSamples).filter (fun i => t * p.frameSamples ≤ i ∧ i < t * p.frameSamples + p.frameSamples)

def masked : List K :=
  (List.range p.numFrames).flatMap (fun t =>
    if p.seg k t s < p.tauEmbed then []
    else if p.useClean k s ∧ p.frameSum k t ≠ 1 then []
    else (p.frameRange t).filterMap (fun i => (p.chunk k)[i]?))

/-- The embedding of a local speaker, unless the body of the loop is left before it. -/
def fresh : Option (Embedding K dim) :=
  if p.maxVal k s < p.tauEmbed then none
  else if (p.masked k s).length < p.sampleRate / 2 then none
  else if p.fbankFrames (p.masked k s) < 10 then none
  else some (p.getEmbedding (p.masked k s))

end Selection

def absent : Embedding K dim := fun _ => .nan

/-- `last_embeddings` before chunk `k`. -/
def lastEmbeddings : ℕ → Fin 3 → Embedding K dim
  | 0, _ => absent
  | k + 1, s => if p.computeEmbeddings k then (p.fresh k s).getD (lastEmbeddings k s) else lastEmbeddings k s

/-- What chunk `k` is clustered with. -/
def embeddings (k : ℕ) (s : Fin 3) : Embedding K dim :=
  if p.computeEmbeddings k then (p.fresh k s).getD absent else p.lastEmbeddings k s

/-- Chunk `j` made the embedding, and no chunk from there to `k` made a newer one of that local speaker. -/
structure Newest (k j : ℕ) (s : Fin 3) (e : Embedding K dim) : Prop where
  made : p.fresh j s = some e
  computed : p.computeEmbeddings j = true
  none_since : ∀ i, j < i → i < k → p.computeEmbeddings i = true → p.fresh i s = none

variable {p} {k j t : ℕ} {s : Fin 3}

/-- The ledger of a local speaker holds the newest embedding of the chunks before. -/
theorem lastEmbeddings_newest (k : ℕ) (s : Fin 3) :
    (∃ j < k, p.Newest k j s (p.lastEmbeddings k s)) ∨
      (p.lastEmbeddings k s = absent ∧ ∀ i < k, p.computeEmbeddings i = true → p.fresh i s = none) := by
  induction k with
  | zero => exact .inr ⟨rfl, fun i hi => absurd hi (Nat.not_lt_zero i)⟩
  | succ k ih =>
    have hkeep : (p.computeEmbeddings k = true → p.fresh k s = none) → p.lastEmbeddings (k + 1) s = p.lastEmbeddings k s := by
      intro hnone
      rw [lastEmbeddings]
      split_ifs with hcompute
      · rw [hnone hcompute, Option.getD_none]
      · rfl
    have hextend : ∀ q : ℕ → Prop, (∀ i, q i → i < k → p.computeEmbeddings i = true → p.fresh i s = none) →
        (p.computeEmbeddings k = true → p.fresh k s = none) →
        ∀ i, q i → i < k + 1 → p.computeEmbeddings i = true → p.fresh i s = none := by
      intro q hq hnone i hi hlt hcompute
      rcases Nat.lt_succ_iff_lt_or_eq.mp hlt with hlt | rfl
      · exact hq i hi hlt hcompute
      · exact hnone hcompute
    by_cases hmade : p.computeEmbeddings k = true ∧ p.fresh k s ≠ none
    · obtain ⟨hcompute, hsome⟩ := hmade
      obtain ⟨e, he⟩ := Option.ne_none_iff_exists'.mp hsome
      have hlast : p.lastEmbeddings (k + 1) s = e := by rw [lastEmbeddings, if_pos hcompute, he, Option.getD_some]
      rw [hlast]
      exact .inl ⟨k, Nat.lt_succ_self k, he, hcompute, fun i hi hlt => absurd hlt (by omega)⟩
    · have hnone : p.computeEmbeddings k = true → p.fresh k s = none := fun hcompute => by
        by_contra hsome
        exact hmade ⟨hcompute, hsome⟩
      rw [hkeep hnone]
      rcases ih with ⟨j, hj, hnewest⟩ | ⟨habsent, hall⟩
      · refine .inl ⟨j, Nat.lt_succ_of_lt hj, hnewest.made, hnewest.computed, ?_⟩
        exact hextend (fun i => j < i) hnewest.none_since hnone
      · refine .inr ⟨habsent, fun i hi => ?_⟩
        exact hextend (fun _ => True) (fun i _ => hall i) hnone i trivial hi

omit [Field K] [LinearOrder K] in
theorem hasNan_absent (hdim : 0 < dim) : hasNan (absent : Embedding K dim) = true :=
  List.any_eq_true.mpr ⟨⟨0, hdim⟩, List.mem_finRange _, rfl⟩

/-- A usable embedding of a chunk is the newest one of its local speaker, made in the chunk itself where it computes. -/
theorem embeddings_newest (hdim : 0 < dim) (h : hasNan (p.embeddings k s) = false) :
    ∃ j ≤ k, p.Newest (k + 1) j s (p.embeddings k s) ∧ (p.computeEmbeddings k = true → j = k) := by
  unfold embeddings at h ⊢
  split_ifs at h ⊢ with hcompute
  · cases hfresh : p.fresh k s with
    | none =>
      rw [hfresh, Option.getD_none, hasNan_absent hdim] at h
      exact nomatch h
    | some e => exact ⟨k, le_rfl, ⟨hfresh, hcompute, fun i hi hlt => absurd hlt (by omega)⟩, fun _ => rfl⟩
  · rcases lastEmbeddings_newest (p := p) k s with ⟨j, hj, hnewest⟩ | ⟨habsent, -⟩
    · refine ⟨j, hj.le, ⟨hnewest.made, hnewest.computed, fun i hi hlt hi' => ?_⟩, fun hk => absurd hk hcompute⟩
      rcases Nat.lt_succ_iff_lt_or_eq.mp hlt with hlt | rfl
      · exact hnewest.none_since i hi hlt hi'
      · exact absurd hi' hcompute
    · rw [habsent, hasNan_absent hdim] at h
      exact nomatch h

/-- A sample of the recording in a frame of the chunk in which the local speaker speaks. -/
def Spoken (p : Pipeline K dim) (k : ℕ) (s : Fin 3) (x : K) : Prop :=
  ∃ t < p.numFrames, p.tauEmbed ≤ p.seg k t s ∧ (p.useClean k s = true → p.frameSum k t = 1) ∧
    ∃ i < p.chunkSamples, (t * p.frameSamples ≤ i ∧ i < t * p.frameSamples + p.frameSamples) ∧
      x = if p.position k + i < p.samples then p.data (p.position k + i) else 0

theorem mem_masked {x : K} (h : x ∈ p.masked k s) : p.Spoken k s x := by
  obtain ⟨t, ht, hx⟩ := List.mem_flatMap.mp h
  split_ifs at hx with hquiet hshared
  · exact nomatch hx
  · exact nomatch hx
  · obtain ⟨i, hi, hget⟩ := List.mem_filterMap.mp hx
    obtain ⟨hrange, hin⟩ := List.mem_filter.mp hi
    rw [List.mem_range] at hrange
    refine ⟨t, List.mem_range.mp ht, not_lt.mp hquiet, fun hclean => ?_, i, hrange, of_decide_eq_true hin, ?_⟩
    · by_contra hmany
      exact hshared ⟨hclean, hmany⟩
    · have hlength : i < (p.chunk k).length := by
        rw [chunk, List.length_map, List.length_range]
        exact hrange
      rw [List.getElem?_eq_getElem hlength, Option.some.injEq] at hget
      rw [← hget]
      simp only [chunk, List.getElem_map, List.getElem_range]

/-- An embedding is the network's, of at least half a second of the speaker's own samples. -/
theorem fresh_spoken {e : Embedding K dim} (h : p.fresh k s = some e) :
    e = p.getEmbedding (p.masked k s) ∧ p.sampleRate / 2 ≤ (p.masked k s).length ∧ ∀ x ∈ p.masked k s, p.Spoken k s x := by
  unfold fresh at h
  split_ifs at h with hmax hshort hframes
  exact ⟨(Option.some.inj h).symm, not_lt.mp hshort, fun x hx => mem_masked hx⟩

end Pipeline

end PyannoteCpp.StreamingPipeline
