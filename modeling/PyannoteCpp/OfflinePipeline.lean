import PyannoteCpp.TimelineGrid
import PyannoteCpp.TimelineMerge

set_option autoImplicit false

/-!
# The offline program from the samples to the printed turns

Chunks are segmented, each run of frames in which a local speaker is active gives
an embedding when it is long enough, the embeddings are labelled, and the activity
of the pairs of a chunk and a local speaker is credited to the labels. Networks,
filterbank and clustering are functions of what they are called with.
-/
namespace PyannoteCpp.OfflinePipeline
open ActiveRuns TimelineAccumulation TimelineAssignment TimelineGrid TimelineSegments

variable {K E : Type*} [Field K] [LinearOrder K]

/-- An embedding that was pushed, with the run of frames it was made of. -/
structure Extracted (E : Type*) extends ChunkEmbedding where
  pos : ℕ
  run : ℕ × ℕ
  embedding : E

structure Program (K E : Type*) [Field K] [LinearOrder K] where
  totalSamples : ℕ
  data : ℕ → K
  numFrames : ℕ
  /-- The softmax of the segmentation network. -/
  probs : List K → ℕ → Posterior K
  useEmbedding : Bool
  /-- `fbank.size() / 80`. -/
  fbankFrames : List K → ℕ
  getEmbedding : List K → E
  /-- No value is NaN or infinite. -/
  ok : E → Bool
  /-- The labels of the clustering. -/
  cluster : (n : ℕ) → (Fin n → E) → Fin n → ℕ

namespace Program

variable (p : Program K E)

/-- The positions and indices of the chunks, from `pos` on. -/
def chunksFrom (totalSamples pos chunkIdx : ℕ) : List (ℕ × ℕ) :=
  if pos < totalSamples then
    if min windowSamples (totalSamples - pos) < windowSamples / 2 then []
    else (pos, chunkIdx) :: chunksFrom totalSamples (pos + stepSamples) (chunkIdx + 1)
  else []
  termination_by totalSamples - pos
  decreasing_by
    have hstep : stepSamples = 16000 := rfl
    omega

def chunks : List (ℕ × ℕ) := chunksFrom p.totalSamples 0 0

/-- Padded with zeros behind the end of the recording. -/
def chunkWav (pos : ℕ) : List K :=
  (List.range windowSamples).map (fun i => if i < min windowSamples (p.totalSamples - pos) then p.data (pos + i) else 0)

def prediction (chunk : ℕ × ℕ) : ChunkPrediction K :=
  { chunkAt p.numFrames chunk.1 chunk.2 with posterior := p.probs (p.chunkWav chunk.1) }

def predictions (i : Fin p.chunks.length) : ChunkPrediction K := p.prediction p.chunks[i]

section Extraction

variable (chunk : ℕ × ℕ) (s : Fin 3)

def speaks (t : ℕ) : Bool := 0.5 < (p.prediction chunk).multilabelProbs t s

def activeSegments : List (ℕ × ℕ) := runs (p.speaks chunk s) p.numFrames

def frameSamples : ℕ := windowSamples / p.numFrames

def subWav (run : ℕ × ℕ) : List K :=
  let s0 := run.1 * p.frameSamples
  let s1 := min (run.2 * p.frameSamples) windowSamples
  ((p.chunkWav chunk.1).drop s0).take (s1 - s0)

/-- The embedding of a run, unless the body of the loop is left before it. -/
def extract (run : ℕ × ℕ) : Option (Extracted E) :=
  let emb := p.getEmbedding (p.subWav chunk run)
  if run.2 - run.1 < 6 then none
  else if (p.subWav chunk run).length < sampleRate / 5 then none
  else if p.fbankFrames (p.subWav chunk run) < 5 then none
  else if p.ok emb then some ⟨⟨chunk.2, s⟩, chunk.1, run, emb⟩
  else none

end Extraction

def extracted : List (Extracted E) :=
  if p.useEmbedding then
    p.chunks.flatMap (fun chunk => (List.finRange 3).flatMap (fun s => (p.activeSegments chunk s).filterMap (p.extract chunk s)))
  else []

def embeddings (i : Fin p.extracted.length) : ChunkEmbedding := p.extracted[i].toChunkEmbedding

def globalLabels : Fin p.extracted.length → ℕ := p.cluster p.extracted.length (fun i => p.extracted[i].embedding)

def numSpeakers : ℕ := if p.useEmbedding then numGlobalSpeakers p.globalLabels else 3

def assign (k : Key) : Option ℕ := if p.useEmbedding then globalId p.embeddings p.globalLabels k else some k.2.val

def active (s t : ℕ) : Bool := 0.5 < gridValue p.assign (gridFrames p.totalSamples) p.predictions (s, t)

/-- What the program prints for an order that `std::sort` may leave. -/
def Prints (turns : List FinalSeg) : Prop :=
  ∃ sorted, Sorts p.active p.numSpeakers (gridFrames p.totalSamples) sorted ∧ turns = mergePass sorted

variable {p}

omit [LinearOrder K] in
theorem chunksFrom_mem {totalSamples pos chunkIdx : ℕ} {chunk : ℕ × ℕ} (h : chunk ∈ chunksFrom totalSamples pos chunkIdx) :
    ∃ k, chunk = (pos + stepSamples * k, chunkIdx + k) ∧ chunk.1 + windowSamples / 2 ≤ totalSamples := by
  have hwindow : windowSamples = 160000 := rfl
  induction pos, chunkIdx using chunksFrom.induct totalSamples with
  | case1 pos chunkIdx hpos hshort =>
    rw [chunksFrom, if_pos hpos, if_pos hshort] at h
    exact nomatch h
  | case2 pos chunkIdx hpos hlong ih =>
    rw [chunksFrom, if_pos hpos, if_neg hlong] at h
    rcases List.mem_cons.mp h with rfl | h
    · exact ⟨0, rfl, by omega⟩
    · obtain ⟨k, hk, hroom⟩ := ih h
      refine ⟨k + 1, ?_, hroom⟩
      rw [hk, Nat.mul_succ, Nat.add_right_comm, Nat.add_right_comm chunkIdx, Nat.add_assoc, Nat.add_assoc]
  | case3 pos chunkIdx hpos =>
    rw [chunksFrom, if_neg hpos] at h
    exact nomatch h

/-- A pushed embedding is the network's, of a long enough run of the chunk and local speaker it is pushed for. -/
structure Made (p : Program K E) (chunk : ℕ × ℕ) (e : Extracted E) : Prop where
  key : e.key = (chunk.2, e.localSpeaker)
  pos : e.pos = chunk.1
  run : MaximalRun (p.speaks chunk e.localSpeaker) p.numFrames e.run.1 e.run.2
  frames : e.run.1 + 6 ≤ e.run.2
  samples : sampleRate / 5 ≤ (p.subWav chunk e.run).length
  embedding : e.embedding = p.getEmbedding (p.subWav chunk e.run)

theorem extract_made {chunk : ℕ × ℕ} {s : Fin 3} {run : ℕ × ℕ} {e : Extracted E} (hrun : run ∈ p.activeSegments chunk s)
    (h : p.extract chunk s run = some e) : Made p chunk e := by
  unfold extract at h
  dsimp only at h
  split_ifs at h with hframes hsamples hfbank hok
  obtain rfl := Option.some.inj h
  have hlong : run.1 + 6 ≤ run.2 := by omega
  exact ⟨rfl, rfl, mem_runs.mp hrun, hlong, not_lt.mp hsamples, rfl⟩

theorem extracted_made {e : Extracted E} (h : e ∈ p.extracted) : ∃ chunk ∈ p.chunks, Made p chunk e := by
  unfold extracted at h
  split_ifs at h with huse
  · obtain ⟨chunk, hchunk, h⟩ := List.mem_flatMap.mp h
    obtain ⟨s, -, h⟩ := List.mem_flatMap.mp h
    obtain ⟨run, hrun, h⟩ := List.mem_filterMap.mp h
    exact ⟨chunk, hchunk, extract_made hrun h⟩
  · exact nomatch h

end Program

end PyannoteCpp.OfflinePipeline
