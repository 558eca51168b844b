import PyannoteCpp.OfflinePipeline
import PyannoteCpp.TimelineDilution

set_option autoImplicit false

/-!
# What stands behind a printed turn

A frame of a printed turn is backed by a chunk in which a local speaker is active
that was labelled with the speaker of the turn, or it lies in a short gap between
two such frames. Where each chunk over a frame has one such local speaker, the frame
is in one turn of that speaker.
-/
namespace PyannoteCpp.OfflinePipeline
open ActiveRuns TimelineAccumulation TimelineAssignment TimelineGrid TimelineSegments

variable {K E : Type*} [Field K] [LinearOrder K]

namespace Program

variable {p : Program K E}

/-- The local speaker counts for the speaker in that chunk: the last embedding of the two has that label, or there are
no embeddings and the numbers are the same. -/
def Credited (p : Program K E) (chunk : ℕ × ℕ) (s : Fin 3) (speaker : ℕ) : Prop :=
  if p.useEmbedding then
    ∃ i, IsLast p.embeddings (chunk.2, s) i ∧ p.globalLabels i = speaker ∧
      Made p chunk (p.extracted.get i) ∧ (p.extracted.get i).localSpeaker = s
  else s.val = speaker

/-- A chunk over the frame of the grid in which such a local speaker is active. -/
def Backed (p : Program K E) (speaker g : ℕ) : Prop :=
  ∃ chunk ∈ p.chunks, (p.prediction chunk).Covers (gridFrames p.totalSamples) g ∧
    ∃ s, p.speaks chunk s (g - (p.prediction chunk).startGridFrame) = true ∧ Credited p chunk s speaker

theorem chunk_pos {chunk : ℕ × ℕ} (h : chunk ∈ p.chunks) : chunk.1 = stepSamples * chunk.2 := by
  obtain ⟨k, rfl, -⟩ := chunksFrom_mem h
  simp only [Nat.zero_add]

theorem assign_iff {chunk : ℕ × ℕ} (hchunk : chunk ∈ p.chunks) {s : Fin 3} {speaker : ℕ} :
    p.assign (chunk.2, s) = some speaker ↔ Credited p chunk s speaker := by
  unfold assign Credited
  split_ifs with huse
  · constructor
    · intro h
      obtain ⟨i, hlast, hlabel⟩ := globalId_some p.embeddings p.globalLabels h
      obtain ⟨made, hmade, hmadeOf⟩ := extracted_made (List.getElem_mem i.isLt)
      have hkey : (made.2, p.extracted[i].localSpeaker) = (chunk.2, s) := hmadeOf.key.symm.trans hlast.1
      obtain ⟨hidx, hspeaker⟩ := Prod.ext_iff.mp hkey
      dsimp only at hidx
      have hsame : made = chunk := Prod.ext (by rw [chunk_pos hmade, chunk_pos hchunk, hidx]) hidx
      exact ⟨i, hlast, hlabel, hsame ▸ hmadeOf, hspeaker⟩
    · rintro ⟨i, hlast, rfl, -⟩
      exact globalId_last p.embeddings p.globalLabels hlast
  · exact Option.some_inj

theorem assign_lt {k : Key} {speaker : ℕ} (h : p.assign k = some speaker) : speaker < p.numSpeakers := by
  unfold assign at h
  unfold numSpeakers
  split_ifs at h ⊢ with huse
  · obtain ⟨j, -, rfl⟩ := globalId_some p.embeddings p.globalLabels h
    exact label_lt p.globalLabels j
  · rw [← Option.some.inj h]
    exact k.2.isLt

variable [IsStrictOrderedRing K]

theorem active_iff {speaker g : ℕ} : p.active speaker g = true ↔
    0 < ∑ i, surplus p.assign (gridFrames p.totalSamples) (p.predictions i) speaker g := by
  rw [← gridActive_iff]
  exact decide_eq_true_iff

theorem active_backed {speaker g : ℕ} (h : p.active speaker g = true) : Backed p speaker g := by
  rw [active_iff] at h
  obtain ⟨i, -, hi⟩ := Finset.exists_lt_of_sum_lt (s := Finset.univ) (f := fun _ => (0 : K)) (by simpa using h)
  unfold surplus at hi
  split_ifs at hi with hcovers
  · obtain ⟨s, -, hs⟩ := Finset.exists_lt_of_sum_lt (s := Finset.univ) (f := fun _ => (0 : K)) (by simpa using hi)
    split_ifs at hs with hassign
    · have hchunk : p.chunks[i] ∈ p.chunks := List.getElem_mem i.isLt
      exact ⟨p.chunks[i], hchunk, hcovers, s, decide_eq_true (sub_pos.mp hs), (assign_iff hchunk).mp hassign⟩
    · exact absurd hs (lt_irrefl _)
  · exact absurd hi (lt_irrefl _)

/-- Each chunk over the frame has one local speaker that counts for the speaker, and it is active there. -/
def Spoken (p : Program K E) (speaker g : ℕ) : Prop :=
  (∃ chunk ∈ p.chunks, (p.prediction chunk).Covers (gridFrames p.totalSamples) g) ∧
    ∀ chunk ∈ p.chunks, (p.prediction chunk).Covers (gridFrames p.totalSamples) g →
      ∃ s, p.speaks chunk s (g - (p.prediction chunk).startGridFrame) = true ∧ Credited p chunk s speaker ∧
        ∀ u, Credited p chunk u speaker → u = s

theorem spoken_active {speaker g : ℕ} (h : Spoken p speaker g) : p.active speaker g = true := by
  obtain ⟨⟨chunk, hchunk, hcovers⟩, hall⟩ := h
  have hpos : ∀ i : Fin p.chunks.length, (p.predictions i).Covers (gridFrames p.totalSamples) g →
      0 < surplus p.assign (gridFrames p.totalSamples) (p.predictions i) speaker g := by
    intro i hi
    have hmem : p.chunks[i] ∈ p.chunks := List.getElem_mem i.isLt
    obtain ⟨s, hspeaks, hcredited, halone⟩ := hall p.chunks[i] hmem hi
    refine surplus_alone hi ⟨s, (assign_iff hmem).mpr hcredited, of_decide_eq_true hspeaks⟩ (fun u v hu hv => ?_)
    rw [halone u ((assign_iff hmem).mp hu), halone v ((assign_iff hmem).mp hv)]
  rw [active_iff]
  obtain ⟨i, hi, rfl⟩ := List.mem_iff_getElem.mp hchunk
  refine Finset.sum_pos' (fun j _ => ?_) ⟨⟨i, hi⟩, Finset.mem_univ _, hpos ⟨i, hi⟩ hcovers⟩
  by_cases hj : (p.predictions j).Covers (gridFrames p.totalSamples) g
  · exact (hpos j hj).le
  · rw [surplus, if_neg hj]

omit [IsStrictOrderedRing K] in
theorem spoken_lt {speaker g : ℕ} (h : Spoken p speaker g) : speaker < p.numSpeakers ∧ g < gridFrames p.totalSamples := by
  obtain ⟨⟨chunk, hchunk, hcovers⟩, hall⟩ := h
  obtain ⟨s, -, hcredited, -⟩ := hall chunk hchunk hcovers
  exact ⟨assign_lt ((assign_iff hchunk).mpr hcredited), hcovers.1⟩

/-- Whatever the order of equal starts, a frame of a printed turn is backed or lies in a short gap between frames that
are, and a frame in which the speaker is spoken throughout is in one printed turn of that speaker. -/
theorem turns_backed {turns : List FinalSeg} (h : p.Prints turns) :
    (∀ seg ∈ turns, ∀ g, Touches seg g → Backed p seg.speaker g ∨ ∃ i j : ℕ, 0 < i ∧ i ≤ g ∧ g < j ∧
      ((j : ℚ) - i) * modelFrameDuration < 1 / 10 ∧ Backed p seg.speaker (i - 1) ∧ Backed p seg.speaker j) ∧
    ∀ speaker g, Spoken p speaker g →
      (turns.filter (fun seg => seg.speaker = speaker ∧ Touches seg g)).length = 1 := by
  obtain ⟨sorted, hsorts, rfl⟩ := h
  have timeline := timeline_of_sorts hsorts
  refine ⟨fun seg hseg g htouch => ?_, fun speaker g hspoken => ?_⟩
  · cases hquiet : p.active seg.speaker g with
    | true => exact .inl (active_backed hquiet)
    | false =>
      obtain ⟨i, j, hi, hj, -, ⟨hpos, -, hbefore, hafter, -⟩, hshort⟩ := timeline.inactive_gap hseg htouch hquiet
      exact .inr ⟨i, j, hpos, hi, hj, hshort, active_backed hbefore, active_backed hafter⟩
  · obtain ⟨hspeaker, hframe⟩ := spoken_lt hspoken
    exact (timeline.active_once hspeaker hframe (spoken_active hspoken)).2

section Solo

theorem one_lt_three : 1 < 3 := by decide

theorem solo_low : (0 : ℚ) ≤ 1 := zero_le_one

theorem solo_high : (1 : ℚ) ≤ 1 := le_rfl

def solo : Program ℚ Unit where
  totalSamples := 80000
  data _ := 0
  numFrames := 10
  probs _ _ := soloPosterior ⟨1, one_lt_three⟩ 1 solo_low solo_high
  useEmbedding := true
  fbankFrames _ := 5
  getEmbedding _ := ()
  ok _ := true
  cluster _ _ _ := 0

theorem solo_chunks : solo.chunks = [(0, 0)] := by
  have hwindow : windowSamples = 160000 := rfl
  have hstep : stepSamples = 16000 := rfl
  unfold chunks
  rw [chunksFrom, if_pos (by decide), if_neg (by decide), chunksFrom, if_pos (by decide), if_pos (by decide)]

theorem solo_speaks (chunk : ℕ × ℕ) (s : Fin 3) : solo.speaks chunk s = fun _ => decide (s = 1) := by
  funext t
  unfold speaks
  change decide (0.5 < powersetToMultilabel (soloPosterior (1 : Fin 3) (1 : ℚ) solo_low solo_high).prob s) = _
  by_cases hs : s = 1
  · rw [hs, solo_self]
    norm_num
  · rw [solo_other hs, decide_eq_false hs]
    norm_num

theorem solo_extracted : solo.extracted = [⟨⟨0, 1⟩, 0, (0, 10), ()⟩] := by
  have hsegments : ∀ s, solo.activeSegments (0, 0) s = if s = 1 then [(0, 10)] else [] := fun s => by
    unfold activeSegments
    rw [solo_speaks]
    fin_cases s <;> decide
  have hwindow : windowSamples = 160000 := rfl
  have hwav : (solo.chunkWav 0).length = windowSamples := by
    unfold chunkWav
    rw [List.length_map, List.length_range]
  have hframes : solo.frameSamples = 16000 := by
    unfold frameSamples
    rw [hwindow]
    rfl
  have hsub : (solo.subWav (0, 0) (0, 10)).length = 160000 := by
    have hlength : ∀ first last : ℕ, (solo.subWav (0, 0) (first, last)).length =
        min (min (last * 16000) 160000 - first * 16000) (160000 - first * 16000) := fun first last => by
      unfold subWav
      rw [List.length_take, List.length_drop, hwav, hframes, hwindow]
    rw [hlength]
    norm_num
  have hextract : solo.extract (0, 0) 1 (0, 10) = some ⟨⟨0, 1⟩, 0, (0, 10), ()⟩ := by
    unfold extract
    dsimp only
    rw [if_neg (by decide), if_neg (by rw [hsub]; decide), if_neg (by decide)]
    rfl
  have huse : solo.useEmbedding = true := rfl
  unfold extracted
  rw [if_pos huse, solo_chunks, List.flatMap_singleton]
  simp only [hsegments]
  simp [List.finRange_succ, hextract]

theorem solo_getElem (i : Fin solo.extracted.length) : solo.extracted[i] = ⟨⟨0, 1⟩, 0, (0, 10), ()⟩ := by
  have hall : ∀ e ∈ solo.extracted, e = ⟨⟨0, 1⟩, 0, (0, 10), ()⟩ := fun e he => by
    rw [solo_extracted] at he
    exact List.mem_singleton.mp he
  exact hall _ (List.getElem_mem i.isLt)

theorem solo_embeddings (i : Fin solo.extracted.length) : (solo.embeddings i).key = (0, 1) := by
  rw [embeddings, solo_getElem, ChunkEmbedding.key]

theorem solo_made : ∀ e ∈ solo.extracted, Made solo (0, 0) e := fun e he => by
  obtain ⟨chunk, hchunk, hmade⟩ := extracted_made he
  rw [solo_chunks, List.mem_singleton] at hchunk
  rwa [hchunk] at hmade

theorem solo_credited (s : Fin 3) : Credited solo (0, 0) s 0 ↔ s = 1 := by
  have huse : solo.useEmbedding = true := rfl
  have hlength : solo.extracted.length = 1 := by rw [solo_extracted]; rfl
  have hspeaker : ∀ e ∈ solo.extracted, e.localSpeaker = 1 := fun e he => by
    rw [solo_extracted] at he
    rw [List.mem_singleton.mp he]
  unfold Credited
  rw [if_pos huse]
  constructor
  · rintro ⟨i, -, -, -, hs⟩
    rw [← hs]
    exact hspeaker _ (List.get_mem _ i)
  · rintro rfl
    have hfirst : 0 < solo.extracted.length := by omega
    refine ⟨⟨0, hfirst⟩, ⟨?_, fun j _ => Fin.le_def.mpr ?_⟩, rfl, ?_, hspeaker _ (List.get_mem _ _)⟩
    · exact solo_embeddings _
    · have hj := j.isLt
      change j.val ≤ 0
      omega
    · exact solo_made _ (List.get_mem _ _)

theorem solo_spoken : Spoken solo 0 0 := by
  have hcovers : (solo.prediction (0, 0)).Covers (gridFrames solo.totalSamples) 0 := by
    have hnear := (startGridFrame_near 10 0 0).2
    have hstart : (solo.prediction (0, 0)).startGridFrame = 0 := by
      change (chunkAt 10 0 0).startGridFrame = 0
      omega
    refine ⟨lt_gridFrames.mpr (by decide), hstart.le, ?_⟩
    rw [hstart]
    decide
  rw [Spoken, solo_chunks]
  refine ⟨⟨_, List.mem_singleton_self _, hcovers⟩, fun chunk hchunk _ => ⟨1, ?_, ?_, fun u hu => ?_⟩⟩
  · rw [solo_speaks]
    rfl
  · rw [List.mem_singleton.mp hchunk]
    exact (solo_credited 1).mpr rfl
  · rw [List.mem_singleton.mp hchunk] at hu
    exact (solo_credited u).mp hu

def startsNotAfter (a b : FinalSeg) : Bool := a.start ≤ b.start

omit [IsStrictOrderedRing K] in
theorem exists_prints (p : Program K E) : ∃ turns, p.Prints turns := by
  have htrans : ∀ a b c : FinalSeg, startsNotAfter a b = true → startsNotAfter b c = true → startsNotAfter a c = true :=
    fun a b c hab hbc => decide_eq_true ((of_decide_eq_true hab).trans (of_decide_eq_true hbc))
  have htotal : ∀ a b : FinalSeg, (startsNotAfter a b || startsNotAfter b a) = true := fun a b => by
    simpa [startsNotAfter] using le_total a.start b.start
  refine ⟨_, (collectSegments p.active p.numSpeakers (gridFrames p.totalSamples)).mergeSort startsNotAfter,
    fun _ => ⟨List.mergeSort_perm _ _, ?_⟩, rfl⟩
  exact (List.pairwise_mergeSort htrans htotal _).imp (fun hle => decide_eq_false (not_lt.mpr (of_decide_eq_true hle)))

theorem turns_backed_solo : ∃ turns, solo.Prints turns ∧
    (turns.filter (fun seg => seg.speaker = 0 ∧ Touches seg 0)).length = 1 := by
  obtain ⟨turns, hturns⟩ := exists_prints solo
  exact ⟨turns, hturns, (turns_backed hturns).2 0 0 solo_spoken⟩

end Solo

end Program

end PyannoteCpp.OfflinePipeline
