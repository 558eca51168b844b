import PyannoteCpp.EmbeddingFreshMemory

set_option autoImplicit false

/-!
# When the returned embedding is independent of fresh memory

The offline embedding is a function of the model, the features and the cell of
`eps`; the streaming one writes that cell too.
-/
namespace PyannoteCpp.EmbeddingGraph
open TensorGraph ExactFloat
noncomputable section

section Written

variable {model : PyannoteEmbeddingModel} {T nMels : ℕ} {g : Tensor} (fbank : ℕ → ℝ)

/-- The memory when `main.cpp` computes the graph. -/
def written (T nMels : ℕ) (fresh : Memory) : Memory :=
  tensorSet fresh .input (inData fbank T nMels) (T * nMels)

theorem written_input (fresh : Memory) {n : ℕ} (hn : n < T * nMels) :
    written fbank T nMels fresh .input n = inData fbank T nMels n := tensorSet_self _ _ _ hn

theorem written_eps (fresh : Memory) : written fbank T nMels fresh .eps = fresh .eps :=
  tensorSet_of_ne _ _ _ (by decide)

theorem eval_written_congr (h : embeddingGraph model T nMels = some g) {fresh fresh' : Memory}
    (heps : fresh .eps 0 = fresh' .eps 0) :
    g.eval (written fbank T nMels fresh) = g.eval (written fbank T nMels fresh') := by
  obtain ⟨S⟩ := exists_stages h
  refine S.congr (fun n hn => ?_) ?_
  · rw [written_input fbank fresh hn, written_input fbank fresh' hn]
  · rw [written_eps, written_eps, heps]

theorem eval_written_isFinite (h : embeddingGraph model T nMels = some g) (hc : 0 < model.channels)
    {fresh : Memory} {e : ℝ} (he : 0 ≤ e) (heps : fresh .eps 0 = .finite e) (n : ℕ) :
    (g.eval (written fbank T nMels fresh) n).IsFinite := by
  obtain ⟨S⟩ := exists_stages h
  refine S.isFinite hc (fun n hn => ?_) he ?_ n
  · rw [written_input fbank fresh hn]
    exact ⟨_, rfl⟩
  · rw [written_eps, heps]

theorem eval_written_nan (h : embeddingGraph model T nMels = some g) (hc : 0 < model.channels)
    {fresh : Memory} (heps : fresh .eps 0 = .nan) (n : ℕ) :
    g.eval (written fbank T nMels fresh) n = .nan := by
  obtain ⟨S⟩ := exists_stages h
  exact S.nan hc (by rw [written_eps, heps]) n

end Written

section Normalisation

theorem sumSquares_nonneg (l : List (ExactFloat ℝ)) (h : ∀ x ∈ l, x.IsFinite) :
    ∃ v, 0 ≤ v ∧ sumSquares l = .finite v := by
  have hfold : ∀ a : ℝ, 0 ≤ a → ∃ v, 0 ≤ v ∧ l.foldl (fun norm x => norm + x * x) (.finite a) = .finite v := by
    induction l with
    | nil => exact fun a ha => ⟨a, ha, rfl⟩
    | cons x l ih =>
      intro a ha
      obtain ⟨v, rfl⟩ := h x (by simp)
      exact ih (fun y hy => h y (by simp [hy])) (a + v * v) (add_nonneg ha (mul_self_nonneg v))
  exact hfold 0 le_rfl

theorem sumSquares_nan {l : List (ExactFloat ℝ)} {x : ExactFloat ℝ} (hx : x ∈ l) (h : x = .nan) :
    sumSquares l = .nan :=
  foldl_nan l (fun x => x * x) 0 (Or.inr ⟨x, hx, by rw [h]; rfl⟩)

namespace Offline

theorem normalizeEmbedding_nan {l : List (ExactFloat ℝ)} {x : ExactFloat ℝ} (hx : x ∈ l)
    (h : x = .nan) : normalizeEmbedding l = l := by
  unfold normalizeEmbedding
  rw [sumSquares_nan hx h]
  rfl

theorem normalizeEmbedding_isFinite {l : List (ExactFloat ℝ)} (h : ∀ x ∈ l, x.IsFinite) :
    ∀ x ∈ normalizeEmbedding l, x.IsFinite := by
  obtain ⟨v, hv, hsum⟩ := sumSquares_nonneg l h
  have hpos : (0 : ℝ) < v + 1e-7 := add_pos_of_nonneg_of_pos hv (by norm_num)
  have hnorm : sqrtf (sumSquares l + .finite 1e-7) = .finite √(v + 1e-7) := by
    rw [hsum]
    exact if_neg (not_lt.mpr hpos.le)
  unfold normalizeEmbedding
  rw [hnorm]
  dsimp only
  split
  · intro x hx
    obtain ⟨y, hy, rfl⟩ := List.mem_map.mp hx
    obtain ⟨w, rfl⟩ := h y hy
    exact ⟨_, finite_div w (Real.sqrt_pos.mpr hpos).ne'⟩
  · exact h

end Offline

end Normalisation

namespace Offline

variable {model : PyannoteEmbeddingModel} {fbank : ℕ → ℝ} {T nMels : ℕ} {normalize : Bool}
  {fresh fresh' : Memory} {e : List (ExactFloat ℝ)}

def readOut (fbank : ℕ → ℝ) (T nMels : ℕ) (fresh : Memory) (g : Tensor) : List (ExactFloat ℝ) :=
  (List.range embeddingDim).map (g.eval (written fbank T nMels fresh))

theorem embed_eq_some_iff : embed model fbank T nMels normalize fresh = some e ↔
    ∃ g, embeddingGraph model T nMels = some g ∧ embeddingDim ≤ g.ne.nelements ∧
      (if normalize then normalizeEmbedding (readOut fbank T nMels fresh g)
        else readOut fbank T nMels fresh g) = e := by
  simp only [embed, Option.bind_eq_bind, Option.bind_eq_some_iff, Option.some.injEq]
  refine exists_congr (fun g => and_congr_right (fun _ => ?_))
  constructor
  · rintro ⟨l, hl, he⟩
    obtain ⟨hle, rfl⟩ := of_asserted hl
    exact ⟨hle, he⟩
  · rintro ⟨hle, he⟩
    exact ⟨_, if_pos hle, he⟩

theorem embed_returns (h : embed model fbank T nMels normalize fresh = some e) (fresh' : Memory) :
    ∃ e', embed model fbank T nMels normalize fresh' = some e' := by
  obtain ⟨g, hg, hle, -⟩ := embed_eq_some_iff.mp h
  exact ⟨_, embed_eq_some_iff.mpr ⟨g, hg, hle, rfl⟩⟩

theorem embed_ext (h : ∀ g, embeddingGraph model T nMels = some g →
      g.eval (written fbank T nMels fresh) = g.eval (written fbank T nMels fresh')) :
    embed model fbank T nMels normalize fresh = embed model fbank T nMels normalize fresh' := by
  refine Option.ext (fun e => ?_)
  rw [embed_eq_some_iff, embed_eq_some_iff]
  refine exists_congr (fun g => and_congr_right (fun hg => ?_))
  unfold readOut
  rw [h g hg]

theorem embed_congr (heps : fresh .eps 0 = fresh' .eps 0) :
    embed model fbank T nMels normalize fresh = embed model fbank T nMels normalize fresh' :=
  embed_ext (fun _ hg => eval_written_congr fbank hg heps)

theorem embed_isFinite (h : embed model fbank T nMels normalize fresh = some e)
    (hc : 0 < model.channels) {v : ℝ} (hv : 0 ≤ v) (heps : fresh .eps 0 = .finite v) :
    ∀ x ∈ e, x.IsFinite := by
  obtain ⟨g, hg, -, rfl⟩ := embed_eq_some_iff.mp h
  have hread : ∀ x ∈ readOut fbank T nMels fresh g, x.IsFinite := by
    intro x hx
    obtain ⟨n, -, rfl⟩ := List.mem_map.mp hx
    exact eval_written_isFinite fbank hg hc hv heps n
  split
  · exact normalizeEmbedding_isFinite hread
  · exact hread

theorem embed_nan (h : embed model fbank T nMels normalize fresh = some e)
    (hc : 0 < model.channels) (heps : fresh .eps 0 = .nan) : .nan ∈ e := by
  obtain ⟨g, hg, -, rfl⟩ := embed_eq_some_iff.mp h
  have hread : .nan ∈ readOut fbank T nMels fresh g :=
    List.mem_map.mpr ⟨0, by simp [embeddingDim], eval_written_nan fbank hg hc heps 0⟩
  split
  · rwa [normalizeEmbedding_nan hread rfl]
  · exact hread

/-- A NaN in `eps` and a zero there give different embeddings. -/
theorem embed_differs (h : embed model fbank T nMels normalize fresh = some e)
    (hc : 0 < model.channels) : embed model fbank T nMels normalize (fun _ _ => .nan) ≠
      embed model fbank T nMels normalize (fun _ _ => .finite 0) := by
  obtain ⟨e', he'⟩ := embed_returns h (fun _ _ => .nan)
  intro heq
  obtain ⟨v, hv⟩ := embed_isFinite (heq ▸ he') hc le_rfl rfl _ (embed_nan he' hc rfl)
  cases hv

theorem embed_no_channels (hc : model.channels = 0) :
    embed model fbank T nMels normalize fresh = embed model fbank T nMels normalize fresh' := by
  refine embed_ext (fun g hg => ?_)
  obtain ⟨S⟩ := exists_stages hg
  exact S.no_channels hc _

theorem getEmbedding_short (hT : T ≤ maxEmbeddingFrames) (fresh : ℕ → Memory) :
    getEmbedding model fbank T nMels normalize fresh = embed model fbank T nMels normalize (fresh 0) :=
  if_neg (not_lt.mpr hT)

/-- Of the newly allocated memory only the cells of `eps` matter, one for every graph. -/
theorem getEmbedding_congr {fresh fresh' : ℕ → Memory}
    (heps : ∀ k, fresh k .eps 0 = fresh' k .eps 0) :
    getEmbedding model fbank T nMels normalize fresh = getEmbedding model fbank T nMels normalize fresh' := by
  have hchunk : addChunk model fbank T nMels fresh = addChunk model fbank T nMels fresh' := by
    funext acc k
    unfold addChunk
    dsimp only
    rw [embed_congr (heps k)]
  unfold getEmbedding
  rw [hchunk, embed_congr (heps 0)]

theorem getEmbedding_independent_iff (model : PyannoteEmbeddingModel) (fbank : ℕ → ℝ) (T nMels : ℕ)
    (normalize : Bool) (fresh : ℕ → Memory) (e : List (ExactFloat ℝ)) (hT : T ≤ maxEmbeddingFrames)
    (h : getEmbedding model fbank T nMels normalize fresh = some e) :
    (∀ fresh₁ fresh₂, getEmbedding model fbank T nMels normalize fresh₁ =
      getEmbedding model fbank T nMels normalize fresh₂) ↔ model.channels = 0 := by
  rw [getEmbedding_short hT] at h
  simp only [getEmbedding_short hT]
  constructor
  · intro hall
    by_contra hc
    exact embed_differs h (Nat.pos_of_ne_zero hc) (hall (fun _ _ _ => .nan) (fun _ _ _ => .finite 0))
  · intro hc fresh₁ fresh₂
    exact embed_no_channels hc

/-- One convolution of one channel, whose statistics have no weight in the embedding. -/
def oneChannel : PyannoteEmbeddingModel where
  conv1W := ⟨⟨3, 3, 1, 1⟩, fun _ => 1⟩
  conv1B := ⟨⟨1, 1, 1, 1⟩, fun _ => 0⟩
  layer1 := []
  layer2 := []
  layer3 := []
  layer4 := []
  seg1W := ⟨⟨2, 256, 1, 1⟩, fun _ => 0⟩
  seg1B := ⟨⟨256, 1, 1, 1⟩, fun _ => 0⟩

theorem oneChannel_graph : ∃ g, embeddingGraph oneChannel 1 1 = some g ∧ embeddingDim ≤ g.ne.nelements :=
  ⟨_, rfl, by decide⟩

theorem oneChannel_returns (fbank : ℕ → ℝ) (normalize : Bool) (fresh : Memory) :
    ∃ e, embed oneChannel fbank 1 1 normalize fresh = some e := by
  obtain ⟨g, hg, hle⟩ := oneChannel_graph
  exact ⟨_, embed_eq_some_iff.mpr ⟨g, hg, hle, rfl⟩⟩

theorem getEmbedding_independent_iff_oneChannel :
    ¬∀ fresh₁ fresh₂, getEmbedding oneChannel (fun _ => 0) 1 1 true fresh₁ =
      getEmbedding oneChannel (fun _ => 0) 1 1 true fresh₂ := by
  have hT : 1 ≤ maxEmbeddingFrames := by decide
  obtain ⟨e, he⟩ := oneChannel_returns (fun _ => 0) true (fun _ _ => .nan)
  have h := getEmbedding_independent_iff oneChannel (fun _ => 0) 1 1 true (fun _ _ _ => .nan) e hT
    ((getEmbedding_short hT _).trans he)
  intro hall
  exact Nat.one_ne_zero (h.mp hall)

/-- The same call with a NaN and with a zero in the memory it was given. -/
theorem getEmbedding_reads_fresh : 1 ≤ maxEmbeddingFrames ∧
    getEmbedding oneChannel (fun _ => 0) 1 1 true (fun _ _ _ => .nan) ≠
      getEmbedding oneChannel (fun _ => 0) 1 1 true (fun _ _ _ => .finite 0) := by
  have hT : 1 ≤ maxEmbeddingFrames := by decide
  obtain ⟨e, he⟩ := oneChannel_returns (fun _ => 0) true (fun _ _ => .nan)
  refine ⟨hT, ?_⟩
  rw [getEmbedding_short hT, getEmbedding_short hT]
  exact embed_differs he Nat.one_pos

end Offline

namespace Streaming

theorem getEmbedding_independent (model : PyannoteEmbeddingModel) (fbank : ℕ → ℝ) (T nMels : ℕ)
    (fresh fresh' : Memory) :
    getEmbedding model fbank T nMels fresh = getEmbedding model fbank T nMels fresh' := by
  unfold getEmbedding
  refine Option.bind_congr (fun g hg => ?_)
  obtain ⟨S⟩ := exists_stages hg
  let memory : Memory → Memory := fun fresh =>
    tensorSet (written fbank T nMels fresh) .eps (fun _ => .finite 1e-7) 1
  have heval : g.eval (memory fresh) = g.eval (memory fresh') := by
    have hinput : ∀ fresh, memory fresh .input = written fbank T nMels fresh .input :=
      fun fresh => tensorSet_of_ne _ _ _ (by decide)
    have heps : ∀ fresh, memory fresh .eps 0 = .finite 1e-7 :=
      fun fresh => tensorSet_self _ _ _ Nat.one_pos
    refine S.congr (fun n hn => ?_) ?_
    · rw [hinput, hinput, written_input fbank fresh hn, written_input fbank fresh' hn]
    · rw [heps, heps]
  change (tensorGet g (memory fresh) embeddingDim).bind _ = (tensorGet g (memory fresh') embeddingDim).bind _
  unfold tensorGet
  rw [heval]

end Streaming

end
end PyannoteCpp.EmbeddingGraph
