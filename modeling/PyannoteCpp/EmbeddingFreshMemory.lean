import Mathlib.Algebra.Order.Chebyshev
import PyannoteCpp.EmbeddingGraph

set_option autoImplicit false

/-!
# What the embedding reads of newly allocated memory

The features are written over the whole input. The offline program never writes
`eps`, so the variance is raised by whatever the allocation holds there: a NaN
makes the embedding NaN, a zero leaves it finite.
-/
namespace PyannoteCpp.EmbeddingGraph
open TensorGraph ExactFloat
noncomputable section

/-- A relation that the operations of the convolutions keep. -/
structure Stable (r : ExactFloat ℝ → ExactFloat ℝ → Prop) : Prop extends Compatible r where
  finite : ∀ v, r (.finite v) (.finite v)
  relu : ∀ {x x'}, r x x' → r (opRelu x) (opRelu x')

theorem stable_eq : Stable (fun x y => x = y) where
  zero := rfl
  add h h' := congrArg₂ (fun x y => x + y) h h'
  mul h h' := congrArg₂ (fun x y => x * y) h h'
  finite _ := rfl
  relu h := congrArg opRelu h

theorem stable_isFinite : Stable (fun x _ => x.IsFinite) where
  zero := ⟨0, rfl⟩
  add := by
    rintro x _ y _ ⟨v, rfl⟩ ⟨w, rfl⟩
    exact ⟨v + w, rfl⟩
  mul := by
    rintro x _ y _ ⟨v, rfl⟩ ⟨w, rfl⟩
    exact ⟨v * w, rfl⟩
  finite v := ⟨v, rfl⟩
  relu := by
    rintro x _ hx
    unfold opRelu
    split
    · exact hx
    · exact ⟨0, rfl⟩

section Convolutions

variable {r : ExactFloat ℝ → ExactFloat ℝ → Prop} {buf buf' : Memory} {x g : Tensor}

theorem Stable.weight (hr : Stable r) (w : Weight) : w.tensor.Related r buf buf' :=
  constant_related (fun n => hr.finite (w.data n))

theorem convBias_related (hr : Stable r) {w b : Weight} {n s p : ℕ}
    (hg : convBias w b n x s p = some g) (hx : x.Related r buf buf') : g.Related r buf buf' := by
  simp only [convBias, Option.bind_eq_bind, Option.bind_eq_some_iff] at hg
  obtain ⟨y, hy, c, hc, hadd⟩ := hg
  exact zip_related hr.add hadd (conv2d_related hr.toCompatible hy (hr.weight w) hx)
    (reshape_related hc (hr.weight b))

theorem shortcut_related (hr : Stable r) {block : ResnetBlock} {s : ℕ}
    (hg : shortcut block s x = some g) (hx : x.Related r buf buf') : g.Related r buf buf' := by
  unfold shortcut at hg
  split at hg
  · exact convBias_related hr hg hx
  · obtain rfl := Option.some.inj hg
    exact hx

theorem makeBlock_related (hr : Stable r) {block : ResnetBlock} {s : ℕ}
    (hg : makeBlock block s x = some g) (hx : x.Related r buf buf') : g.Related r buf buf' := by
  simp only [makeBlock, Option.bind_eq_bind, Option.bind_eq_some_iff, Option.some.injEq] at hg
  obtain ⟨y, hy, z, hz, residual, hresidual, sum, hsum, rfl⟩ := hg
  have hz' : z.Related r buf buf' :=
    convBias_related hr hz (map_related hr.relu (convBias_related hr hy hx))
  exact map_related hr.relu (zip_related hr.add hsum hz' (shortcut_related hr hresidual hx))

theorem makeLayer_related (hr : Stable r) {layer : List ResnetBlock} {stride : ℕ}
    (hg : makeLayer layer stride x = some g) (hx : x.Related r buf buf') : g.Related r buf buf' := by
  induction layer generalizing stride x with
  | nil =>
    obtain rfl := Option.some.inj hg
    exact hx
  | cons block layer ih =>
    simp only [makeLayer, Option.bind_eq_bind, Option.bind_eq_some_iff] at hg
    obtain ⟨y, hy, hg⟩ := hg
    exact ih hg (makeBlock_related hr hy hx)

theorem convolutions_related (hr : Stable r) {model : PyannoteEmbeddingModel}
    (hg : convolutions model x = some g) (hx : x.Related r buf buf') : g.Related r buf buf' := by
  simp only [convolutions, Option.bind_eq_bind, Option.bind_eq_some_iff] at hg
  obtain ⟨y, hy, y1, h1, y2, h2, y3, h3, h4⟩ := hg
  have hy1 := makeLayer_related hr h1 (map_related hr.relu (convBias_related hr hy hx))
  have hy3 := makeLayer_related hr h3 (makeLayer_related hr h2 hy1)
  exact makeLayer_related hr h4 hy3

end Convolutions

section Shapes

variable {x g : Tensor}

/-- The channels that leave a row of blocks entered by `c` channels. -/
def channelsAfter : List ResnetBlock → ℕ → ℕ
  | [], c => c
  | block :: blocks, _ => channelsAfter blocks block.conv2W.ne.ne3

def PyannoteEmbeddingModel.channels (model : PyannoteEmbeddingModel) : ℕ :=
  channelsAfter model.layer4 (channelsAfter model.layer3 (channelsAfter model.layer2
    (channelsAfter model.layer1 model.conv1W.ne.ne3)))

def Planes (c : ℕ) (g : Tensor) : Prop := 0 < g.ne.ne0 ∧ 0 < g.ne.ne1 ∧ g.ne.ne2 = c

theorem convBias_planes {w b : Weight} {n s p : ℕ} (h : convBias w b n x s p = some g) :
    Planes w.ne.ne3 g := by
  simp only [convBias, Option.bind_eq_bind, Option.bind_eq_some_iff] at h
  obtain ⟨y, hy, c, -, hadd⟩ := h
  have hne : g.ne = y.ne := zip_ne hadd
  unfold Planes
  rw [hne]
  exact conv2d_ne hy

theorem makeBlock_planes {block : ResnetBlock} {s : ℕ} (h : makeBlock block s x = some g) :
    Planes block.conv2W.ne.ne3 g := by
  simp only [makeBlock, Option.bind_eq_bind, Option.bind_eq_some_iff, Option.some.injEq] at h
  obtain ⟨y, -, z, hz, residual, -, sum, hsum, rfl⟩ := h
  have hne : sum.ne = z.ne := zip_ne hsum
  change Planes _ (map opRelu sum)
  unfold Planes
  change 0 < sum.ne.ne0 ∧ 0 < sum.ne.ne1 ∧ sum.ne.ne2 = _
  rw [hne]
  exact convBias_planes hz

theorem makeLayer_planes {layer : List ResnetBlock} {stride c : ℕ}
    (h : makeLayer layer stride x = some g) (hx : Planes c x) : Planes (channelsAfter layer c) g := by
  induction layer generalizing stride c x with
  | nil =>
    obtain rfl := Option.some.inj h
    exact hx
  | cons block layer ih =>
    simp only [makeLayer, Option.bind_eq_bind, Option.bind_eq_some_iff] at h
    obtain ⟨y, hy, h⟩ := h
    exact ih h (makeBlock_planes hy)

theorem convolutions_planes {model : PyannoteEmbeddingModel} (h : convolutions model x = some g) :
    Planes model.channels g := by
  simp only [convolutions, Option.bind_eq_bind, Option.bind_eq_some_iff] at h
  obtain ⟨y, hy, y1, h1, y2, h2, y3, h3, h4⟩ := h
  have hy' : Planes model.conv1W.ne.ne3 y := convBias_planes hy
  have hrelu : Planes model.conv1W.ne.ne3 (map opRelu y) := hy'
  exact makeLayer_planes h4 (makeLayer_planes h3 (makeLayer_planes h2 (makeLayer_planes h1 hrelu)))

end Shapes

section Pooling

/-- The tensors of the statistics pooling and of the last layer, in the order they are built. -/
structure Stages (model : PyannoteEmbeddingModel) (T nMels : ℕ) (g : Tensor) where
  x : Tensor
  frames : Tensor
  var : Tensor
  raised : Tensor
  stats : Tensor
  flat : Tensor
  product : Tensor
  x_eq : convolutions model (leaf .input ⟨T, nMels, 1, 1⟩) = some x
  frames_eq : reshape (cont (permute (fun s => ⟨s.ne1, s.ne2, s.ne0, s.ne3⟩) x))
    ⟨x.ne.ne1 * x.ne.ne2, x.ne.ne0, 1, 1⟩ = some frames
  var_eq : variance frames x.ne.ne0 = some var
  raised_eq : ggmlAdd var (leaf .eps ⟨1, 1, 1, 1⟩) = some raised
  stats_eq : concat0 (poolAvg frames 1 x.ne.ne0 1 x.ne.ne0) (map sqrtf raised) = some stats
  flat_eq : reshape stats ⟨2 * (x.ne.ne1 * x.ne.ne2), 1, 1, 1⟩ = some flat
  product_eq : mulMat model.seg1W.tensor flat = some product
  sum_eq : ggmlAdd product model.seg1B.tensor = some g

variable {model : PyannoteEmbeddingModel} {T nMels : ℕ} {g : Tensor}

theorem exists_stages (h : embeddingGraph model T nMels = some g) : Nonempty (Stages model T nMels g) := by
  simp only [embeddingGraph, Option.bind_eq_bind, Option.bind_eq_some_iff] at h
  obtain ⟨x, hx, frames, hframes, var, hvar, raised, hraised, stats, hstats, flat, hflat, product,
    hproduct, hsum⟩ := h
  exact ⟨⟨x, frames, var, raised, stats, flat, product, hx, hframes, hvar, hraised, hstats, hflat,
    hproduct, hsum⟩⟩

theorem Stages.frames_ne (S : Stages model T nMels g) :
    S.frames.ne = ⟨S.x.ne.ne1 * S.x.ne.ne2, S.x.ne.ne0, 1, 1⟩ := by
  rw [reshape_eq S.frames_eq]

theorem Stages.frames_related {r : ExactFloat ℝ → ExactFloat ℝ → Prop} (hr : Stable r)
    {buf buf' : Memory} (S : Stages model T nMels g)
    (h : (leaf .input ⟨T, nMels, 1, 1⟩ : Tensor).Related r buf buf') :
    S.frames.Related r buf buf' := by
  have hx : S.x.Related r buf buf' := convolutions_related hr S.x_eq h
  exact reshape_related S.frames_eq (cont_related (a := permute _ S.x) hx)

theorem Stages.result_related {r : ExactFloat ℝ → ExactFloat ℝ → Prop} (hr : Stable r)
    {buf buf' : Memory} (S : Stages model T nMels g) (h : S.stats.Related r buf buf') :
    g.Related r buf buf' := by
  have hproduct : S.product.Related r buf buf' :=
    mulMat_related hr.toCompatible S.product_eq (hr.weight model.seg1W) (reshape_related S.flat_eq h)
  exact zip_related hr.add S.sum_eq hproduct (hr.weight model.seg1B)

theorem variance_related {buf buf' : Memory} {x var : Tensor} {tOut : ℕ}
    (h : variance x tOut = some var) (hx : x.Related (fun a b => a = b) buf buf') :
    var.Related (fun a b => a = b) buf buf' := by
  have hsq : (map opSqr x).Related (fun a b => a = b) buf buf' := map_related (congrArg opSqr) hx
  have hdiv : ∀ {a b : ExactFloat ℝ}, a = b → a / ((1 * tOut : ℕ) : ExactFloat ℝ) = b / ((1 * tOut : ℕ) : ExactFloat ℝ) :=
    fun hab => congrArg (fun a => a / _) hab
  exact zip_related (congrArg₂ (fun x y => x - y)) h
    (poolAvg_related stable_eq.toCompatible hdiv hsq)
    (map_related (congrArg opSqr) (poolAvg_related stable_eq.toCompatible hdiv hx))

theorem Stages.congr {buf buf' : Memory} (S : Stages model T nMels g)
    (hinput : ∀ n < T * nMels, buf .input n = buf' .input n) (heps : buf .eps 0 = buf' .eps 0) :
    g.eval buf = g.eval buf' := by
  have hin : (leaf .input ⟨T, nMels, 1, 1⟩ : Tensor).Related (fun a b => a = b) buf buf' := by
    intro n
    change (if n < T * nMels * 1 * 1 then _ else _) = if n < T * nMels * 1 * 1 then _ else _
    rw [Nat.mul_one, Nat.mul_one]
    split
    · exact hinput n ‹_›
    · rfl
  have hleaf : (leaf .eps ⟨1, 1, 1, 1⟩ : Tensor).Related (fun a b => a = b) buf buf' := by
    intro n
    change (if n < 1 then _ else _) = if n < 1 then _ else _
    split
    · obtain rfl : n = 0 := by omega
      exact heps
    · rfl
  have hframes := S.frames_related stable_eq hin
  have hraised : S.raised.Related (fun a b => a = b) buf buf' :=
    zip_related stable_eq.add S.raised_eq (variance_related S.var_eq hframes) hleaf
  have hmean : (poolAvg S.frames 1 S.x.ne.ne0 1 S.x.ne.ne0).Related (fun a b => a = b) buf buf' :=
    poolAvg_related stable_eq.toCompatible (congrArg (fun a => a / _)) hframes
  have hstats := concat0_related S.stats_eq hmean (map_related (congrArg sqrtf) hraised)
  exact funext (S.result_related stable_eq hstats)

end Pooling

section Variance

theorem sq_sum_le_length_mul {κ : Type*} (l : List κ) (v : κ → ℝ) :
    (l.map v).sum ^ 2 ≤ l.length * (l.map (fun c => v c * v c)).sum := by
  have h := sq_sum_le_card_mul_sum_sq (s := Finset.univ) (f := fun i : Fin l.length => v l[i.1])
  rw [Fin.sum_univ_fun_getElem, Finset.card_univ, Fintype.card_fin] at h
  refine h.trans (le_of_eq ?_)
  rw [← Fin.sum_univ_fun_getElem]
  exact congrArg _ (Finset.sum_congr rfl (fun i _ => pow_two _))

theorem sq_average_le {κ : Type*} (l : List κ) (v : κ → ℝ) {k : ℕ} (hl : l.length ≤ k) (hk : 0 < k) :
    (l.map v).sum / k * ((l.map v).sum / k) ≤ (l.map (fun c => v c * v c)).sum / k := by
  have hk' : (0 : ℝ) < k := Nat.cast_pos.mpr hk
  have hsq : 0 ≤ (l.map (fun c => v c * v c)).sum :=
    List.sum_nonneg (by
      intro x hx
      obtain ⟨c, -, rfl⟩ := List.mem_map.mp hx
      exact mul_self_nonneg _)
  have hle : (l.map v).sum ^ 2 ≤ k * (l.map (fun c => v c * v c)).sum :=
    (sq_sum_le_length_mul l v).trans (mul_le_mul_of_nonneg_right (Nat.cast_le.mpr hl) hsq)
  rw [div_mul_div_comm, div_le_div_iff₀ (mul_pos hk' hk') hk']
  calc (l.map v).sum * (l.map v).sum * k = (l.map v).sum ^ 2 * k := by ring
    _ ≤ k * (l.map (fun c => v c * v c)).sum * k := mul_le_mul_of_nonneg_right hle hk'.le
    _ = (l.map (fun c => v c * v c)).sum * (k * k) := by ring

variable {buf : Memory} {x : Tensor}

theorem poolAvg_entry {k0 k1 s0 s1 ox oy i2 i3 : ℕ} (hox : ox < poolOutputSize x.ne.ne0 k0 s0)
    (hoy : oy < poolOutputSize x.ne.ne1 k1 s1) (h2 : i2 < x.ne.ne2) (h3 : i3 < x.ne.ne3)
    (hk : 0 < k0 * k1) {v : ℕ × ℕ → ℝ}
    (hv : ∀ c ∈ window x.ne k0 k1 s0 s1 ox oy, x.entry buf c.1 c.2 i2 i3 = .finite (v c)) :
    (poolAvg x k0 k1 s0 s1).entry buf ox oy i2 i3 =
      .finite (((window x.ne k0 k1 s0 s1 ox oy).map v).sum / (k0 * k1 : ℕ)) := by
  have hsum := foldl_add_finite _ _ v hv 0
  rw [zero_add] at hsum
  have hk' : ((k0 * k1 : ℕ) : ℝ) ≠ 0 := Nat.cast_ne_zero.mpr hk.ne'
  unfold poolAvg
  rw [entry_ofEntries (by exact hox) (by exact hoy) (by exact h2) (by exact h3)]
  change List.foldl _ (finite 0) _ / finite _ = _
  rw [hsum, finite_div _ hk']

theorem variance_nonneg {var : Tensor} {tOut : ℕ} (h : variance x tOut = some var)
    (hx : ∀ n, (x.eval buf n).IsFinite) (h0 : 0 < x.ne.ne0) (ht : 0 < tOut) (h1 : x.ne.ne1 = tOut)
    (h2 : 0 < x.ne.ne2) (h3 : 0 < x.ne.ne3) (n : ℕ) : ∃ v, 0 ≤ v ∧ var.eval buf n = .finite v := by
  choose v hv using hx
  have hout0 : 0 < poolOutputSize x.ne.ne0 1 1 := by
    simpa [poolOutputSize] using h0
  have hout1 : 0 < poolOutputSize x.ne.ne1 tOut tOut := by
    have hself : (tOut : ℤ).tdiv tOut = 1 := Int.tdiv_self (by omega)
    simp [poolOutputSize, h1, hself]
  obtain rfl := zip_eq h
  refine forall_ofEntries (P := fun y => ∃ v : ℝ, 0 ≤ v ∧ y = ExactFloat.finite v) (by exact hout0)
    (by exact hout1) (by exact h2) (by exact h3) (fun i0 i1 i2 i3 hi0 hi1 hi2 hi3 => ?_) n
  replace hi0 : i0 < poolOutputSize x.ne.ne0 1 1 := hi0
  replace hi1 : i1 < poolOutputSize x.ne.ne1 tOut tOut := hi1
  replace hi2 : i2 < x.ne.ne2 := hi2
  replace hi3 : i3 < x.ne.ne3 := hi3
  have hk : 0 < 1 * tOut := by omega
  let cell : ℕ × ℕ → ℝ := fun c =>
    v (c.1 * x.nb.ne0 + c.2 * x.nb.ne1 + i2 * x.nb.ne2 + i3 * x.nb.ne3)
  have hmean : (poolAvg x 1 tOut 1 tOut).entry buf i0 i1 i2 i3 =
      .finite (((window x.ne 1 tOut 1 tOut i0 i1).map cell).sum / (1 * tOut : ℕ)) :=
    poolAvg_entry hi0 hi1 hi2 hi3 hk (fun c _ => hv _)
  have hsq : (poolAvg (map opSqr x) 1 tOut 1 tOut).entry buf i0 i1 i2 i3 = .finite
      (((window x.ne 1 tOut 1 tOut i0 i1).map (fun c => cell c * cell c)).sum / (1 * tOut : ℕ)) := by
    refine poolAvg_entry (x := map opSqr x) hi0 hi1 hi2 hi3 hk (fun c hc => ?_)
    have hin := mem_window hc
    exact (map_entry x opSqr hin.1 hin.2 hi2 hi3).trans (congrArg opSqr (hv _))
  have hpow : (map opSqr (poolAvg x 1 tOut 1 tOut)).entry buf i0 i1 i2 i3 = _ :=
    (map_entry (poolAvg x 1 tOut 1 tOut) opSqr hi0 hi1 hi2 hi3).trans (congrArg opSqr hmean)
  change ∃ w, 0 ≤ w ∧ Node.entry _ buf i0 i1 i2 i3 - Node.entry _ buf (i0 % poolOutputSize x.ne.ne0 1 1)
    (i1 % poolOutputSize x.ne.ne1 tOut tOut) (i2 % x.ne.ne2) (i3 % x.ne.ne3) = _
  rw [Nat.mod_eq_of_lt hi0, Nat.mod_eq_of_lt hi1, Nat.mod_eq_of_lt hi2, Nat.mod_eq_of_lt hi3, hsq, hpow]
  refine ⟨_, sub_nonneg.mpr (sq_average_le _ cell (window_length _ _ _ _ _ _ _) hk), finite_sub _ _⟩

end Variance

section Epsilon

variable {model : PyannoteEmbeddingModel} {T nMels : ℕ} {g : Tensor} {buf : Memory}

theorem Stages.planes (S : Stages model T nMels g) : Planes model.channels S.x :=
  convolutions_planes S.x_eq

theorem input_isFinite (h : ∀ n < T * nMels, (buf .input n).IsFinite) :
    (leaf .input ⟨T, nMels, 1, 1⟩ : Tensor).Related (fun x _ => x.IsFinite) buf buf := by
  intro n
  change (if n < T * nMels * 1 * 1 then buf .input n else 0).IsFinite
  rw [Nat.mul_one, Nat.mul_one]
  split
  · exact h n ‹_›
  · exact ⟨0, rfl⟩

/-- With finite features and a number in `eps`, the root is taken of a number. -/
theorem Stages.raised_nonneg (S : Stages model T nMels g) (hc : 0 < model.channels)
    (hin : ∀ n < T * nMels, (buf .input n).IsFinite) {e : ℝ} (he : 0 ≤ e)
    (heps : buf .eps 0 = .finite e) (n : ℕ) : ∃ v, 0 ≤ v ∧ S.raised.eval buf n = .finite v := by
  obtain ⟨h0, h1, h2⟩ := S.planes
  have hframes := S.frames_related stable_isFinite (input_isFinite hin)
  have hne := S.frames_ne
  let r : ExactFloat ℝ → ExactFloat ℝ → Prop := fun x _ => ∃ v, 0 ≤ v ∧ x = .finite v
  have hvar : S.var.Related r buf buf :=
    variance_nonneg S.var_eq hframes (by rw [hne]; exact Nat.mul_pos h1 (h2 ▸ hc)) h0
      (by rw [hne]) (by rw [hne]; exact Nat.one_pos) (by rw [hne]; exact Nat.one_pos)
  have hleaf : (leaf .eps ⟨1, 1, 1, 1⟩ : Tensor).Related r buf buf := by
    intro m
    change ∃ v, 0 ≤ v ∧ (if m < 1 then buf .eps m else 0) = .finite v
    split
    · obtain rfl : m = 0 := by omega
      exact ⟨e, he, heps⟩
    · exact ⟨0, le_rfl, rfl⟩
  have hadd : ∀ {x x' y y'}, r x x' → r y y' → r (x + y) (x' + y') := by
    rintro x _ y _ ⟨v, hv, rfl⟩ ⟨w, hw, rfl⟩
    exact ⟨v + w, add_nonneg hv hw, rfl⟩
  exact zip_related @hadd S.raised_eq hvar hleaf n

theorem Stages.isFinite (S : Stages model T nMels g) (hc : 0 < model.channels)
    (hin : ∀ n < T * nMels, (buf .input n).IsFinite) {e : ℝ} (he : 0 ≤ e)
    (heps : buf .eps 0 = .finite e) (n : ℕ) : (g.eval buf n).IsFinite := by
  have hframes := S.frames_related stable_isFinite (input_isFinite hin)
  have hmean : (poolAvg S.frames 1 S.x.ne.ne0 1 S.x.ne.ne0).Related (fun x _ => x.IsFinite) buf buf := by
    refine poolAvg_related stable_isFinite.toCompatible ?_ hframes
    rintro x _ ⟨v, rfl⟩
    have hT : ((1 * S.x.ne.ne0 : ℕ) : ℝ) ≠ 0 := by
      have hpos := S.planes.1
      exact Nat.cast_ne_zero.mpr (by omega)
    exact ⟨_, finite_div v hT⟩
  have hstd : (map sqrtf S.raised).Related (fun x _ => x.IsFinite) buf buf := by
    intro m
    obtain ⟨v, hv, hraised⟩ := S.raised_nonneg hc hin he heps _
    change (sqrtf (S.raised.eval buf _)).IsFinite
    rw [hraised]
    exact ⟨√v, if_neg (not_lt.mpr hv)⟩
  exact S.result_related stable_isFinite (concat0_related S.stats_eq hmean hstd) n

theorem add_nan (x : ExactFloat ℝ) : x + .nan = .nan := by cases x <;> rfl
theorem mul_nan (x : ExactFloat ℝ) : x * .nan = .nan := by cases x <;> rfl

theorem foldl_nan {κ : Type*} (l : List κ) (f : κ → ExactFloat ℝ) (x : ExactFloat ℝ)
    (h : x = .nan ∨ ∃ i ∈ l, f i = .nan) : l.foldl (fun acc i => acc + f i) x = .nan := by
  induction l generalizing x with
  | nil => simpa using h
  | cons i l ih =>
    refine ih _ ?_
    rcases h with rfl | ⟨j, hj, hf⟩
    · exact Or.inl rfl
    · rcases List.mem_cons.mp hj with rfl | hj
      · exact Or.inl ((congrArg _ hf).trans (add_nan x))
      · exact Or.inr ⟨j, hj, hf⟩

theorem Stages.std_nan (S : Stages model T nMels g) (heps : buf .eps 0 = .nan) (n : ℕ) :
    (map sqrtf S.raised).eval buf n = .nan := by
  have hraised : ∀ m, S.raised.eval buf m = .nan := by
    intro m
    rw [zip_eq S.raised_eq]
    change _ + (leaf .eps ⟨1, 1, 1, 1⟩ : Tensor).entry buf (_ % 1) (_ % 1) (_ % 1) (_ % 1) = _
    simp only [Nat.mod_one]
    exact (congrArg _ heps).trans (add_nan _)
  exact congrArg sqrtf (hraised _)

theorem poolOutputSize_one (n : ℕ) : poolOutputSize n 1 1 = n := by simp [poolOutputSize]

theorem Stages.stats_last (S : Stages model T nMels g) (heps : buf .eps 0 = .nan) {D m : ℕ}
    (hD : D = S.x.ne.ne1 * S.x.ne.ne2) (hm : D ≤ m % (2 * D)) : S.stats.eval buf m = .nan := by
  have hmean : (poolAvg S.frames 1 S.x.ne.ne0 1 S.x.ne.ne0).ne.ne0 = D := by
    change poolOutputSize S.frames.ne.ne0 1 1 = D
    rw [poolOutputSize_one, S.frames_ne, hD]
  have hstd : (map sqrtf S.raised).ne.ne0 = D := by
    change S.raised.ne.ne0 = D
    have hvar : S.var.ne = (poolAvg (map opSqr S.frames) 1 S.x.ne.ne0 1 S.x.ne.ne0).ne := zip_ne S.var_eq
    rw [zip_ne S.raised_eq, hvar]
    exact hmean
  have h := S.stats_eq
  unfold concat0 at h
  obtain ⟨-, hstats⟩ := of_asserted h
  rw [← hstats]
  change (if m % (_ + _) < _ then _ else (map sqrtf S.raised).eval buf _) = _
  rw [hmean, hstd, if_neg (by rw [← Nat.two_mul]; omega), S.std_nan heps]

/-- The last statistic is a standard deviation, and every product takes it in. -/
theorem Stages.nan (S : Stages model T nMels g) (hc : 0 < model.channels)
    (heps : buf .eps 0 = .nan) (n : ℕ) : g.eval buf n = .nan := by
  obtain ⟨-, h1, h2⟩ := S.planes
  have hD : 0 < S.x.ne.ne1 * S.x.ne.ne2 := Nat.mul_pos h1 (h2 ▸ hc)
  generalize hDdef : S.x.ne.ne1 * S.x.ne.ne2 = D at hD
  have hflat : S.flat = ⟨⟨2 * D, 1, 1, 1⟩, Shape.strides ⟨2 * D, 1, 1, 1⟩, S.stats.eval⟩ := by
    rw [reshape_eq S.flat_eq, hDdef]
  have hentry : ∀ i1 i2 i3, S.flat.entry buf (2 * D - 1) i1 i2 i3 = .nan := by
    intro i1 i2 i3
    rw [hflat]
    refine S.stats_last heps hDdef.symm ?_
    change D ≤ ((2 * D - 1) * 1 + i1 * (2 * D) + i2 * (2 * D * 1) + i3 * (2 * D * 1 * 1)) % (2 * D)
    have hsplit : (2 * D - 1) * 1 + i1 * (2 * D) + i2 * (2 * D * 1) + i3 * (2 * D * 1 * 1) =
        2 * D - 1 + (i1 + i2 + i3) * (2 * D) := by ring
    rw [hsplit, Nat.add_mul_mod_self_right, Nat.mod_eq_of_lt (by omega)]
    omega
  have hproduct : ∀ m, S.product.eval buf m = .nan := by
    intro m
    obtain ⟨hne, hproduct⟩ := mulMat_eq S.product_eq
    rw [hproduct]
    refine foldl_nan _ _ _ (Or.inr ⟨2 * D - 1, ?_, ?_⟩)
    · rw [hne, hflat, List.mem_range]
      change 2 * D - 1 < 2 * D
      omega
    · exact (congrArg _ (hentry _ _ _)).trans (mul_nan _)
  rw [zip_eq S.sum_eq]
  exact congrArg (fun x => x + _) (hproduct _)

theorem Stages.no_channels (S : Stages model T nMels g) (hc : model.channels = 0) (buf' : Memory) :
    g.eval buf = g.eval buf' := by
  have hflat : S.flat.ne.ne0 = 0 := by
    rw [reshape_eq S.flat_eq]
    change 2 * (S.x.ne.ne1 * S.x.ne.ne2) = 0
    rw [S.planes.2.2, hc, Nat.mul_zero, Nat.mul_zero]
  have hproduct : S.product.Related (fun x y => x = y) buf buf' := by
    intro m
    obtain ⟨hne, hproduct⟩ := mulMat_eq S.product_eq
    rw [hproduct]
    change List.foldl _ _ _ = List.foldl _ _ _
    rw [hne, hflat]
    rfl
  exact funext (zip_related stable_eq.add S.sum_eq hproduct (stable_eq.weight model.seg1B))

end Epsilon

end
end PyannoteCpp.EmbeddingGraph
