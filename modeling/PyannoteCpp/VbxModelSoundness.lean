import PyannoteCpp.PrefixGrammar
import PyannoteCpp.VbxModelLoading

set_option autoImplicit false

/-!
# When a loaded model is sound

A model is loaded whenever its six tensors are there; it is sound just when
they are tensors of floats with the numbers of elements that the dimensions
call for.
-/
namespace PyannoteCpp.VbxModelLoading
open MachineInt PrefixGrammar

section Loops

variable {n : ℤ} {body : ℤ → List Access}

theorem forall_loop (h : ∀ i, 0 ≤ i → i < n → ∀ a ∈ body i, a.InBounds) : ∀ a ∈ loop n body, a.InBounds := by
  intro a ha
  obtain ⟨i, hi, hmem⟩ := List.mem_flatMap.1 ha
  have hlt := List.mem_range.1 hi
  exact h i (by omega) (by omega) a hmem

theorem forall_append {l m : List Access} (hl : ∀ a ∈ l, a.InBounds) (hm : ∀ a ∈ m, a.InBounds) :
    ∀ a ∈ l ++ m, a.InBounds := by
  intro a ha
  exact (List.mem_append.1 ha).elim (hl a) (hm a)

theorem forall_cons {b : Access} {l : List Access} (hb : b.InBounds) (hl : ∀ a ∈ l, a.InBounds) :
    ∀ a ∈ b :: l, a.InBounds := by
  intro a ha
  rcases List.mem_cons.1 ha with rfl | ha
  · exact hb
  · exact hl a ha

theorem forall_nil : ∀ a ∈ ([] : List Access), a.InBounds := by simp

theorem cell_inBounds {i j rows cols : ℤ} (hi : 0 ≤ i) (hrow : i < rows) (hj : 0 ≤ j) (hcol : j < cols) :
    (⟨i * cols + j, rows * cols⟩ : Access).InBounds := by
  constructor
  · change 0 ≤ i * cols + j
    nlinarith
  · change i * cols + j < rows * cols
    nlinarith

theorem matVecMul_inBounds (rows cols : ℤ) : ∀ a ∈ matVecMul (rows * cols) cols rows cols, a.InBounds :=
  forall_loop (fun _ hi hrow => forall_cons ⟨hi, hrow⟩ (forall_loop (fun _ hj hcol =>
    forall_cons (cell_inBounds hi hrow hj hcol) (forall_cons ⟨hj, hcol⟩ forall_nil))))

theorem matVecMulTrans_inBounds (rows cols : ℤ) : ∀ a ∈ matVecMulTrans (rows * cols) rows rows cols, a.InBounds :=
  forall_loop (fun _ hi hrow => forall_cons ⟨hi, hrow⟩ (forall_loop (fun _ hj hcol =>
    forall_cons ⟨hj, hcol⟩ (forall_cons (cell_inBounds hi hrow hj hcol) forall_nil))))

end Loops

section Accesses

variable {model : VbxModel}

/-- The vectors have the entries that the dimensions call for. -/
def Sized (model : VbxModel) : Prop :=
  ∀ v : VbxTensor, length (v.vector model) = v.entries model.dEmb model.dLda

theorem transform_inBounds (h : Sized model) : ∀ a ∈ transformAccesses model model.dEmb, a.InBounds := by
  have hmean1 : length model.mean1 = model.dEmb := h .mean1
  have hmean2 : length model.mean2 = model.dLda := h .mean2
  have hmu : length model.pldaMu = model.dLda := h .pldaMu
  have hlda : length model.lda = model.dEmb * model.dLda := h .lda
  have htr : length model.pldaTr = model.dLda * model.dLda := h .pldaTr
  unfold transformAccesses
  rw [hmean1, hmean2, hmu, hlda, htr]
  refine forall_append (forall_append (forall_append (forall_append (forall_append (forall_append ?_ ?_)
    (matVecMulTrans_inBounds _ _)) ?_) ?_) ?_) (matVecMul_inBounds _ _)
  all_goals refine forall_loop (fun i hi hlt => ?_)
  · exact forall_cons ⟨hi, hlt⟩ (forall_cons ⟨hi, hlt⟩ (forall_cons ⟨hi, hlt⟩ forall_nil))
  · exact forall_cons ⟨hi, hlt⟩ forall_nil
  · exact forall_cons ⟨hi, hlt⟩ (forall_cons ⟨hi, hlt⟩ forall_nil)
  · exact forall_cons ⟨hi, hlt⟩ forall_nil
  · exact forall_cons ⟨hi, hlt⟩ (forall_cons ⟨hi, hlt⟩ forall_nil)

theorem cell_inRange {i j rows cols : ℤ} (hi : 0 ≤ i) (hrow : i < rows) (hj : 0 ≤ j) (hcol : j < cols)
    (hsize : InRange (rows * cols)) : toInt (i * cols + j) = i * cols + j := by
  obtain ⟨hlow, hhigh⟩ : (⟨i * cols + j, rows * cols⟩ : Access).InBounds := cell_inBounds hi hrow hj hcol
  dsimp only at hlow hhigh
  unfold InRange at hsize
  exact toInt_of_inRange ⟨by omega, by omega⟩

theorem batch_inBounds (h : Sized model) {embeddings : List ℤ} (hemb : ∀ size ∈ embeddings, size = model.dEmb)
    (hfits : BatchFits model embeddings) : ∀ a ∈ batchAccesses model embeddings, a.InBounds := by
  have hmean1 : length model.mean1 = model.dEmb := h .mean1
  have hmean2 : length model.mean2 = model.dLda := h .mean2
  have hmu : length model.pldaMu = model.dLda := h .pldaMu
  have hlda : length model.lda = model.dEmb * model.dLda := h .lda
  have htr : length model.pldaTr = model.dLda * model.dLda := h .pldaTr
  unfold batchAccesses
  rw [hmean1, hmean2, hmu, hlda, htr]
  refine forall_append (forall_append (forall_append (forall_append (forall_append (forall_append (forall_append ?_ ?_)
    ?_) ?_) ?_) ?_) ?_) ?_
  · intro a ha
    obtain ⟨size, hsize, hmem⟩ := List.mem_flatMap.1 ha
    rw [hemb size hsize] at hmem
    exact forall_loop (fun _ hi hlt => forall_cons ⟨hi, hlt⟩ forall_nil) a hmem
  · refine forall_loop (fun n hn hlt => forall_loop (fun i hi hilt => forall_cons ?_ forall_nil))
    have hstart := cell_inRange hn hlt le_rfl (hi.trans_lt hilt) hfits.1
    rw [add_zero] at hstart
    rw [hstart]
    exact cell_inBounds hn hlt hi hilt
  · exact forall_loop (fun _ hi hlt => forall_cons ⟨hi, hlt⟩ forall_nil)
  · refine forall_loop (fun j hj hcol => forall_loop (fun i hi hrow => ?_))
    rw [mul_comm model.dEmb model.dLda]
    refine forall_cons (cell_inBounds hj hcol hi hrow) (forall_cons ?_ forall_nil)
    rw [mul_comm model.dLda model.dEmb]
    exact cell_inBounds hi hrow hj hcol
  · exact forall_loop (fun _ hi hlt => forall_cons ⟨hi, hlt⟩ forall_nil)
  · exact forall_loop (fun _ hi hlt => forall_cons ⟨hi, hlt⟩ forall_nil)
  · exact forall_loop (fun _ hi hlt => forall_cons ⟨hi, hlt⟩ forall_nil)
  · refine forall_loop (fun n hn hlt => forall_loop (fun d hd hdlt => forall_cons ⟨hn, hlt⟩
      (forall_cons ⟨hd, hdlt⟩ (forall_cons ?_ forall_nil))))
    rw [cell_inRange hn hlt hd hdlt hfits.2, toInt_of_inRange hfits.2]
    exact cell_inBounds hn hlt hd hdlt

theorem le_foldl_max (l : List ℤ) (K : ℤ) :
    K ≤ l.foldl (fun K l => max K (l + 1)) K ∧ ∀ x ∈ l, x < l.foldl (fun K l => max K (l + 1)) K := by
  induction l generalizing K with
  | nil => exact ⟨le_rfl, by simp⟩
  | cons a l ih =>
    obtain ⟨hle, hall⟩ := ih (max K (a + 1))
    rw [List.foldl_cons]
    refine ⟨(le_max_left _ _).trans hle, fun x hx => ?_⟩
    rcases List.mem_cons.1 hx with rfl | hx
    · have := (le_max_right K (x + 1)).trans hle
      omega
    · exact hall x hx

theorem cluster_inBounds (h : Sized model) {embeddings initLabels : List ℤ}
    (hemb : ∀ size ∈ embeddings, size = model.dLda) (hlength : initLabels.length = embeddings.length)
    (hlabels : ∀ l ∈ initLabels, 0 ≤ l) : ∀ a ∈ clusterAccesses model embeddings initLabels, a.InBounds := by
  have hpsi : length model.pldaPsi = model.dLda := h .pldaPsi
  have hK := (le_foldl_max initLabels 0).2
  unfold clusterAccesses
  rw [hpsi]
  refine forall_append (forall_append (forall_append (forall_append ?_ ?_) ?_) ?_) ?_
  · intro a ha
    obtain ⟨⟨l, i⟩, hl, hmem⟩ := List.mem_flatMap.1 ha
    obtain ⟨-, hi, hget⟩ := List.mem_zipIdx hl
    have hmemL : l ∈ initLabels := hget ▸ List.getElem_mem _
    refine forall_cons ⟨?_, ?_⟩ (forall_cons ⟨hlabels l hmemL, hK l hmemL⟩ forall_nil) a hmem
    · exact Int.natCast_nonneg i
    · change (i : ℤ) < embeddings.length
      omega
  · exact forall_loop (fun _ hi hlt => forall_cons ⟨hi, hlt⟩ (forall_cons ⟨hi, hlt⟩ forall_nil))
  · intro a ha
    obtain ⟨⟨e, i⟩, he, hmem⟩ := List.mem_flatMap.1 ha
    obtain ⟨-, hi, hget⟩ := List.mem_zipIdx he
    have hsize : e = model.dLda := hemb e (hget ▸ List.getElem_mem _)
    refine forall_loop (fun j hj hlt => forall_cons ⟨Int.natCast_nonneg i, ?_⟩ (forall_cons ⟨hj, hlt⟩
      (forall_cons ⟨hj, ?_⟩ forall_nil))) a hmem
    · change (i : ℤ) < embeddings.length
      omega
    · change j < e
      omega
  · exact forall_loop (fun _ hk hklt => forall_loop (fun _ hd hdlt => forall_cons ⟨hk, hklt⟩
      (forall_cons ⟨hd, hdlt⟩ (forall_cons ⟨hd, hdlt⟩ forall_nil))))
  · exact forall_loop (fun _ hi hlt => forall_loop (fun _ hk hklt => forall_cons ⟨hi, hlt⟩
      (forall_cons ⟨hk, hklt⟩ forall_nil)))

end Accesses

section Loading

variable {memory : Memory} {ctx : List NamedTensor} {model : VbxModel}

theorem copyTensorData_ok {name : String} {expectedSize : ℤ} {c : Copied} :
    copyTensorData memory ctx name expectedSize = .ok c ↔ ∃ t, ggmlGetTensor ctx name = some t ∧ 0 ≤ intSize t ∧
      c = ⟨(List.range (intSize t).toNat).map (floatAt memory t), expectedSize ≠ -1 ∧ intSize t ≠ expectedSize⟩ := by
  unfold copyTensorData
  cases hget : ggmlGetTensor ctx name with
  | none => simp
  | some t =>
    dsimp only
    split_ifs with hneg
    · simp [hneg]
    · simp only [Except.ok.injEq, Option.some.injEq, exists_eq_left']
      exact ⟨fun h => ⟨not_lt.1 hneg, h.symm⟩, fun h => h.2.symm⟩

def CopyOf (memory : Memory) (ctx : List NamedTensor) (name : String) (v : List ℕ) : Prop :=
  ∃ t, ggmlGetTensor ctx name = some t ∧ 0 ≤ intSize t ∧ v = (List.range (intSize t).toNat).map (floatAt memory t)

theorem copyOf_ok {name : String} {c : Copied} (h : copyTensorData memory ctx name (-1) = .ok c) :
    CopyOf memory ctx name c.out := by
  obtain ⟨t, ht, hsize, hc⟩ := copyTensorData_ok.1 h
  refine ⟨t, ht, hsize, ?_⟩
  rw [hc]

theorem init_ok (h : initVbxModelFromGguf memory ctx = .ok model) :
    (∃ tMean1 tLda, ggmlGetTensor ctx "vbx.mean1" = some tMean1 ∧ ggmlGetTensor ctx "vbx.lda" = some tLda ∧
      model.dEmb = toInt tMean1.ne.n0 ∧ model.dLda = toInt tLda.ne.n0) ∧
    ∀ v : VbxTensor, CopyOf memory ctx v.name (v.vector model) := by
  unfold initVbxModelFromGguf at h
  split at h
  · next tMean1 tLda hmean1 hlda =>
      obtain ⟨c1, h1, h⟩ := except_bind_ok.1 h
      obtain ⟨c2, h2, h⟩ := except_bind_ok.1 h
      obtain ⟨c3, h3, h⟩ := except_bind_ok.1 h
      obtain ⟨c4, h4, h⟩ := except_bind_ok.1 h
      obtain ⟨c5, h5, h⟩ := except_bind_ok.1 h
      obtain ⟨c6, h6, h⟩ := except_bind_ok.1 h
      obtain rfl := Except.ok.inj h
      dsimp only
      refine ⟨⟨tMean1, tLda, hmean1, hlda, rfl, rfl⟩, fun v => ?_⟩
      cases v with
      | mean1 => exact copyOf_ok h1
      | mean2 => exact copyOf_ok h2
      | lda => exact copyOf_ok h3
      | pldaMu => exact copyOf_ok h4
      | pldaTr => exact copyOf_ok h5
      | pldaPsi => exact copyOf_ok h6
  · cases h

/-- Nothing else than the presence of the tensors is asked for. -/
theorem init_of_loads (memory : Memory) (h : Loads ctx) : ∃ model, initVbxModelFromGguf memory ctx = .ok model := by
  have hcopy : ∀ v : VbxTensor, ∃ c, copyTensorData memory ctx v.name (-1) = .ok c := by
    intro v
    obtain ⟨t, ht, hsize⟩ := h v
    exact ⟨_, copyTensorData_ok.2 ⟨t, ht, hsize, rfl⟩⟩
  obtain ⟨tMean1, hmean1, -⟩ := h .mean1
  obtain ⟨tLda, hlda, -⟩ := h .lda
  obtain ⟨c1, h1⟩ := hcopy .mean1
  obtain ⟨c2, h2⟩ := hcopy .mean2
  obtain ⟨c3, h3⟩ := hcopy .lda
  obtain ⟨c4, h4⟩ := hcopy .pldaMu
  obtain ⟨c5, h5⟩ := hcopy .pldaTr
  obtain ⟨c6, h6⟩ := hcopy .pldaPsi
  unfold initVbxModelFromGguf
  rw [show ggmlGetTensor ctx "vbx.mean1" = some tMean1 from hmean1,
    show ggmlGetTensor ctx "vbx.lda" = some tLda from hlda]
  refine ⟨_, except_bind_ok.2 ⟨c1, h1, except_bind_ok.2 ⟨c2, h2, except_bind_ok.2 ⟨c3, h3,
    except_bind_ok.2 ⟨c4, h4, except_bind_ok.2 ⟨c5, h5, except_bind_ok.2 ⟨c6, h6, rfl⟩⟩⟩⟩⟩⟩⟩

end Loading

section Soundness

variable {memory : Memory} {ctx : List NamedTensor} {model : VbxModel} {t : NamedTensor}

theorem data_length_of_floats (h : t.type = .f32) : t.data.length = 4 * t.nelements := by
  have hsize : exactBytes .f32 t.ne = t.nelements * 4 / 1 := rfl
  rw [t.whole, h, hsize, Nat.div_one, Nat.mul_comm]

theorem floatAt_within {i : ℕ} (hi : 4 * i + 4 ≤ t.data.length) (memory memory' : Memory) :
    floatAt memory t i = floatAt memory' t i := by
  unfold floatAt
  congr 1
  refine List.map_congr_left (fun b hb => ?_)
  have hb := List.mem_range.1 hb
  have hin : 4 * i + b < t.data.length := by omega
  unfold byteAt
  rw [List.getD_eq_getElem _ _ hin, List.getD_eq_getElem _ _ hin]

theorem intSize_eq (h : t.nelements < 2 ^ 31) : intSize t = t.nelements :=
  toInt_of_inRange (by unfold InRange; omega)

theorem sound_of_layout (hload : initVbxModelFromGguf memory ctx = .ok model) (hlayout : Layout ctx) :
    Sound ctx model := by
  obtain ⟨⟨tMean1, tLda, hmean1, hlda, hE, hL⟩, hcopy⟩ := init_ok hload
  have hsized : Sized model := by
    intro v
    obtain ⟨t, ht, -, hv⟩ := hcopy v
    obtain ⟨-, hsmall, hentries⟩ := hlayout tMean1 tLda hmean1 hlda v t ht
    rw [hE, hL, ← hentries, hv, intSize_eq hsmall]
    simp [length]
  refine ⟨hsized, fun v t ht => ?_, transform_inBounds hsized, fun _ h hfits => batch_inBounds hsized h hfits,
    fun _ _ h hlength hlabels => cluster_inBounds hsized h hlength hlabels⟩
  obtain ⟨t', ht', -, hv⟩ := hcopy v
  obtain rfl : t' = t := Option.some.inj (ht'.symm.trans ht)
  obtain ⟨hfloats, hsmall, -⟩ := hlayout tMean1 tLda hmean1 hlda v t' ht
  have hbytes := data_length_of_floats hfloats
  refine ⟨⟨hfloats, fun memory' => ?_⟩, ?_⟩
  · rw [hv, intSize_eq hsmall, Int.toNat_natCast]
    refine List.map_congr_left (fun i hi => floatAt_within ?_ _ _)
    have := List.mem_range.1 hi
    omega
  · unfold ReadsWithin
    rw [intSize_eq hsmall, hbytes]
    push_cast
    exact le_rfl

theorem layout_of_sound (hload : initVbxModelFromGguf memory ctx = .ok model) (hsound : Sound ctx model) :
    Layout ctx := by
  obtain ⟨⟨tMean1', tLda', hmean1', hlda', hE, hL⟩, hcopy⟩ := init_ok hload
  intro tMean1 tLda hmean1 hlda v t ht
  obtain rfl := Option.some.inj (hmean1'.symm.trans hmean1)
  obtain rfl := Option.some.inj (hlda'.symm.trans hlda)
  obtain ⟨hholds, -⟩ := hsound.values v t ht
  obtain ⟨t', ht', hnonneg, hv⟩ := hcopy v
  obtain rfl := Option.some.inj (ht'.symm.trans ht)
  -- as many floats were copied as the tensor has elements, so the number became the same `int`
  have hcopied : (v.vector model).length = (intSize t').toNat := by simp [hv]
  have hheld : (v.vector model).length = t'.nelements := by simp [hholds.values memory]
  have hsame : intSize t' = t'.nelements := by omega
  have hrange : InRange t'.nelements := (toInt_eq_iff _).1 hsame
  refine ⟨hholds.floats, ?_, ?_⟩
  · have := hrange.2
    omega
  · rw [← hE, ← hL, ← hsound.sizes v, length, hheld]

/-- A context gives a sound model, or none, just when its tensors have the layout or cannot all be loaded. -/
theorem loaded_sound_iff (memory : Memory) (ctx : List NamedTensor) :
    (∀ model, initVbxModelFromGguf memory ctx = .ok model → Sound ctx model) ↔ ¬Loads ctx ∨ Layout ctx := by
  constructor
  · intro h
    by_cases hloads : Loads ctx
    · obtain ⟨model, hload⟩ := init_of_loads memory hloads
      exact .inr (layout_of_sound hload (h model hload))
    · exact .inl hloads
  · rintro (hloads | hlayout) model hload
    · refine absurd (fun v => ?_) hloads
      obtain ⟨t, ht, hnonneg, -⟩ := (init_ok hload).2 v
      exact ⟨t, ht, hnonneg⟩
    · exact sound_of_layout hload hlayout

def zeros (v : VbxTensor) (n0 n1 : ℕ) : NamedTensor where
  name := v.name
  type := .f32
  ne := ⟨n0, n1, 1, 1⟩
  data := List.replicate (exactBytes .f32 ⟨n0, n1, 1, 1⟩) 0
  whole := List.length_replicate

/-- One dimension before and two after the reduction, and one entry in the second mean. -/
def shortMean2 : List NamedTensor :=
  [zeros .mean1 1 1, zeros .mean2 1 1, zeros .lda 2 1, zeros .pldaMu 2 1, zeros .pldaTr 2 2, zeros .pldaPsi 2 1]

theorem get_shortMean2 (v : VbxTensor) : ∃ n0 n1, ggmlGetTensor shortMean2 v.name = some (zeros v n0 n1) ∧
    (zeros v n0 n1).nelements ≤ 4 := by
  cases v with
  | mean1 => exact ⟨1, 1, rfl, by decide⟩
  | mean2 => exact ⟨1, 1, rfl, by decide⟩
  | lda => exact ⟨2, 1, rfl, by decide⟩
  | pldaMu => exact ⟨2, 1, rfl, by decide⟩
  | pldaTr => exact ⟨2, 2, rfl, by decide⟩
  | pldaPsi => exact ⟨2, 1, rfl, by decide⟩

/-- It is loaded, and the second entry of the second mean is subtracted from an embedding. -/
theorem shortMean2_unsound : ∃ model, initVbxModelFromGguf (fun _ _ => 0) shortMean2 = .ok model ∧
    length model.mean2 = 1 ∧ model.dLda = 2 ∧ ∃ a ∈ transformAccesses model model.dEmb, ¬a.InBounds := by
  have hloads : Loads shortMean2 := by
    intro v
    obtain ⟨n0, n1, hget, hsmall⟩ := get_shortMean2 v
    refine ⟨_, hget, ?_⟩
    rw [intSize_eq (by omega)]
    exact Int.natCast_nonneg _
  obtain ⟨model, hload⟩ := init_of_loads (fun _ _ => 0) hloads
  obtain ⟨⟨tMean1, tLda, -, hlda, -, hL⟩, hcopy⟩ := init_ok hload
  obtain ⟨t, ht, -, hv⟩ := hcopy .mean2
  have hmean2 : t = zeros .mean2 1 1 := Option.some.inj (ht.symm.trans rfl)
  have hlda2 : tLda = zeros .lda 2 1 := Option.some.inj (hlda.symm.trans rfl)
  have hlength : length model.mean2 = 1 := by
    have hone : (zeros .mean2 1 1).nelements = 1 := rfl
    have hcopied : model.mean2.length = (intSize t).toNat := by
      rw [show model.mean2 = _ from hv, List.length_map, List.length_range]
    rw [length, hcopied, hmean2, intSize_eq (by omega), hone]
    rfl
  have hdim : model.dLda = 2 := by
    rw [hL, hlda2]
    exact toInt_of_inRange (by unfold InRange; norm_num [zeros])
  refine ⟨model, hload, hlength, hdim, ⟨1, 1⟩, ?_, fun h => absurd h.2 (lt_irrefl _)⟩
  unfold transformAccesses
  rw [hlength, hdim]
  simp only [List.mem_append]
  refine .inl (.inl (.inl (.inr ?_)))
  exact List.mem_flatMap.2 ⟨1, by decide, by simp⟩

end Soundness

end PyannoteCpp.VbxModelLoading
