import Mathlib.Data.List.ProdSigma
import Mathlib.Tactic

set_option autoImplicit false

/-!
# Tensor graphs that are computed after they are built

The operations are those of ggml. A node's shape is known when the graph is
built, and an assertion on shapes that fails gives no node. Its elements are a
function of the leaf buffers, which are filled later. Strides count elements,
not bytes.
-/
namespace PyannoteCpp.TensorGraph

variable {ι V : Type*}

structure Shape where
  ne0 : ℕ
  ne1 : ℕ
  ne2 : ℕ
  ne3 : ℕ
  deriving DecidableEq

def Shape.nelements (s : Shape) : ℕ := s.ne0 * s.ne1 * s.ne2 * s.ne3

def Shape.strides (s : Shape) : Shape := ⟨1, s.ne0, s.ne0 * s.ne1, s.ne0 * s.ne1 * s.ne2⟩

def Shape.canRepeat (t s : Shape) : Prop :=
  if t.nelements = 0 then s.nelements = 0
  else s.ne0 % t.ne0 = 0 ∧ s.ne1 % t.ne1 = 0 ∧ s.ne2 % t.ne2 = 0 ∧ s.ne3 % t.ne3 = 0

instance (t s : Shape) : Decidable (t.canRepeat s) := by
  unfold Shape.canRepeat
  infer_instance

abbrev Buffer (ι V : Type*) := ι → ℕ → V

structure Node (ι V : Type*) where
  ne : Shape
  nb : Shape
  eval : Buffer ι V → ℕ → V

def Node.entry (g : Node ι V) (buf : Buffer ι V) (i0 i1 i2 i3 : ℕ) : V :=
  g.eval buf (i0 * g.nb.ne0 + i1 * g.nb.ne1 + i2 * g.nb.ne2 + i3 * g.nb.ne3)

def ofEntries (ne : Shape) (f : Buffer ι V → ℕ → ℕ → ℕ → ℕ → V) : Node ι V where
  ne := ne
  nb := ne.strides
  eval buf n := f buf (n % ne.ne0) (n / ne.ne0 % ne.ne1) (n / (ne.ne0 * ne.ne1) % ne.ne2)
    (n / (ne.ne0 * ne.ne1 * ne.ne2) % ne.ne3)

/-- A tensor nothing computes: its elements are what its buffer holds. -/
def leaf [Zero V] (i : ι) (ne : Shape) : Node ι V where
  ne := ne
  nb := ne.strides
  eval buf n := if n < ne.nelements then buf i n else 0

/-- A tensor of another buffer, written before the graph was built. -/
def constant (ne : Shape) (data : ℕ → V) : Node ι V where
  ne := ne
  nb := ne.strides
  eval _ n := data n

section Views

def reshape (g : Node ι V) (ne : Shape) : Option (Node ι V) :=
  if g.nb = g.ne.strides ∧ g.ne.nelements = ne.nelements then some ⟨ne, ne.strides, g.eval⟩ else none

def permute (order : Shape → Shape) (g : Node ι V) : Node ι V := ⟨order g.ne, order g.nb, g.eval⟩

def cont (g : Node ι V) : Node ι V := ofEntries g.ne g.entry

end Views

section Elementwise

def map (f : V → V) (g : Node ι V) : Node ι V :=
  ofEntries g.ne (fun buf i0 i1 i2 i3 => f (g.entry buf i0 i1 i2 i3))

/-- A binary operation with the second tensor repeated over the first. -/
def zip (op : V → V → V) (a b : Node ι V) : Option (Node ι V) :=
  if b.ne.canRepeat a.ne then
    some (ofEntries a.ne (fun buf i0 i1 i2 i3 => op (a.entry buf i0 i1 i2 i3)
      (b.entry buf (i0 % b.ne.ne0) (i1 % b.ne.ne1) (i2 % b.ne.ne2) (i3 % b.ne.ne3))))
  else none

def concat0 (a b : Node ι V) : Option (Node ι V) :=
  if a.ne.ne1 = b.ne.ne1 ∧ a.ne.ne2 = b.ne.ne2 ∧ a.ne.ne3 = b.ne.ne3 then
    some (ofEntries ⟨a.ne.ne0 + b.ne.ne0, a.ne.ne1, a.ne.ne2, a.ne.ne3⟩ (fun buf i0 i1 i2 i3 =>
      if i0 < a.ne.ne0 then a.entry buf i0 i1 i2 i3 else b.entry buf (i0 - a.ne.ne0) i1 i2 i3))
  else none

end Elementwise

section Products

variable [Zero V] [Add V] [Mul V]

def mulMat (a b : Node ι V) : Option (Node ι V) :=
  if a.ne.ne0 = b.ne.ne0 ∧ b.ne.ne2 % a.ne.ne2 = 0 ∧ b.ne.ne3 % a.ne.ne3 = 0 ∧ ¬a.nb.ne1 < a.nb.ne0 then
    some (ofEntries ⟨a.ne.ne1, b.ne.ne1, b.ne.ne2, b.ne.ne3⟩ (fun buf i0 i1 i2 i3 =>
      (List.range a.ne.ne0).foldl (fun acc l => acc +
        a.entry buf l i0 (i2 / (b.ne.ne2 / a.ne.ne2)) (i3 / (b.ne.ne3 / a.ne.ne3)) *
          b.entry buf l i1 i2 i3) 0))
  else none

/-- `ggml_calc_conv_output_size`; the division truncates. -/
def convOutputSize (ins ks s p d : ℕ) : ℤ := ((ins : ℤ) + 2 * p - d * (ks - 1) - 1).tdiv s + 1

/-- The patches of the image `b` that a kernel of the shape of `a` meets. -/
def im2col (a b : Node ι V) (s0 s1 p0 p1 d0 d1 : ℕ) : Option (Node ι V) :=
  let OH := convOutputSize b.ne.ne1 a.ne.ne1 s1 p1 d1
  let OW := convOutputSize b.ne.ne0 a.ne.ne0 s0 p0 d0
  if a.ne.ne2 = b.ne.ne2 ∧ 0 < OH ∧ 0 < OW ∧ b.nb.ne0 = 1 then
    some (ofEntries ⟨a.ne.ne2 * a.ne.ne1 * a.ne.ne0, OW.toNat, OH.toNat, b.ne.ne3⟩
      (fun buf k iow ioh in_ =>
        let iic := k / (a.ne.ne1 * a.ne.ne0)
        let ikh := k % (a.ne.ne1 * a.ne.ne0) / a.ne.ne0
        let ikw := k % a.ne.ne0
        let iiw := (iow * s0 + ikw * d0 : ℤ) - p0
        let iih := (ioh * s1 + ikh * d1 : ℤ) - p1
        if iih < 0 ∨ b.ne.ne1 ≤ iih ∨ iiw < 0 ∨ b.ne.ne0 ≤ iiw then 0
        else b.eval buf (in_ * b.nb.ne3 + iic * b.nb.ne2 + (iih.toNat * b.ne.ne0 + iiw.toNat))))
  else none

def conv2d (a b : Node ι V) (s0 s1 p0 p1 d0 d1 : ℕ) : Option (Node ι V) := do
  let cols ← im2col a b s0 s1 p0 p1 d0 d1
  let rows ← reshape cols ⟨cols.ne.ne0, cols.ne.ne3 * cols.ne.ne2 * cols.ne.ne1, 1, 1⟩
  let kernels ← reshape a ⟨a.ne.ne0 * a.ne.ne1 * a.ne.ne2, a.ne.ne3, 1, 1⟩
  let result ← mulMat rows kernels
  let result ← reshape result ⟨cols.ne.ne1, cols.ne.ne2, cols.ne.ne3, a.ne.ne3⟩
  some (cont (permute (fun s => ⟨s.ne0, s.ne1, s.ne3, s.ne2⟩) result))

/-- `ggml_calc_pool_output_size` without padding; the quotient is a float and is truncated. -/
def poolOutputSize (ins k s : ℕ) : ℕ := (((ins : ℤ) - k + s).tdiv s).toNat

/-- The cells a pooling window covers, in the order they are added. -/
def window (ne : Shape) (k0 k1 s0 s1 ox oy : ℕ) : List (ℕ × ℕ) :=
  ((List.range k1 ×ˢ List.range k0).map (fun c => (ox * s0 + c.2, oy * s1 + c.1))).filter
    (fun c => c.2 < ne.ne1 ∧ c.1 < ne.ne0)

/-- Average pooling without padding; cells outside count in the divisor only. -/
def poolAvg [Div V] [NatCast V] (g : Node ι V) (k0 k1 s0 s1 : ℕ) : Node ι V :=
  ofEntries ⟨poolOutputSize g.ne.ne0 k0 s0, poolOutputSize g.ne.ne1 k1 s1, g.ne.ne2, g.ne.ne3⟩
    (fun buf ox oy i2 i3 =>
      (window g.ne k0 k1 s0 s1 ox oy).foldl (fun acc c => acc + g.entry buf c.1 c.2 i2 i3) 0 /
        ((k0 * k1 : ℕ) : V))

end Products

section Memory

/-- The first `n` elements of one leaf are overwritten. -/
def tensorSet [DecidableEq ι] (buf : Buffer ι V) (i : ι) (data : ℕ → V) (n : ℕ) : Buffer ι V :=
  Function.update buf i (fun k => if k < n then data k else buf i k)

def tensorGet (g : Node ι V) (buf : Buffer ι V) (n : ℕ) : Option (List V) :=
  if n ≤ g.ne.nelements then some ((List.range n).map (g.eval buf)) else none

theorem tensorSet_self [DecidableEq ι] (buf : Buffer ι V) (i : ι) (data : ℕ → V) {n k : ℕ} (h : k < n) :
    tensorSet buf i data n i k = data k := by
  have hupdate : tensorSet buf i data n i = fun k => if k < n then data k else buf i k :=
    Function.update_self ..
  rw [hupdate]
  exact if_pos h

theorem tensorSet_of_ne [DecidableEq ι] (buf : Buffer ι V) {i j : ι} (data : ℕ → V) (n : ℕ) (h : j ≠ i) :
    tensorSet buf i data n j = buf j := Function.update_of_ne h ..

end Memory

theorem of_asserted {α : Type*} {p : Prop} [Decidable p] {x y : α}
    (h : (if p then some x else none) = some y) : p ∧ x = y :=
  (Option.ite_none_right_eq_some.mp h).imp_right Option.some.inj

section Built

variable {a b g : Node ι V}

theorem reshape_eq {ne : Shape} (h : reshape a ne = some g) : g = ⟨ne, ne.strides, a.eval⟩ := by
  unfold reshape at h
  exact (of_asserted h).2.symm

theorem zip_eq {op : V → V → V} (h : zip op a b = some g) :
    g = ofEntries a.ne (fun buf i0 i1 i2 i3 => op (a.entry buf i0 i1 i2 i3)
      (b.entry buf (i0 % b.ne.ne0) (i1 % b.ne.ne1) (i2 % b.ne.ne2) (i3 % b.ne.ne3))) := by
  unfold zip at h
  exact (of_asserted h).2.symm

theorem mulMat_eq [Zero V] [Add V] [Mul V] (h : mulMat a b = some g) : a.ne.ne0 = b.ne.ne0 ∧
    g = ofEntries ⟨a.ne.ne1, b.ne.ne1, b.ne.ne2, b.ne.ne3⟩ (fun buf i0 i1 i2 i3 =>
      (List.range a.ne.ne0).foldl (fun acc l => acc +
        a.entry buf l i0 (i2 / (b.ne.ne2 / a.ne.ne2)) (i3 / (b.ne.ne3 / a.ne.ne3)) *
          b.entry buf l i1 i2 i3) 0) := by
  unfold mulMat at h
  obtain ⟨asserted, hg⟩ := of_asserted h
  exact ⟨asserted.1, hg.symm⟩

end Built

section Related

/-- Every element computed from the first buffer is related to the one computed from the second. -/
def Node.Related (r : V → V → Prop) (buf buf' : Buffer ι V) (g : Node ι V) : Prop :=
  ∀ n, r (g.eval buf n) (g.eval buf' n)

/-- A relation that sums and products of related values keep. -/
structure Compatible [Zero V] [Add V] [Mul V] (r : V → V → Prop) : Prop where
  zero : r 0 0
  add : ∀ {x x' y y'}, r x x' → r y y' → r (x + y) (x' + y')
  mul : ∀ {x x' y y'}, r x x' → r y y' → r (x * y) (x' * y')

variable {r : V → V → Prop} {buf buf' : Buffer ι V} {a b g : Node ι V}

theorem Node.Related.entry (h : a.Related r buf buf') (i0 i1 i2 i3 : ℕ) :
    r (a.entry buf i0 i1 i2 i3) (a.entry buf' i0 i1 i2 i3) := h _

theorem ofEntries_related {ne : Shape} {f : Buffer ι V → ℕ → ℕ → ℕ → ℕ → V}
    (h : ∀ i0 i1 i2 i3, r (f buf i0 i1 i2 i3) (f buf' i0 i1 i2 i3)) :
    (ofEntries ne f).Related r buf buf' := fun _ => h _ _ _ _

theorem constant_related {ne : Shape} {data : ℕ → V} (h : ∀ n, r (data n) (data n)) :
    (constant ne data : Node ι V).Related r buf buf' := h

theorem reshape_related {ne : Shape} (hg : reshape a ne = some g) (h : a.Related r buf buf') :
    g.Related r buf buf' := by
  rw [reshape_eq hg]
  exact h

theorem cont_related (h : a.Related r buf buf') : (cont a).Related r buf buf' :=
  ofEntries_related h.entry

theorem map_related {f : V → V} (hf : ∀ {x x'}, r x x' → r (f x) (f x')) (h : a.Related r buf buf') :
    (map f a).Related r buf buf' :=
  ofEntries_related (fun i0 i1 i2 i3 => hf (h.entry i0 i1 i2 i3))

theorem zip_related {op : V → V → V}
    (hop : ∀ {x x' y y'}, r x x' → r y y' → r (op x y) (op x' y')) (hg : zip op a b = some g)
    (ha : a.Related r buf buf') (hb : b.Related r buf buf') : g.Related r buf buf' := by
  rw [zip_eq hg]
  exact ofEntries_related (fun _ _ _ _ => hop (ha.entry _ _ _ _) (hb.entry _ _ _ _))

theorem concat0_related (hg : concat0 a b = some g) (ha : a.Related r buf buf')
    (hb : b.Related r buf buf') : g.Related r buf buf' := by
  unfold concat0 at hg
  obtain ⟨-, rfl⟩ := of_asserted hg
  refine ofEntries_related (fun i0 i1 i2 i3 => ?_)
  split
  · exact ha.entry _ _ _ _
  · exact hb.entry _ _ _ _

variable [Zero V] [Add V] [Mul V]

theorem Compatible.foldl (hr : Compatible r) {κ : Type*} (l : List κ) {f f' : κ → V}
    (h : ∀ i, r (f i) (f' i)) {x x' : V} (hx : r x x') :
    r (l.foldl (fun acc i => acc + f i) x) (l.foldl (fun acc i => acc + f' i) x') := by
  induction l generalizing x x' with
  | nil => exact hx
  | cons i l ih => exact ih (hr.add hx (h i))

theorem mulMat_related (hr : Compatible r) (hg : mulMat a b = some g) (ha : a.Related r buf buf')
    (hb : b.Related r buf buf') : g.Related r buf buf' := by
  rw [(mulMat_eq hg).2]
  exact ofEntries_related (fun _ _ _ _ =>
    hr.foldl _ (fun l => hr.mul (ha.entry _ _ _ _) (hb.entry _ _ _ _)) hr.zero)

theorem im2col_related (hr : Compatible r) {s0 s1 p0 p1 d0 d1 : ℕ}
    (hg : im2col a b s0 s1 p0 p1 d0 d1 = some g) (hb : b.Related r buf buf') :
    g.Related r buf buf' := by
  unfold im2col at hg
  obtain ⟨-, rfl⟩ := of_asserted hg
  refine ofEntries_related (fun k iow ioh in_ => ?_)
  dsimp only
  split
  · exact hr.zero
  · exact hb _

theorem conv2d_related (hr : Compatible r) {s0 s1 p0 p1 d0 d1 : ℕ}
    (hg : conv2d a b s0 s1 p0 p1 d0 d1 = some g) (ha : a.Related r buf buf')
    (hb : b.Related r buf buf') : g.Related r buf buf' := by
  simp only [conv2d, Option.bind_eq_bind, Option.bind_eq_some_iff, Option.some.injEq] at hg
  obtain ⟨cols, hcols, rows, hrows, kernels, hkernels, product, hproduct, result, hresult, rfl⟩ := hg
  have hprod : product.Related r buf buf' := mulMat_related hr hproduct
    (reshape_related hrows (im2col_related hr hcols hb)) (reshape_related hkernels ha)
  have hres : result.Related r buf buf' := reshape_related hresult hprod
  exact cont_related (a := permute _ result) hres

theorem poolAvg_related [Div V] [NatCast V] (hr : Compatible r) {k0 k1 s0 s1 : ℕ}
    (hdiv : ∀ {x x'}, r x x' → r (x / ((k0 * k1 : ℕ) : V)) (x' / ((k0 * k1 : ℕ) : V)))
    (ha : a.Related r buf buf') : (poolAvg a k0 k1 s0 s1).Related r buf buf' :=
  ofEntries_related (fun _ _ _ _ => hdiv (hr.foldl _ (fun _ => ha.entry _ _ _ _) hr.zero))

end Related

section Shapes

variable {a b g : Node ι V}

theorem zip_ne {op : V → V → V} (h : zip op a b = some g) : g.ne = a.ne := by
  rw [zip_eq h]
  rfl

theorem conv2d_ne [Zero V] [Add V] [Mul V] {s0 s1 p0 p1 d0 d1 : ℕ}
    (h : conv2d a b s0 s1 p0 p1 d0 d1 = some g) :
    0 < g.ne.ne0 ∧ 0 < g.ne.ne1 ∧ g.ne.ne2 = a.ne.ne3 := by
  simp only [conv2d, Option.bind_eq_bind, Option.bind_eq_some_iff, Option.some.injEq] at h
  obtain ⟨cols, hcols, rows, -, kernels, -, product, -, result, hresult, rfl⟩ := h
  unfold im2col at hcols
  obtain ⟨⟨-, hOH, hOW, -⟩, rfl⟩ := of_asserted hcols
  obtain rfl := reshape_eq hresult
  exact ⟨Int.lt_toNat.mpr hOW, Int.lt_toNat.mpr hOH, rfl⟩

end Shapes

section Entries

variable {ne : Shape} {f : Buffer ι V → ℕ → ℕ → ℕ → ℕ → V} {buf : Buffer ι V}

theorem entry_ofEntries {i0 i1 i2 i3 : ℕ} (h0 : i0 < ne.ne0) (h1 : i1 < ne.ne1) (h2 : i2 < ne.ne2)
    (h3 : i3 < ne.ne3) : (ofEntries ne f).entry buf i0 i1 i2 i3 = f buf i0 i1 i2 i3 := by
  set n := i0 * 1 + i1 * ne.ne0 + i2 * (ne.ne0 * ne.ne1) + i3 * (ne.ne0 * ne.ne1 * ne.ne2) with hn
  have hd0 : n = i0 + (i1 + (i2 + i3 * ne.ne2) * ne.ne1) * ne.ne0 := by rw [hn]; ring
  have hmod : n % ne.ne0 = i0 := by
    rw [hd0, Nat.add_mul_mod_self_right, Nat.mod_eq_of_lt h0]
  have hdiv0 : n / ne.ne0 = i1 + (i2 + i3 * ne.ne2) * ne.ne1 := by
    rw [hd0, Nat.add_mul_div_right _ _ (Nat.zero_lt_of_lt h0), Nat.div_eq_of_lt h0, Nat.zero_add]
  have hdiv1 : n / (ne.ne0 * ne.ne1) = i2 + i3 * ne.ne2 := by
    rw [← Nat.div_div_eq_div_mul, hdiv0, Nat.add_mul_div_right _ _ (Nat.zero_lt_of_lt h1),
      Nat.div_eq_of_lt h1, Nat.zero_add]
  have hdiv2 : n / (ne.ne0 * ne.ne1 * ne.ne2) = i3 := by
    rw [← Nat.div_div_eq_div_mul, hdiv1, Nat.add_mul_div_right _ _ (Nat.zero_lt_of_lt h2),
      Nat.div_eq_of_lt h2, Nat.zero_add]
  change f buf (n % ne.ne0) (n / ne.ne0 % ne.ne1) (n / (ne.ne0 * ne.ne1) % ne.ne2)
    (n / (ne.ne0 * ne.ne1 * ne.ne2) % ne.ne3) = _
  rw [hmod, hdiv0, Nat.add_mul_mod_self_right, Nat.mod_eq_of_lt h1, hdiv1,
    Nat.add_mul_mod_self_right, Nat.mod_eq_of_lt h2, hdiv2, Nat.mod_eq_of_lt h3]

theorem map_entry (g : Node ι V) (op : V → V) {i0 i1 i2 i3 : ℕ} (h0 : i0 < g.ne.ne0) (h1 : i1 < g.ne.ne1)
    (h2 : i2 < g.ne.ne2) (h3 : i3 < g.ne.ne3) :
    (map op g).entry buf i0 i1 i2 i3 = op (g.entry buf i0 i1 i2 i3) := entry_ofEntries h0 h1 h2 h3

theorem forall_ofEntries {P : V → Prop} (h0 : 0 < ne.ne0) (h1 : 0 < ne.ne1) (h2 : 0 < ne.ne2)
    (h3 : 0 < ne.ne3) (h : ∀ i0 i1 i2 i3, i0 < ne.ne0 → i1 < ne.ne1 → i2 < ne.ne2 → i3 < ne.ne3 →
      P (f buf i0 i1 i2 i3)) (n : ℕ) : P ((ofEntries ne f).eval buf n) :=
  h _ _ _ _ (Nat.mod_lt _ h0) (Nat.mod_lt _ h1) (Nat.mod_lt _ h2) (Nat.mod_lt _ h3)

theorem mem_window {s : Shape} {k0 k1 s0 s1 ox oy : ℕ} {c : ℕ × ℕ}
    (h : c ∈ window s k0 k1 s0 s1 ox oy) : c.1 < s.ne0 ∧ c.2 < s.ne1 := by
  have hin := (List.mem_filter.mp h).2
  rw [decide_eq_true_eq] at hin
  exact ⟨hin.2, hin.1⟩

theorem window_length (s : Shape) (k0 k1 s0 s1 ox oy : ℕ) :
    (window s k0 k1 s0 s1 ox oy).length ≤ k0 * k1 := by
  refine (List.length_filter_le _ _).trans ?_
  rw [List.length_map, List.length_product, List.length_range, List.length_range, Nat.mul_comm]

end Entries

end PyannoteCpp.TensorGraph
