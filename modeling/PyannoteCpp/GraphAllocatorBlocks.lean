import PyannoteCpp.GraphAllocator
import PyannoteCpp.TallocrRuns

set_option autoImplicit false

/-!
# The blocks of a plan in the making

The tensors the graph allocator holds memory for each have a range in use of
the allocator of their buffer type. This survives fresh allocations, blocks
taken over from a parent, and frees.
-/
namespace PyannoteCpp.Gallocr

open Tallocr

variable {buffers : Buffers} {graph : Cgraph} {s s' : GallocrState} {owned owned' : List ℕ}
  {node parent t buft b : ℕ}

def InGraph (graph : Cgraph) (t : ℕ) : Prop :=
  t ∈ graph.nodes ∨ t ∈ graph.leafs ∨ ∃ node ∈ graph.nodes, t ∈ (graph.tensor node).src

/-- A tensor with memory of its own that is not elsewhere already. -/
def Plain (graph : Cgraph) (t : ℕ) : Prop :=
  (graph.tensor t).viewSrc = none ∧ (graph.tensor t).data = none ∧ (graph.tensor t).buffer = false

structure Sizes (buffers : Buffers) (graph : Cgraph) : Prop where
  alignment : ∀ buft ∈ buffers.bufts, 0 < buffers.alignment buft
  padded : ∀ buft ∈ buffers.bufts, ∀ t, InGraph graph t → Plain graph t →
    paddedOffset (buffers.allocSize buft t) (buffers.alignment buft) < 2 ^ 63

/-- No tensor whose operation works in place reads itself. -/
def NoSelfReuse (graph : Cgraph) : Prop :=
  ∀ t, InGraph graph t → Plain graph t → ggmlOpCanInplace (graph.tensor t).op = true → t ∉ (graph.tensor t).src

section hash

variable (s) (f : HashNode → HashNode)

@[simp] theorem modify_hash_self : (s.modify t f).hash t = f (s.hash t) := Function.update_self _ _ _

@[simp] theorem modify_hash_ne {u : ℕ} (h : u ≠ t) : (s.modify t f).hash u = s.hash u :=
  Function.update_of_ne h _ _

@[simp] theorem modify_tallocs : (s.modify t f).tallocs = s.tallocs := rfl

end hash

section fields

variable (a : Bool) (k : ℤ) (addr : BufferAddress) (hn : HashNode)

@[simp] theorem setAllocated_nChildren : (setAllocated a hn).nChildren = hn.nChildren := rfl
@[simp] theorem setAllocated_nViews : (setAllocated a hn).nViews = hn.nViews := rfl
@[simp] theorem setAllocated_bufferId : (setAllocated a hn).bufferId = hn.bufferId := rfl
@[simp] theorem setAllocated_addr : (setAllocated a hn).addr = hn.addr := rfl
@[simp] theorem setAllocated_allocated : (setAllocated a hn).allocated = a := rfl
@[simp] theorem placeAt_nChildren : (placeAt b addr hn).nChildren = hn.nChildren := rfl
@[simp] theorem placeAt_nViews : (placeAt b addr hn).nViews = hn.nViews := rfl
@[simp] theorem placeAt_bufferId : (placeAt b addr hn).bufferId = b := rfl
@[simp] theorem placeAt_addr : (placeAt b addr hn).addr = addr := rfl
@[simp] theorem placeAt_allocated : (placeAt b addr hn).allocated = hn.allocated := rfl
@[simp] theorem addChildren_nChildren : (addChildren k hn).nChildren = hn.nChildren + k := rfl
@[simp] theorem addChildren_nViews : (addChildren k hn).nViews = hn.nViews := rfl
@[simp] theorem addChildren_bufferId : (addChildren k hn).bufferId = hn.bufferId := rfl
@[simp] theorem addChildren_addr : (addChildren k hn).addr = hn.addr := rfl
@[simp] theorem addChildren_allocated : (addChildren k hn).allocated = hn.allocated := rfl
@[simp] theorem addViews_nChildren : (addViews k hn).nChildren = hn.nChildren := rfl
@[simp] theorem addViews_nViews : (addViews k hn).nViews = hn.nViews + k := rfl
@[simp] theorem addViews_bufferId : (addViews k hn).bufferId = hn.bufferId := rfl
@[simp] theorem addViews_addr : (addViews k hn).addr = hn.addr := rfl
@[simp] theorem addViews_allocated : (addViews k hn).allocated = hn.allocated := rfl

end fields

section live

variable (buffers) (hash : ℕ → HashNode)

def buftOf (t : ℕ) : Option ℕ := buffers.bufts[(hash t).bufferId]?

def paddedSize (buft t : ℕ) : ℕ := paddedOffset (buffers.allocSize buft t) (buffers.alignment buft)

def liveRange (buft t : ℕ) : LiveRange := ⟨(hash t).addr.chunk, ⟨(hash t).addr.offset, paddedSize buffers buft t⟩⟩

def liveOn (owned : List ℕ) (buft : ℕ) : List LiveRange :=
  (owned.filter (fun t => buftOf buffers hash t = some buft)).map (liveRange buffers hash buft)

variable {hash}

theorem liveOn_congr {hash' : ℕ → HashNode}
    (h : ∀ t ∈ owned, (hash' t).bufferId = (hash t).bufferId ∧ (hash' t).addr = (hash t).addr) (buft : ℕ) :
    liveOn buffers hash' owned buft = liveOn buffers hash owned buft := by
  unfold liveOn
  have hfilter : owned.filter (fun t => buftOf buffers hash' t = some buft) =
      owned.filter (fun t => buftOf buffers hash t = some buft) := by
    apply List.filter_congr
    intro t ht
    unfold buftOf
    rw [(h t ht).1]
  rw [hfilter]
  apply List.map_congr_left
  intro t ht
  unfold liveRange
  rw [(h t (List.mem_filter.1 ht).1).2]

theorem liveOn_cons_self (h : buftOf buffers hash t = some buft) (owned : List ℕ) :
    liveOn buffers hash (t :: owned) buft = liveRange buffers hash buft t :: liveOn buffers hash owned buft := by
  simp only [liveOn, List.filter_cons, h, decide_true, if_true, List.map_cons]

theorem liveOn_cons_ne (h : buftOf buffers hash t ≠ some buft) (owned : List ℕ) :
    liveOn buffers hash (t :: owned) buft = liveOn buffers hash owned buft := by
  simp only [liveOn, List.filter_cons, h, decide_false, Bool.false_eq_true, if_false]

theorem liveOn_perm (h : owned.Perm owned') (buft : ℕ) :
    (liveOn buffers hash owned buft).Perm (liveOn buffers hash owned' buft) := (h.filter _).map _

end live

/-- `owned` lists the tensors that hold memory. -/
structure OwnInv (buffers : Buffers) (graph : Cgraph) (s : GallocrState) (owned : List ℕ) : Prop where
  nodup : owned.Nodup
  mem : ∀ t, t ∈ owned ↔ (s.hash t).allocated = true
  plain : ∀ t ∈ owned, InGraph graph t ∧ Plain graph t
  placed : ∀ t ∈ owned, ∃ buft, buftOf buffers s.hash t = some buft
  tallocs : ∀ buft, TallocrInv (buffers.alignment buft) ⟨s.tallocs buft, liveOn buffers s.hash owned buft⟩

theorem OwnInv.perm (h : OwnInv buffers graph s owned) (hp : owned.Perm owned') : OwnInv buffers graph s owned' :=
  ⟨hp.nodup_iff.1 h.nodup, fun t => hp.mem_iff.symm.trans (h.mem t), fun t ht => h.plain t (hp.mem_iff.2 ht),
    fun t ht => h.placed t (hp.mem_iff.2 ht), fun buft => (h.tallocs buft).perm (liveOn_perm buffers hp buft)⟩

theorem OwnInv.front (h : OwnInv buffers graph s owned) (ht : (s.hash t).allocated = true) :
    ∃ rest, owned.Perm (t :: rest) ∧ OwnInv buffers graph s (t :: rest) := by
  have hp := List.perm_cons_erase ((h.mem t).2 ht)
  exact ⟨owned.erase t, hp, h.perm hp⟩

theorem OwnInv.count (h : OwnInv buffers graph s owned) {f : HashNode → HashNode}
    (hf : ∀ hn, (f hn).bufferId = hn.bufferId ∧ (f hn).addr = hn.addr ∧ (f hn).allocated = hn.allocated) (u : ℕ) :
    OwnInv buffers graph (s.modify u f) owned := by
  have hsame : ∀ t, ((s.modify u f).hash t).bufferId = (s.hash t).bufferId ∧
      ((s.modify u f).hash t).addr = (s.hash t).addr ∧
      ((s.modify u f).hash t).allocated = (s.hash t).allocated := by
    intro t
    by_cases ht : t = u
    · subst ht
      rw [modify_hash_self]
      exact hf _
    · rw [modify_hash_ne s f ht]
      exact ⟨rfl, rfl, rfl⟩
  refine ⟨h.nodup, fun t => by rw [(hsame t).2.2]; exact h.mem t, h.plain, ?_, ?_⟩
  · intro t ht
    unfold buftOf
    rw [(hsame t).1]
    exact h.placed t ht
  · intro buft
    rw [liveOn_congr buffers (fun t _ => ⟨(hsame t).1, (hsame t).2.1⟩)]
    exact h.tallocs buft

theorem ownInv_cons (h : OwnInv buffers graph s owned) (hin : InGraph graph node ∧ Plain graph node)
    (hno : node ∉ owned) (hsame : ∀ t, t ≠ node → s'.hash t = s.hash t)
    (hnode : (s'.hash node).allocated = true) (hb : buftOf buffers s'.hash node = some buft)
    (ht : ∀ d, d ≠ buft → s'.tallocs d = s.tallocs d)
    (hinv : TallocrInv (buffers.alignment buft)
      ⟨s'.tallocs buft, liveRange buffers s'.hash buft node :: liveOn buffers s.hash owned buft⟩) :
    OwnInv buffers graph s' (node :: owned) := by
  have hne : ∀ t ∈ owned, t ≠ node := fun t ht he => hno (he ▸ ht)
  have hlive : ∀ d, liveOn buffers s'.hash owned d = liveOn buffers s.hash owned d := by
    intro d
    apply liveOn_congr
    intro t ht
    rw [hsame t (hne t ht)]
    exact ⟨rfl, rfl⟩
  refine ⟨List.nodup_cons.2 ⟨hno, h.nodup⟩, ?_, ?_, ?_, ?_⟩
  · intro t
    by_cases heq : t = node
    · subst heq
      exact ⟨fun _ => hnode, fun _ => List.mem_cons_self⟩
    · rw [hsame t heq, List.mem_cons, ← h.mem t]
      exact or_iff_right heq
  · intro t ht
    rcases List.mem_cons.1 ht with rfl | ht
    · exact hin
    · exact h.plain t ht
  · intro t ht
    rcases List.mem_cons.1 ht with rfl | ht
    · exact ⟨buft, hb⟩
    · unfold buftOf
      rw [hsame t (hne t ht)]
      exact h.placed t ht
  · intro d
    by_cases hd : d = buft
    · subst hd
      rw [liveOn_cons_self buffers hb, hlive]
      exact hinv
    · have hbuft : buftOf buffers s'.hash node ≠ some d := by
        rw [hb]
        exact fun he => hd (Option.some.inj he).symm
      rw [liveOn_cons_ne buffers hbuft, hlive, ht d hd]
      exact h.tallocs d

theorem ownInv_release (h : OwnInv buffers graph s (t :: owned)) (hsame : ∀ u, u ≠ t → s'.hash u = s.hash u)
    (ht : (s'.hash t).allocated = false)
    (hinv : ∀ d, TallocrInv (buffers.alignment d) ⟨s'.tallocs d, liveOn buffers s.hash owned d⟩) :
    OwnInv buffers graph s' owned := by
  have hno : t ∉ owned := (List.nodup_cons.1 h.nodup).1
  have hne : ∀ u ∈ owned, u ≠ t := fun u hu he => hno (he ▸ hu)
  refine ⟨(List.nodup_cons.1 h.nodup).2, ?_, fun u hu => h.plain u (List.mem_cons_of_mem _ hu), ?_, ?_⟩
  · intro u
    by_cases heq : u = t
    · subst heq
      rw [ht]
      exact ⟨fun hu => absurd hu hno, fun hu => nomatch hu⟩
    · rw [hsame u heq, ← h.mem u, List.mem_cons]
      exact (or_iff_right heq).symm
  · intro u hu
    unfold buftOf
    rw [hsame u (hne u hu)]
    exact h.placed u (List.mem_cons_of_mem _ hu)
  · intro d
    have hlive : liveOn buffers s'.hash owned d = liveOn buffers s.hash owned d := by
      apply liveOn_congr
      intro u hu
      rw [hsame u (hne u hu)]
      exact ⟨rfl, rfl⟩
    rw [hlive]
    exact hinv d

theorem OwnInv.tallocs_tail (h : OwnInv buffers graph s (t :: owned)) (d : ℕ) :
    TallocrInv (buffers.alignment d) ⟨s.tallocs d, liveOn buffers s.hash owned d⟩ := by
  have hinv := h.tallocs d
  by_cases hd : buftOf buffers s.hash t = some d
  · rw [liveOn_cons_self buffers hd] at hinv
    exact hinv.drop
  · rwa [liveOn_cons_ne buffers hd] at hinv

theorem allocateFresh_ok (hm : allocateFresh buffers s node b = .ok s') :
    ∃ buft talloc addr, buffers.bufts[b]? = some buft ∧
      ggmlDynTallocrAlloc (s.tallocs buft) (buffers.allocSize buft node) = .ok (talloc, addr) ∧
      s' = { s.modify node (placeAt b addr) with tallocs := Function.update s.tallocs buft talloc } := by
  unfold allocateFresh at hm
  cases hb : buffers.bufts[b]? with
  | none => simp only [hb] at hm; cases hm
  | some buft =>
    simp only [hb] at hm
    cases ha : ggmlDynTallocrAlloc (s.tallocs buft) (buffers.allocSize buft node) with
    | error e => simp only [ha] at hm; cases hm
    | ok p =>
      simp only [ha] at hm
      cases hm
      exact ⟨buft, p.1, p.2, rfl, ha, rfl⟩

theorem allocateFresh_inv (hs : Sizes buffers graph) (h : OwnInv buffers graph s owned)
    (hin : InGraph graph node ∧ Plain graph node) (hno : node ∉ owned)
    (hm : allocateFresh buffers (s.modify node (setAllocated true)) node b = .ok s') :
    OwnInv buffers graph s' (node :: owned) := by
  obtain ⟨buft, talloc, addr, hb, ha, rfl⟩ := allocateFresh_ok hm
  have hmem := List.mem_of_getElem? hb
  have hinv := alloc_inv (hs.alignment buft hmem) (h.tallocs buft) (hs.padded buft hmem node hin.1 hin.2) ha
  have hbuft : buftOf buffers (((s.modify node (setAllocated true)).modify node (placeAt b addr)).hash) node =
      some buft := by
    simpa [buftOf] using hb
  refine ownInv_cons h hin hno ?_ ?_ hbuft ?_ ?_
  · intro t ht
    exact (modify_hash_ne _ _ ht).trans (modify_hash_ne _ _ ht)
  · simp
  · exact fun d hd => Function.update_of_ne hd _ _
  · simpa [liveRange, paddedSize] using hinv

theorem paddedOffset_of_dvd {n a : ℕ} (h : a ∣ n) : paddedOffset n a = n := by
  unfold paddedOffset
  rw [Nat.mod_eq_zero_of_dvd h, Nat.sub_zero, Nat.mod_self, Nat.add_zero]

theorem paddedOffset_mono {n m a : ℕ} (ha : 0 < a) (h : n ≤ m) : paddedOffset n a ≤ paddedOffset m a := by
  have hlt : paddedOffset n a < n + a := Nat.add_lt_add_left (Nat.mod_lt _ ha) n
  have hle := le_paddedOffset m a
  obtain ⟨x, hx⟩ := dvd_paddedOffset n ha
  obtain ⟨y, hy⟩ := dvd_paddedOffset m ha
  rw [hx] at hlt ⊢
  rw [hy] at hle ⊢
  have hxy : a * x < a * (y + 1) := by
    rw [Nat.mul_add, Nat.mul_one]
    omega
  exact Nat.mul_le_mul_left a (Nat.le_of_lt_succ (Nat.lt_of_mul_lt_mul_left hxy))

theorem tallocrFreeBytes_ok {addr : BufferAddress} {size : ℕ}
    (hm : tallocrFreeBytes s buft addr size = .ok s') :
    ∃ talloc, ggmlDynTallocrFreeBytes (s.tallocs buft) addr size = .ok talloc ∧
      s' = { s with tallocs := Function.update s.tallocs buft talloc } := by
  unfold tallocrFreeBytes at hm
  cases hf : ggmlDynTallocrFreeBytes (s.tallocs buft) addr size with
  | error e => simp only [hf] at hm; cases hm
  | ok talloc =>
    simp only [hf] at hm
    cases hm
    exact ⟨talloc, rfl, rfl⟩

theorem freeNode_ok (hm : freeNode buffers graph s t = .ok s') :
    ((graph.tensor t).output = true ∧ s' = s) ∨
    ((graph.tensor t).output = false ∧ ∃ buft talloc, buffers.bufts[(s.hash t).bufferId]? = some buft ∧
      ggmlDynTallocrFreeBytes (s.tallocs buft) (s.hash t).addr (buffers.allocSize buft t) = .ok talloc ∧
      s' = ({ s with tallocs := Function.update s.tallocs buft talloc } : GallocrState).modify t
        (setAllocated false)) := by
  unfold freeNode at hm
  split_ifs at hm with hout
  · cases hm
    exact .inl ⟨hout, rfl⟩
  · cases hb : buffers.bufts[(s.hash t).bufferId]? with
    | none => simp only [hb] at hm; cases hm
    | some buft =>
      simp only [hb] at hm
      cases hf : tallocrFreeBytes s buft (s.hash t).addr (buffers.allocSize buft t) with
      | error e => simp only [hf] at hm; cases hm
      | ok u =>
        simp only [hf] at hm
        cases hm
        obtain ⟨talloc, hfree, rfl⟩ := tallocrFreeBytes_ok hf
        exact .inr ⟨by simpa using hout, buft, talloc, rfl, hfree, rfl⟩

theorem freeNode_inv (hs : Sizes buffers graph) (h : OwnInv buffers graph s owned)
    (ht : (s.hash t).allocated = true) (hm : freeNode buffers graph s t = .ok s') :
    ∃ owned', OwnInv buffers graph s' owned' := by
  rcases freeNode_ok hm with ⟨-, rfl⟩ | ⟨-, buft, talloc, hb, hfree, rfl⟩
  · exact ⟨owned, h⟩
  · obtain ⟨rest, -, hfront⟩ := h.front ht
    have hmem := List.mem_of_getElem? hb
    obtain ⟨hin, hplain⟩ := hfront.plain t List.mem_cons_self
    have hinv := hfront.tallocs buft
    rw [liveOn_cons_self buffers hb] at hinv
    rw [liveRange, ← Nat.zero_add (paddedSize buffers buft t)] at hinv
    have hgive := give_inv hinv (dvd_zero _) (alignedOffset_of_lt (hs.padded buft hmem t hin hplain)) hfree
    refine ⟨rest, ownInv_release hfront (fun u hu => modify_hash_ne _ _ hu) (by simp [setAllocated]) ?_⟩
    intro d
    by_cases hd : d = buft
    · subst hd
      simpa using hgive.drop
    · simpa [Function.update_of_ne hd] using hfront.tallocs_tail d

theorem freeExtraSpace_ok (hm : freeExtraSpace buffers s node parent = .ok s') :
    ∃ pb nb, buffers.bufts[(s.hash parent).bufferId]? = some pb ∧ buffers.bufts[(s.hash node).bufferId]? = some nb ∧
      buffers.allocSize nb node ≤ buffers.allocSize pb parent ∧
      (s' = s ∧ alignedOffset (buffers.allocSize pb parent) (s.tallocs pb).alignment ≤
          alignedOffset (buffers.allocSize nb node) (s.tallocs pb).alignment ∨
        alignedOffset (buffers.allocSize nb node) (s.tallocs pb).alignment <
          alignedOffset (buffers.allocSize pb parent) (s.tallocs pb).alignment ∧
        ∃ talloc, ggmlDynTallocrFreeBytes (s.tallocs pb) ⟨(s.hash parent).addr.chunk,
            wrap64 ((s.hash parent).addr.offset +
              alignedOffset (buffers.allocSize nb node) (s.tallocs pb).alignment)⟩
            (alignedOffset (buffers.allocSize pb parent) (s.tallocs pb).alignment -
              alignedOffset (buffers.allocSize nb node) (s.tallocs pb).alignment) = .ok talloc ∧
          s' = { s with tallocs := Function.update s.tallocs pb talloc }) := by
  unfold freeExtraSpace at hm
  cases hp : buffers.bufts[(s.hash parent).bufferId]? with
  | none => simp only [hp] at hm; cases hm
  | some pb =>
    cases hn : buffers.bufts[(s.hash node).bufferId]? with
    | none => simp only [hp, hn] at hm; cases hm
    | some nb =>
      simp only [hp, hn] at hm
      split_ifs at hm with hsize hextra
      · exact ⟨pb, nb, rfl, rfl, Nat.not_lt.1 hsize, .inr ⟨hextra, tallocrFreeBytes_ok hm⟩⟩
      · cases hm
        exact ⟨pb, nb, rfl, rfl, Nat.not_lt.1 hsize, .inl ⟨rfl, Nat.not_lt.1 hextra⟩⟩

/-- A node takes the start of the block of its parent, and the rest of the block is freed. -/
theorem takeOver_inv (hs : Sizes buffers graph) (h : OwnInv buffers graph s owned)
    (hin : InGraph graph node ∧ Plain graph node) (hno : node ∉ owned) (hp : (s.hash parent).allocated = true)
    (hm : freeExtraSpace buffers (takeOver (s.modify node (setAllocated true)) node parent parent) node parent =
      .ok s') : ∃ owned', OwnInv buffers graph s' owned' := by
  obtain ⟨rest, hperm, hfront⟩ := h.front hp
  have hne : parent ≠ node := fun he => hno (he ▸ (h.mem parent).2 hp)
  have hnorest : node ∉ rest := fun hn => hno (hperm.mem_iff.2 (List.mem_cons_of_mem _ hn))
  obtain ⟨hpin, hpplain⟩ := hfront.plain parent List.mem_cons_self
  set u := takeOver (s.modify node (setAllocated true)) node parent parent with hu
  have hparent : u.hash parent = setAllocated false (s.hash parent) := by
    simp [hu, takeOver, hne, setAllocated]
  have hnode : u.hash node =
      placeAt (s.hash parent).bufferId (s.hash parent).addr (setAllocated true (s.hash node)) := by
    simp [hu, takeOver, hne, hne.symm]
  have hother : ∀ t, t ≠ node → t ≠ parent → u.hash t = s.hash t := by
    intro t htn htp
    simp [hu, takeOver, htn, htp]
  have hreleased : OwnInv buffers graph (s.modify parent (setAllocated false)) rest :=
    ownInv_release hfront (fun t ht => modify_hash_ne _ _ ht) (by simp [setAllocated]) hfront.tallocs_tail
  obtain ⟨buft, hb⟩ := hfront.placed parent List.mem_cons_self
  have hmem := List.mem_of_getElem? hb
  have hpos := hs.alignment buft hmem
  have hpsize := hs.padded buft hmem parent hpin hpplain
  have hnsize := hs.padded buft hmem node hin.1 hin.2
  have hinv := hfront.tallocs buft
  rw [liveOn_cons_self buffers hb] at hinv
  have halign : (s.tallocs buft).alignment = buffers.alignment buft := hinv.alignment_eq
  obtain ⟨-, -, hstop⟩ := front_facts hinv
  change (s.hash parent).addr.offset + paddedSize buffers buft parent < 2 ^ 63 at hstop
  -- whatever happens to the rest of the block, its start is the range of the node
  have hfinish : ∀ talloc, TallocrInv (buffers.alignment buft) ⟨talloc,
      ⟨(s.hash parent).addr.chunk, ⟨(s.hash parent).addr.offset, paddedSize buffers buft node⟩⟩ ::
        liveOn buffers s.hash rest buft⟩ →
      OwnInv buffers graph { u with tallocs := Function.update s.tallocs buft talloc } (node :: rest) := by
    intro talloc htalloc
    have hlive : liveOn buffers (s.modify parent (setAllocated false)).hash rest buft =
        liveOn buffers s.hash rest buft := by
      apply liveOn_congr
      intro t ht
      have htp : t ≠ parent := fun he => (List.nodup_cons.1 hfront.nodup).1 (he ▸ ht)
      rw [modify_hash_ne _ _ htp]
      exact ⟨rfl, rfl⟩
    apply ownInv_cons hreleased hin hnorest
    · intro t ht
      by_cases htp : t = parent
      · subst htp
        simpa using hparent
      · simpa [htp] using hother t ht htp
    · rw [hnode]
      rfl
    · change buffers.bufts[(u.hash node).bufferId]? = some buft
      rw [hnode]
      exact hb
    · exact fun d hd => Function.update_of_ne hd _ _
    · rw [hlive]
      simpa [liveRange, hnode] using htalloc
  obtain ⟨pb, nb, hpb, hnb, hsmall, hextra⟩ := freeExtraSpace_ok hm
  rw [hparent] at hpb
  rw [hnode] at hnb
  obtain rfl : buft = pb := Option.some.inj (hb.symm.trans hpb)
  obtain rfl : buft = nb := Option.some.inj (hb.symm.trans hnb)
  have hutallocs : u.tallocs buft = s.tallocs buft := rfl
  simp only [hutallocs, halign, alignedOffset_of_lt hpsize, alignedOffset_of_lt hnsize, hparent] at hextra
  change paddedSize buffers buft parent < 2 ^ 63 at hpsize
  change paddedSize buffers buft node < 2 ^ 63 at hnsize
  rcases hextra with ⟨rfl, hfull⟩ | ⟨hextra, talloc, hfree, rfl⟩
  · have heq : paddedSize buffers buft node = paddedSize buffers buft parent :=
      le_antisymm (paddedOffset_mono hpos hsmall) hfull
    have hsame := hfinish (s.tallocs buft) (by rw [heq]; exact hinv)
    rw [Function.update_eq_self] at hsame
    exact ⟨_, hsame⟩
  · change paddedSize buffers buft node < paddedSize buffers buft parent at hextra
    have hndvd : buffers.alignment buft ∣ paddedSize buffers buft node := dvd_paddedOffset _ hpos
    have hdvd : buffers.alignment buft ∣ paddedSize buffers buft parent - paddedSize buffers buft node :=
      Nat.dvd_sub (dvd_paddedOffset _ hpos) hndvd
    have hsize : alignedOffset (paddedSize buffers buft parent - paddedSize buffers buft node)
        (buffers.alignment buft) = paddedSize buffers buft parent - paddedSize buffers buft node := by
      have hpad := paddedOffset_of_dvd hdvd
      rw [alignedOffset_of_lt (by omega), hpad]
    have hwrap : wrap64 ((s.hash parent).addr.offset + paddedSize buffers buft node) =
        (s.hash parent).addr.offset + paddedSize buffers buft node := wrap64_of_lt (by omega)
    rw [liveRange, ← Nat.add_sub_cancel' hextra.le] at hinv
    have hgive := give_inv hinv hndvd hsize (by
      change ggmlDynTallocrFreeBytes (s.tallocs buft) ⟨(s.hash parent).addr.chunk, wrap64
        ((s.hash parent).addr.offset + paddedSize buffers buft node)⟩ _ = .ok talloc at hfree
      rwa [hwrap] at hfree)
    exact ⟨_, hfinish talloc hgive⟩

end PyannoteCpp.Gallocr
