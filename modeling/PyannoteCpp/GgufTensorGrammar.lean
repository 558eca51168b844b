import PyannoteCpp.GgufGrammar

set_option autoImplicit false

/-!
# The tensor infos that the GGUF reader takes

Dimensions that are not in the file are 1. The number of elements is checked by
dividing by the dimensions that follow the first, which nobody compares with zero.
-/
namespace PyannoteCpp.Gguf
open PrefixGrammar

def Dims.toList (ne : Dims) : List ℕ := [ne.n0, ne.n1, ne.n2, ne.n3]

def DimsFront (ne : Dims) (front : List UInt8) : Prop :=
  ∃ nDims ≤ 4, (∀ n ∈ (Dims.toList ne).take nDims, n ≤ int64Max) ∧ (∀ n ∈ (Dims.toList ne).drop nDims, n = 1) ∧
    front = leBytes 4 nDims ++ ((Dims.toList ne).take nDims).flatMap (leBytes 8)

theorem accepts_readDim (present : Bool) : Accepts (readDim present) (fun n front =>
    if present then n ≤ int64Max ∧ front = leBytes 8 n else n = 1 ∧ front = []) := by
  unfold readDim
  cases present with
  | true =>
    refine ((accepts_readUInt _ 8).bind fun n => Accepts.afterRequire _ (accepts_pure n)).congr fun n front => ?_
    have hmax : int64Max < 256 ^ 8 := by decide
    constructor
    · rintro ⟨_, _, _, ⟨-, rfl⟩, ⟨hn, rfl, rfl⟩, rfl⟩
      exact ⟨hn, List.append_nil _⟩
    · rintro ⟨hn, rfl⟩
      exact ⟨n, _, [], ⟨by omega, rfl⟩, ⟨hn, rfl, rfl⟩, (List.append_nil _).symm⟩
  | false => exact (accepts_pure 1).congr fun n front => Iff.rfl

theorem safe_readDim (present : Bool) : Safe Stop.IsFault (readDim present) := by
  have hr := not_isFault
  unfold readDim
  split
  · exact (safe_readUInt (hr _) 8).bind fun _ => (safe_require _ (hr _)).bind fun _ => safe_pure _ _
  · exact safe_pure _ _

theorem accepts_readDims : Accepts readDims DimsFront := by
  unfold readDims
  refine ((accepts_readUInt _ 4).bind fun nDims => Accepts.afterRequire _ <|
    (accepts_readDim (0 < nDims)).bind fun n0 => (accepts_readDim (1 < nDims)).bind fun n1 =>
    (accepts_readDim (2 < nDims)).bind fun n2 => (accepts_readDim (3 < nDims)).bind fun n3 =>
    accepts_pure (Dims.mk n0 n1 n2 n3)).congr fun ne front => ?_
  constructor
  · rintro ⟨nDims, _, _, ⟨-, rfl⟩, ⟨hmax, n0, _, _, h0, ⟨n1, _, _, h1, ⟨n2, _, _, h2, ⟨n3, _, _, h3, ⟨rfl, rfl⟩,
      rfl⟩, rfl⟩, rfl⟩, rfl⟩, rfl⟩
    refine ⟨nDims, hmax, ?_⟩
    interval_cases nDims <;> simp at h0 h1 h2 h3 <;> simp [Dims.toList, *]
  · obtain ⟨n0, n1, n2, n3⟩ := ne
    rintro ⟨nDims, hmax, htake, hdrop, rfl⟩
    refine ⟨nDims, _, _, ⟨by omega, rfl⟩, ⟨hmax, ?_⟩, rfl⟩
    interval_cases nDims <;> simp [Dims.toList] at htake hdrop <;> simp [Dims.toList, *]

theorem safe_readDims : Safe Stop.IsFault readDims := by
  have hr := not_isFault
  unfold readDims
  exact (safe_readUInt (hr _) 4).bind fun _ => (safe_require _ (hr _)).bind fun _ => (safe_readDim _).bind fun _ =>
    (safe_readDim _).bind fun _ => (safe_readDim _).bind fun _ => (safe_readDim _).bind fun _ => safe_pure _ _

/-- The number of elements passes the reader's check. -/
def ElementsFit (ne : Dims) : Prop :=
  ne.n0 < int64Max / ne.n1 ∧ ne.n0 * ne.n1 < int64Max / ne.n2 ∧ ne.n0 * ne.n1 * ne.n2 < int64Max / ne.n3

theorem ElementsFit.pos {ne : Dims} (h : ElementsFit ne) : 0 < ne.n1 ∧ 0 < ne.n2 ∧ 0 < ne.n3 := by
  have hpos : ∀ {n elements : ℕ}, elements < int64Max / n → 0 < n := fun {n elements} hlt =>
    Nat.pos_of_ne_zero (fun hzero => by rw [hzero, Nat.div_zero] at hlt; exact absurd hlt (Nat.not_lt_zero _))
  exact ⟨hpos h.1, hpos h.2.1, hpos h.2.2⟩

/-- The check comes to a dimension of zero, by which it divides. -/
def DividesByZero (ne : Dims) : Prop :=
  ne.n1 = 0 ∨ ne.n0 < int64Max / ne.n1 ∧ (ne.n2 = 0 ∨ ne.n0 * ne.n1 < int64Max / ne.n2 ∧ ne.n3 = 0)

theorem accepts_checkQuotient (n elements : ℕ) :
    Accepts (checkQuotient n elements) (fun _ front => elements < int64Max / n ∧ front = []) := by
  refine (Accepts.afterRequire _ (accepts_require _ _)).congr fun _ front => ⟨And.right, fun h => ⟨?_, h⟩⟩
  rintro rfl
  exact absurd h.1 (by simp)

theorem stopsOn_checkQuotient (n elements : ℕ) :
    StopsOn Stop.IsFault (checkQuotient n elements) (fun front => n = 0 ∧ front = []) := by
  refine (StopsOn.afterRequire _ (safe_require _ (not_isFault _)).stopsOn).congr fun front => ?_
  simp [isFault_fault]

theorem accepts_checkElements (ne : Dims) :
    Accepts (checkElements ne) (fun _ front => ElementsFit ne ∧ front = []) := by
  refine ((accepts_checkQuotient _ _).bind fun _ => (accepts_checkQuotient _ _).bind fun _ =>
    accepts_checkQuotient _ _).congr fun _ front => ?_
  constructor
  · rintro ⟨_, _, _, ⟨h1, rfl⟩, ⟨_, _, _, ⟨h2, rfl⟩, ⟨h3, rfl⟩, rfl⟩, rfl⟩
    exact ⟨⟨h1, h2, h3⟩, rfl⟩
  · rintro ⟨⟨h1, h2, h3⟩, rfl⟩
    exact ⟨(), [], [], ⟨h1, rfl⟩, ⟨(), [], [], ⟨h2, rfl⟩, ⟨h3, rfl⟩, rfl⟩, rfl⟩

theorem stopsOn_checkElements (ne : Dims) :
    StopsOn Stop.IsFault (checkElements ne) (fun front => DividesByZero ne ∧ front = []) := by
  refine (StopsOn.bind (accepts_checkQuotient _ _) (stopsOn_checkQuotient _ _) fun _ =>
    StopsOn.bind (accepts_checkQuotient _ _) (stopsOn_checkQuotient _ _) fun _ =>
    stopsOn_checkQuotient _ _).congr fun front => ?_
  constructor
  · rintro (⟨h, rfl⟩ | ⟨_, _, _, ⟨h1, rfl⟩, ⟨h, rfl⟩ | ⟨_, _, _, ⟨h2, rfl⟩, ⟨h, rfl⟩, rfl⟩, rfl⟩)
    · exact ⟨.inl h, rfl⟩
    · exact ⟨.inr ⟨h1, .inl h⟩, rfl⟩
    · exact ⟨.inr ⟨h1, .inr ⟨h2, h⟩⟩, rfl⟩
  · rintro ⟨h | ⟨h1, h | ⟨h2, h⟩⟩, rfl⟩
    · exact .inl ⟨h, rfl⟩
    · exact .inr ⟨(), [], [], ⟨h1, rfl⟩, .inl ⟨h, rfl⟩, rfl⟩
    · exact .inr ⟨(), [], [], ⟨h1, rfl⟩, .inr ⟨(), [], [], ⟨h2, rfl⟩, ⟨h, rfl⟩, rfl⟩, rfl⟩

theorem accepts_readTensorType (n0 : ℕ) :
    Accepts (readTensorType n0) (fun type front => front = leBytes 4 type.1.code) := by
  have hcode : ∀ code type, GgmlType.ofCode? code = some type ↔ type.code = code := fun code type =>
    ⟨GgmlType.code_of_ofCode?, fun h => h ▸ GgmlType.ofCode?_code type⟩
  unfold readTensorType
  refine ((accepts_readUInt _ 4).bind (H := fun code type front => type.1.code = code ∧ front = []) fun code => ?_).congr
    fun type front => ?_
  · split
    · rename_i hnone
      refine (accepts_throw _).congr fun type front => iff_of_false id ?_
      rintro ⟨htype, -⟩
      cases ((hcode _ _).mpr htype).symm.trans hnone
    · rename_i found hfound
      split
      · refine (accepts_pure _).congr fun type front => and_congr_left' ⟨?_, fun htype => Subtype.ext ?_⟩
        · rintro rfl
          exact (hcode _ _).mp hfound
        · exact Option.some.inj (((hcode _ _).mpr htype).symm.trans hfound)
      · rename_i hwhole
        refine (accepts_throw _).congr fun type front => iff_of_false id ?_
        rintro ⟨htype, -⟩
        exact hwhole (Option.some.inj (((hcode _ _).mpr htype).symm.trans hfound) ▸ type.2)
  · have hlt := type.1.code_lt
    constructor
    · rintro ⟨_, _, _, ⟨-, rfl⟩, ⟨rfl, rfl⟩, rfl⟩
      exact List.append_nil _
    · rintro rfl
      exact ⟨_, _, [], ⟨by omega, rfl⟩, ⟨rfl, rfl⟩, (List.append_nil _).symm⟩

theorem safe_readTensorType (n0 : ℕ) : Safe Stop.IsFault (readTensorType n0) := by
  unfold readTensorType
  refine (safe_readUInt (not_isFault _) 4).bind fun code => ?_
  split
  · exact safe_throw (not_isFault _)
  · split
    · exact safe_pure _ _
    · exact safe_throw (not_isFault _)

section Infos

variable (lib : CxxLibrary) (locals : ℕ → TensorLocals)

/-- A name that is short and new. -/
def NameFront (infos : List TensorInfo) (name : TensorName) (front : List UInt8) : Prop :=
  ∃ s : List UInt8, s.length ≤ lib.stringMax ∧ s.length < 64 ∧ (∀ ti ∈ infos, name ≠ ti.t.name) ∧
    name = ggmlSetName s ∧ front = writeString s

theorem accepts_readTensorName (infos : List TensorInfo) :
    Accepts (readTensorName lib infos) (NameFront lib infos) := by
  unfold readTensorName
  refine ((accepts_readString lib _ _).bind fun s => Accepts.afterRequire _ <| Accepts.afterRequire _ <|
    accepts_pure _).congr fun name front => ?_
  constructor
  · rintro ⟨s, _, _, ⟨hmax, rfl⟩, ⟨hshort, hnew, rfl, rfl⟩, rfl⟩
    exact ⟨s, hmax, hshort, hnew, rfl, List.append_nil _⟩
  · rintro ⟨s, hmax, hshort, hnew, rfl, rfl⟩
    exact ⟨s, _, [], ⟨hmax, rfl⟩, ⟨hshort, hnew, rfl, rfl⟩, (List.append_nil _).symm⟩

theorem safe_readTensorName (infos : List TensorInfo) : Safe Stop.IsFault (readTensorName lib infos) := by
  have hr := not_isFault
  unfold readTensorName
  exact (safe_readString lib (hr _) (hr _)).bind fun _ => (safe_require _ (hr _)).bind fun _ =>
    (safe_require _ (hr _)).bind fun _ => safe_pure _ _

theorem blckSize_dvd (ne : Dims) (type : { type : GgmlType // type.blckSize ∣ ne.n0 }) : type.1.blckSize ∣ ne.n0 := type.2

/-- The info that is pushed. -/
def readInfo (n : ℕ) (name : TensorName) (ne : Dims) (type : { type : GgmlType // type.blckSize ∣ ne.n0 })
    (offset : ℕ) : TensorInfo :=
  ⟨{ name := name, type := type.1, ne := ne, nb := rowStrides type.1 ne, data := (locals n).data
     buffer := (locals n).buffer, wholeBlocks := blckSize_dvd ne type }, offset⟩

/-- A tensor info that the reader takes. -/
def InfoFront (infos infos' : List TensorInfo) (front : List UInt8) : Prop :=
  ∃ name ne type offset nameFront dimsFront, NameFront lib infos name nameFront ∧ DimsFront ne dimsFront ∧
    ElementsFit ne ∧ infos.length < vectorMax sizeofTensorInfo ∧ offset < 2 ^ 64 ∧
    infos' = infos ++ [readInfo locals infos.length name ne type offset] ∧
    front = nameFront ++ dimsFront ++ leBytes 4 type.1.code ++ leBytes 8 offset

/-- A tensor info that the reader does not survive: a dimension by which it divides is zero, or the vector is
full. -/
def InfoFault (infos : List TensorInfo) (front : List UInt8) : Prop :=
  ∃ name ne nameFront dimsFront, NameFront lib infos name nameFront ∧ DimsFront ne dimsFront ∧
    (DividesByZero ne ∧ front = nameFront ++ dimsFront ∨
      ElementsFit ne ∧ vectorMax sizeofTensorInfo ≤ infos.length ∧
        ∃ type : { type : GgmlType // type.blckSize ∣ ne.n0 }, front = nameFront ++ dimsFront ++ leBytes 4 type.1.code)

theorem accepts_readTensorInfo (infos : List TensorInfo) :
    Accepts (readTensorInfo lib locals infos) (InfoFront lib locals infos) := by
  unfold readTensorInfo
  refine ((accepts_readTensorName lib infos).bind fun name => accepts_readDims.bind fun ne =>
    (accepts_checkElements ne).bind fun _ => (accepts_readTensorType ne.n0).bind fun type =>
    Accepts.afterRequire _ <| (accepts_readUInt _ 8).map fun offset =>
      infos ++ [readInfo locals infos.length name ne type offset]).congr fun infos' front => ?_
  constructor
  · rintro ⟨name, nf, _, hname, ⟨ne, df, _, hdims, ⟨_, _, _, ⟨hfit, rfl⟩, ⟨type, _, _, rfl,
      ⟨hroom, offset, ⟨hoffset, rfl⟩, rfl⟩, rfl⟩, rfl⟩, rfl⟩, rfl⟩
    exact ⟨name, ne, type, offset, nf, df, hname, hdims, hfit, hroom, by omega, rfl, by simp⟩
  · rintro ⟨name, ne, type, offset, nf, df, hname, hdims, hfit, hroom, hoffset, rfl, rfl⟩
    exact ⟨name, nf, _, hname, ⟨ne, df, _, hdims, ⟨(), [], _, ⟨hfit, rfl⟩, ⟨type, _, _, rfl,
      ⟨hroom, offset, ⟨by omega, rfl⟩, rfl⟩, rfl⟩, rfl⟩, rfl⟩, by simp⟩

theorem stopsOn_readTensorInfo (infos : List TensorInfo) :
    StopsOn Stop.IsFault (readTensorInfo lib locals infos) (InfoFault lib infos) := by
  have hr := not_isFault
  unfold readTensorInfo
  refine (StopsOn.after (accepts_readTensorName lib infos) (safe_readTensorName lib infos) fun name =>
    StopsOn.after accepts_readDims safe_readDims fun ne =>
    StopsOn.bind (accepts_checkElements ne) (stopsOn_checkElements ne) fun _ =>
    StopsOn.after (accepts_readTensorType ne.n0) (safe_readTensorType ne.n0) fun type =>
    StopsOn.afterRequire _ ((safe_readUInt (hr _) 8).bind fun _ => safe_pure _ _).stopsOn).congr fun front => ?_
  constructor
  · rintro ⟨name, nf, _, hname, ⟨ne, df, _, hdims, hcase, rfl⟩, rfl⟩
    refine ⟨name, ne, nf, df, hname, hdims, ?_⟩
    rcases hcase with ⟨hzero, rfl⟩ | ⟨_, _, _, ⟨hfit, rfl⟩, ⟨type, _, _, rfl, hend, rfl⟩, rfl⟩
    · exact .inl ⟨hzero, by simp⟩
    · rcases hend with ⟨hfull, -, rfl⟩ | ⟨-, hnever⟩
      · exact .inr ⟨hfit, by omega, type, by simp⟩
      · exact hnever.elim
  · rintro ⟨name, ne, nf, df, hname, hdims, hcase⟩
    rcases hcase with ⟨hzero, rfl⟩ | ⟨hfit, hfull, type, rfl⟩
    · exact ⟨name, nf, df, hname, ⟨ne, df, [], hdims, .inl ⟨hzero, rfl⟩, (List.append_nil df).symm⟩, rfl⟩
    · exact ⟨name, nf, _, hname, ⟨ne, df, _, hdims, .inr ⟨(), [], _, ⟨hfit, rfl⟩, ⟨type, _, [], rfl,
        .inl ⟨by omega, isFault_fault _, rfl⟩, rfl⟩, rfl⟩, rfl⟩, by simp⟩

end Infos

end PyannoteCpp.Gguf
