import PyannoteCpp.GgufWriter

set_option autoImplicit false

/-!
# The files that the GGUF reader takes

The reader takes exactly what the writer would write for some header, pairs and
tensor infos, up to the value of a true boolean. What makes it stop with a fault
is as explicit: prefixes of that form that end in an entry it does not guard
against.
-/
namespace PyannoteCpp.Gguf
open PrefixGrammar

def Stop.IsFault : Stop → Prop
  | .fault _ => True
  | .rejected _ => False

def HeaderFront (h : Header) (front : List UInt8) : Prop :=
  (h.version = 2 ∨ h.version = 3) ∧ h.nTensors ≤ (2 ^ 64 - 1) / sizeofTensorInfo ∧
    h.nKv ≤ (2 ^ 64 - 1) / sizeofKv ∧
    front = ggufMagic ++ leBytes 4 h.version ++ leBytes 8 h.nTensors ++ leBytes 8 h.nKv

theorem accepts_readHeader : Accepts readHeader HeaderFront := by
  unfold readHeader
  refine ((accepts_readBytes _ 4).bind fun magic => Accepts.afterRequire _ <|
    (accepts_readUInt _ 4).bind fun version => Accepts.afterRequire _ <|
    (accepts_readUInt _ 8).bind fun nTensors => Accepts.afterRequire _ <|
    (accepts_readUInt _ 8).bind fun nKv => Accepts.afterRequire _ <| accepts_pure _).congr fun h front => ?_
  have hT : (2 ^ 64 - 1) / sizeofTensorInfo < 2 ^ 63 - 1 := by decide
  have hK : (2 ^ 64 - 1) / sizeofKv < 2 ^ 63 - 1 := by decide
  constructor
  · rintro ⟨_, _, _, ⟨rfl, -⟩, ⟨rfl, v, _, _, ⟨-, rfl⟩, ⟨hv, t, _, _, ⟨-, rfl⟩, ⟨ht, k, _, _, ⟨-, rfl⟩,
      ⟨hk, rfl, rfl⟩, rfl⟩, rfl⟩, rfl⟩, rfl⟩
    refine ⟨?_, ht.2, hk.2, by simp only [List.append_assoc, List.append_nil]⟩
    have hversion : ggufVersion = 3 := rfl
    change v = 2 ∨ v = 3
    omega
  · rintro ⟨hv, ht, hk, rfl⟩
    have hversion : ggufVersion = 3 := rfl
    have hmax : int64Max = 2 ^ 63 - 1 := rfl
    exact ⟨_, ggufMagic, _, ⟨rfl, rfl⟩, ⟨rfl, h.version, _, _, ⟨by omega, rfl⟩, ⟨by omega, h.nTensors, _, _,
      ⟨by omega, rfl⟩, ⟨by omega, h.nKv, _, _, ⟨by omega, rfl⟩, ⟨by omega, rfl, rfl⟩, rfl⟩, rfl⟩, rfl⟩,
      by simp only [List.append_assoc, List.append_nil]⟩

theorem not_isFault (reason : Rejection) : ¬Stop.IsFault (.rejected reason) := id

theorem isFault_fault (f : Fault) : Stop.IsFault (.fault f) := trivial

theorem safe_readHeader : Safe Stop.IsFault readHeader := by
  have hr := not_isFault
  unfold readHeader
  exact (safe_readBytes (hr _) 4).bind fun _ => (safe_require _ (hr _)).bind fun _ =>
    (safe_readUInt (hr _) 4).bind fun _ => (safe_require _ (hr _)).bind fun _ =>
    (safe_readUInt (hr _) 8).bind fun _ => (safe_require _ (hr _)).bind fun _ =>
    (safe_readUInt (hr _) 8).bind fun _ => (safe_require _ (hr _)).bind fun _ => safe_pure _ _

section Pairs

variable (lib : CxxLibrary)

def StringFront (s front : List UInt8) : Prop := s.length ≤ lib.stringMax ∧ front = writeString s

def LongFront (front : List UInt8) : Prop := ∃ n < 2 ^ 64, lib.stringMax < n ∧ front = leBytes 8 n

theorem accepts_readString (short tooLong : Stop) : Accepts (readString lib short tooLong) (StringFront lib) := by
  unfold readString
  refine ((accepts_readUInt _ 8).bind fun size => Accepts.afterRequire _ (accepts_readBytes _ size)).congr
    fun s front => ?_
  have hsigned := lib.signed
  constructor
  · rintro ⟨_, _, _, ⟨-, rfl⟩, ⟨hmax, rfl, rfl⟩, rfl⟩
    exact ⟨hmax, rfl⟩
  · rintro ⟨hmax, rfl⟩
    exact ⟨s.length, _, s, ⟨by omega, rfl⟩, ⟨hmax, rfl, rfl⟩, rfl⟩

theorem safe_readString {short tooLong : Stop} (hs : ¬short.IsFault) (ht : ¬tooLong.IsFault) :
    Safe Stop.IsFault (readString lib short tooLong) := by
  unfold readString
  exact (safe_readUInt hs 8).bind fun _ => (safe_require _ ht).bind fun _ => safe_readBytes hs _

theorem stopsOn_readString {short tooLong : Stop} (hs : ¬short.IsFault) (ht : tooLong.IsFault) :
    StopsOn Stop.IsFault (readString lib short tooLong) (LongFront lib) := by
  unfold readString
  refine (StopsOn.after (accepts_readUInt _ 8) (safe_readUInt hs 8) fun size =>
    StopsOn.afterRequire _ (safe_readBytes hs size).stopsOn).congr fun front => ?_
  constructor
  · rintro ⟨n, _, _, ⟨hn, rfl⟩, ⟨hmax, -, rfl⟩ | ⟨-, hf⟩, rfl⟩
    · exact ⟨n, hn, by omega, List.append_nil _⟩
    · exact hf.elim
  · rintro ⟨n, hn, hmax, rfl⟩
    exact ⟨n, _, [], ⟨hn, rfl⟩, .inl ⟨by omega, ht, rfl⟩, (List.append_nil _).symm⟩

def TypeFront (vt : ValueType) (front : List UInt8) : Prop :=
  vt.type ≠ .array ∧
    if vt.isArray then
      vt.n < 2 ^ 64 ∧ front = leBytes 4 GgufType.array.code ++ (leBytes 4 vt.type.code ++ leBytes 8 vt.n)
    else vt.n = 1 ∧ front = leBytes 4 vt.type.code

theorem accepts_elementType (code : ℕ) :
    Accepts (elementType code) (fun type front => (type ≠ .array ∧ type.code = code) ∧ front = []) := by
  have hcode : ∀ type, GgufType.ofCode? code = some type ↔ type.code = code := fun type =>
    ⟨GgufType.code_of_ofCode?, fun h => h ▸ GgufType.ofCode?_code type⟩
  unfold elementType
  split
  · rename_i harray
    refine (accepts_throw _).congr fun type front => iff_of_false id ?_
    rintro ⟨⟨hne, htype⟩, -⟩
    exact hne (Option.some.inj (((hcode _).mpr htype).symm.trans harray))
  · rename_i hnone
    refine (accepts_throw _).congr fun type front => iff_of_false id ?_
    rintro ⟨⟨-, htype⟩, -⟩
    cases ((hcode _).mpr htype).symm.trans hnone
  · rename_i type hne hsome
    refine (accepts_pure type).congr fun type' front => and_congr_left' ⟨?_, ?_⟩
    · rintro rfl
      exact ⟨fun harray => hne harray, (hcode _).mp hsome⟩
    · rintro ⟨-, htype⟩
      exact Option.some.inj (((hcode _).mpr htype).symm.trans hsome)

theorem safe_elementType (code : ℕ) : Safe Stop.IsFault (elementType code) := by
  unfold elementType
  split
  · exact safe_throw (not_isFault _)
  · exact safe_throw (not_isFault _)
  · exact safe_pure _ _

theorem accepts_readType : Accepts readType TypeFront := by
  unfold readType
  refine ((accepts_readUInt _ 4).bind (H := fun code vt front =>
    vt.type ≠ .array ∧ if code = GgufType.array.code then vt.isArray ∧ vt.n < 2 ^ 64 ∧
      front = leBytes 4 vt.type.code ++ leBytes 8 vt.n
    else vt.isArray = false ∧ vt.n = 1 ∧ vt.type.code = code ∧ front = []) fun code => ?_).congr fun vt front => ?_
  · split
    · refine ((accepts_readUInt _ 4).bind fun code => (accepts_readUInt _ 8).bind fun n =>
        (accepts_elementType code).map fun type => ValueType.mk true type n).congr fun vt front => ⟨?_, ?_⟩
      · rintro ⟨_, _, _, ⟨-, rfl⟩, ⟨n, _, _, ⟨hn, rfl⟩, ⟨type, ⟨⟨hne, rfl⟩, rfl⟩, rfl⟩, rfl⟩, rfl⟩
        exact ⟨hne, rfl, hn, by rw [List.append_nil]⟩
      · obtain ⟨isArray, type, n⟩ := vt
        rintro ⟨hne, hisArray, hn, rfl⟩
        cases hisArray
        have hcode := type.code_lt
        exact ⟨type.code, _, _, ⟨by omega, rfl⟩, ⟨n, _, [], ⟨hn, rfl⟩, ⟨type, ⟨⟨hne, rfl⟩, rfl⟩, rfl⟩,
          (List.append_nil _).symm⟩, rfl⟩
    · refine ((accepts_elementType code).map fun type => ValueType.mk false type 1).congr fun vt front => ⟨?_, ?_⟩
      · rintro ⟨type, ⟨⟨hne, rfl⟩, rfl⟩, rfl⟩
        exact ⟨hne, rfl, rfl, rfl, rfl⟩
      · obtain ⟨isArray, type, n⟩ := vt
        rintro ⟨hne, hisArray, hn, hcode, rfl⟩
        cases hisArray
        cases hn
        exact ⟨type, ⟨⟨hne, hcode⟩, rfl⟩, rfl⟩
  · obtain ⟨isArray, type, n⟩ := vt
    have harray := GgufType.code_lt .array
    have htype := type.code_lt
    unfold TypeFront
    constructor
    · rintro ⟨code, _, _, ⟨-, rfl⟩, ⟨hne, hcase⟩, rfl⟩
      split at hcase
      · obtain ⟨hisArray, hn, rfl⟩ := hcase
        rename_i hcode
        cases hisArray
        exact ⟨hne, by simpa [hcode] using hn⟩
      · obtain ⟨hisArray, hn, rfl, rfl⟩ := hcase
        cases hisArray
        exact ⟨hne, by simpa using hn⟩
    · rintro ⟨hne, hcase⟩
      cases isArray with
      | true =>
        obtain ⟨hn, rfl⟩ := hcase
        exact ⟨_, _, _, ⟨by omega, rfl⟩, ⟨hne, by rw [if_pos rfl]; exact ⟨rfl, hn, rfl⟩⟩, rfl⟩
      | false =>
        obtain ⟨hn, rfl⟩ := hcase
        have hother : type.code ≠ GgufType.array.code := fun h =>
          hne (Option.some.inj ((GgufType.ofCode?_code type).symm.trans (h ▸ GgufType.ofCode?_code .array)))
        exact ⟨type.code, _, [], ⟨by omega, rfl⟩, ⟨hne, by rw [if_neg hother]; exact ⟨rfl, hn, rfl, rfl⟩⟩,
          (List.append_nil _).symm⟩

theorem safe_readType : Safe Stop.IsFault readType := by
  have hr := not_isFault
  unfold readType
  refine (safe_readUInt (hr _) 4).bind fun code => ?_
  split
  · exact (safe_readUInt (hr _) 4).bind fun _ => (safe_readUInt (hr _) 8).bind fun _ =>
      (safe_elementType _).bind fun _ => safe_pure _ _
  · exact (safe_elementType _).bind fun _ => safe_pure _ _

theorem accepts_readStrings (n : ℕ) : Accepts (readStrings lib n) (fun value front =>
    value.length = n ∧ (∀ s ∈ value, s.length ≤ lib.stringMax) ∧ front = value.flatMap writeString) := by
  have hstep := fun value : List (List UInt8) =>
    (accepts_readString lib (.rejected .keyValue) (.rejected .keyValue)).map fun s => value ++ [s]
  refine (accepts_turns hstep n []).congr fun value front => ?_
  refine Iff.trans (@turns_append _ _ (fun s : List UInt8 => s.length ≤ lib.stringMax) writeString n [] value front) ?_
  constructor
  · rintro ⟨as, hn, has, rfl, rfl⟩
    exact ⟨hn, has, rfl⟩
  · rintro ⟨hn, has, rfl⟩
    exact ⟨value, hn, has, rfl, rfl⟩

theorem safe_readStrings (n : ℕ) : Safe Stop.IsFault (readStrings lib n) :=
  safe_turns (fun _ => (safe_readString lib (not_isFault _) (not_isFault _)).bind fun _ => safe_pure _ _) n []

/-- What stands for the value of a pair. -/
def ValueFront (vt : ValueType) (value : List UInt8 × List (List UInt8)) (front : List UInt8) : Prop :=
  if vt.type = .string then
    value.1 = [] ∧ (∀ s ∈ value.2, s.length ≤ lib.stringMax) ∧ front = value.2.flatMap writeString ∧
      if vt.isArray then value.2.length = vt.n ∧ vt.n ≤ vectorMax sizeofString else value.2.length = 1
  else
    value.2 = [] ∧ value.1 = normaliseBool vt.type front ∧ front.length = vt.n * vt.type.size ∧
      vt.n ≤ vectorMax vt.type.size

theorem accepts_readValue (vt : ValueType) : Accepts (readValue lib vt) (ValueFront lib vt) := by
  unfold readValue ValueFront
  split
  · split
    · refine (Accepts.afterRequire _ ((accepts_readStrings lib vt.n).map fun value => ([], value))).congr
        fun value front => ?_
      constructor
      · rintro ⟨hmax, _, ⟨hn, hs, rfl⟩, rfl⟩
        exact ⟨rfl, hs, rfl, hn, hmax⟩
      · obtain ⟨data, value⟩ := value
        rintro ⟨rfl, hs, hfront, hn, hmax⟩
        exact ⟨hmax, value, ⟨hn, hs, hfront⟩, rfl⟩
    · refine ((accepts_readString lib _ _).map fun value => ([], [value])).congr fun value front => ?_
      constructor
      · rintro ⟨s, ⟨hs, rfl⟩, rfl⟩
        exact ⟨rfl, by simpa using hs, by simp, rfl⟩
      · obtain ⟨data, value⟩ := value
        rintro ⟨rfl, hs, rfl, hone⟩
        obtain ⟨s, rfl⟩ := List.length_eq_one_iff.mp hone
        exact ⟨s, ⟨by simpa using hs, by simp⟩, rfl⟩
  · refine (Accepts.afterRequire _ ((accepts_readBytes _ (vt.n * vt.type.size)).map fun raw =>
      (normaliseBool vt.type raw, []))).congr fun value front => ?_
    constructor
    · rintro ⟨hmax, _, ⟨rfl, hlen⟩, rfl⟩
      exact ⟨rfl, rfl, hlen, hmax⟩
    · obtain ⟨data, value⟩ := value
      rintro ⟨rfl, rfl, hlen, hmax⟩
      exact ⟨hmax, front, ⟨rfl, hlen⟩, rfl⟩

theorem stopsOn_readValue (vt : ValueType) : StopsOn Stop.IsFault (readValue lib vt)
    (fun front => vt.type = .string ∧ vt.isArray = false ∧ LongFront lib front) := by
  have hr := not_isFault
  unfold readValue
  split
  · split
    · refine ((safe_require _ (hr _)).bind fun _ =>
        (safe_readStrings lib vt.n).bind fun _ => safe_pure _ _).stopsOn.congr fun front => ?_
      simp [*]
    · refine (StopsOn.map (accepts_readString lib _ _)
        (stopsOn_readString lib (hr _) (isFault_fault _)) fun value => ([], [value])).congr fun front => ?_
      simp [*]
  · refine ((safe_require _ (hr _)).bind fun _ => (safe_readBytes (hr _) _).bind fun _ => safe_pure _ _).stopsOn.congr
      fun front => ?_
    simp [*]

/-- What comes before the value of a pair: a new key and a type. -/
def KvHead (kvs : List GgufKv) (key : List UInt8) (vt : ValueType) (front : List UInt8) : Prop :=
  key.length ≤ lib.stringMax ∧ (∀ kv ∈ kvs, key ≠ kv.key) ∧ ∃ typeFront, TypeFront vt typeFront ∧
    front = writeString key ++ typeFront

/-- A pair that the reader takes. -/
def KvFront (kvs kvs' : List GgufKv) (front : List UInt8) : Prop :=
  ∃ key vt value head values, KvHead lib kvs key vt head ∧ ValueFront lib vt value values ∧
    kvs.length < vectorMax sizeofKv ∧ key ≠ [] ∧
    kvs' = kvs ++ [⟨key, vt.isArray, vt.type, value.1, value.2⟩] ∧ front = head ++ values

/-- A pair that the reader does not survive: a single string longer than strings can be, one pair more than the
vector can hold, or an empty key. -/
def KvFault (kvs : List GgufKv) (front : List UInt8) : Prop :=
  ∃ key vt head values, KvHead lib kvs key vt head ∧ front = head ++ values ∧
    ((vt.type = .string ∧ vt.isArray = false ∧ LongFront lib values) ∨
      ((∃ value, ValueFront lib vt value values) ∧ (vectorMax sizeofKv ≤ kvs.length ∨ key = [])))

theorem accepts_readKv (kvs : List GgufKv) : Accepts (readKv lib kvs) (KvFront lib kvs) := by
  unfold readKv
  refine ((accepts_readString lib _ _).bind fun key => Accepts.afterRequire _ <|
    accepts_readType.bind fun vt => (accepts_readValue lib vt).bind fun value =>
    Accepts.afterRequire _ <| Accepts.afterRequire _ <| accepts_pure _).congr fun kvs' front => ?_
  constructor
  · rintro ⟨key, _, _, ⟨hkey, rfl⟩, ⟨hnew, vt, ft, _, htype, ⟨value, fv, _, hvalue,
      ⟨hroom, hne, rfl, rfl⟩, rfl⟩, rfl⟩, rfl⟩
    exact ⟨key, vt, value, _, fv, ⟨hkey, hnew, ft, htype, rfl⟩, hvalue, hroom, hne, rfl, by simp⟩
  · rintro ⟨key, vt, value, _, fv, ⟨hkey, hnew, ft, htype, rfl⟩, hvalue, hroom, hne, rfl, rfl⟩
    exact ⟨key, _, _, ⟨hkey, rfl⟩, ⟨hnew, vt, ft, _, htype, ⟨value, fv, _, hvalue,
      ⟨hroom, hne, rfl, rfl⟩, rfl⟩, rfl⟩, by simp⟩

theorem stopsOn_readKv (kvs : List GgufKv) : StopsOn Stop.IsFault (readKv lib kvs) (KvFault lib kvs) := by
  have hr := not_isFault
  unfold readKv
  refine (StopsOn.after (accepts_readString lib _ _) (safe_readString lib (hr _) (hr _)) fun key =>
    StopsOn.afterCheck (hr _) <| StopsOn.after accepts_readType safe_readType fun vt =>
    StopsOn.bind (accepts_readValue lib vt) (stopsOn_readValue lib vt) fun value =>
    StopsOn.afterRequire _ <| StopsOn.afterRequire _ <| stopsOn_pure _ _).congr fun front => ?_
  constructor
  · rintro ⟨key, _, _, ⟨hkey, rfl⟩, ⟨hnew, vt, ft, fv, htype, hvalue, rfl⟩, rfl⟩
    refine ⟨key, vt, _, fv, ⟨hkey, hnew, ft, htype, rfl⟩, by simp, ?_⟩
    rcases hvalue with hlong | ⟨value, f₁, f₂, hvalue, hend, rfl⟩
    · exact .inl hlong
    · refine .inr ?_
      rcases hend with ⟨hfull, -, rfl⟩ | ⟨hroom, ⟨hempty, -, rfl⟩ | ⟨-, hnever⟩⟩
      · exact ⟨⟨value, by simpa using hvalue⟩, .inl (by omega)⟩
      · exact ⟨⟨value, by simpa using hvalue⟩, .inr (by simpa using hempty)⟩
      · exact hnever.elim
  · rintro ⟨key, vt, _, fv, ⟨hkey, hnew, ft, htype, rfl⟩, rfl, hcase⟩
    refine ⟨key, _, _, ⟨hkey, rfl⟩, ⟨hnew, vt, ft, fv, htype, ?_, rfl⟩, by simp⟩
    rcases hcase with hlong | ⟨⟨value, hvalue⟩, hend⟩
    · exact .inl hlong
    · refine .inr ⟨value, fv, [], hvalue, ?_, (List.append_nil fv).symm⟩
      by_cases hroom : kvs.length < vectorMax sizeofKv
      · exact .inr ⟨hroom, .inl ⟨not_not.mpr (hend.resolve_left (by omega)), trivial, rfl⟩⟩
      · exact .inl ⟨hroom, trivial, rfl⟩

end Pairs

end PyannoteCpp.Gguf
