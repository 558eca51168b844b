import PyannoteCpp.WavWriter

set_option autoImplicit false

/-!
# What is written is read back

Over any calls and any stream a file that is not held back is the encoding of its
session, which the reader takes for a recording. A sample comes back within two
units of the last place.
-/
namespace PyannoteCpp.WavWriter
open WavReader

variable {ν : Type*} [DecidableEq ν]

theorem overwrite_nil (content : List UInt8) (pos : ℕ) : overwrite content pos [] = content := if_pos rfl

theorem overwrite_end (content bytes : List UInt8) : overwrite content content.length bytes = content ++ bytes := by
  cases bytes <;> simp [overwrite]

theorem overwrite_field (before new rest : List UInt8) {old : List UInt8} (hold : old.length = new.length) :
    overwrite (before ++ (old ++ rest)) before.length new = before ++ (new ++ rest) := by
  cases new with
  | nil =>
    have hnil : old = [] := List.eq_nil_of_length_eq_zero hold
    simp [overwrite, hnil]
  | cons b new => simp [overwrite, hold]

/-- What stands before a position, with zeros up to it. -/
def upTo (content : List UInt8) (pos : ℕ) : List UInt8 :=
  content.take pos ++ List.replicate (pos - content.length) 0

theorem upTo_length (content : List UInt8) (pos : ℕ) : (upTo content pos).length = pos := by
  simp only [upTo, List.length_append, List.length_take, List.length_replicate]
  omega

theorem overwrite_upTo (content : List UInt8) (pos : ℕ) {bytes : List UInt8} (hbytes : bytes ≠ []) :
    overwrite content pos bytes = upTo content pos ++ (bytes ++ content.drop (pos + bytes.length)) := by
  simp [overwrite, upTo, hbytes]

/-- The bytes may come one part after the other. -/
theorem overwrite_overwrite (content : List UInt8) (pos : ℕ) (a b : List UInt8) :
    overwrite (overwrite content pos a) (pos + a.length) b = overwrite content pos (a ++ b) := by
  by_cases ha : a = []
  · simp [ha, overwrite_nil]
  by_cases hb : b = []
  · simp [hb, overwrite_nil]
  have hlength : pos + a.length = (upTo content pos ++ a).length := by simp [upTo_length]
  have hfirst : overwrite content pos a = (upTo content pos ++ a) ++ content.drop (pos + a.length) := by
    rw [overwrite_upTo content pos ha, List.append_assoc]
  have hup : upTo (overwrite content pos a) (pos + a.length) = upTo content pos ++ a := by
    rw [hfirst, upTo, hlength, List.take_left]
    simp
  have hrest : (overwrite content pos a).drop (pos + a.length + b.length) = content.drop (pos + (a ++ b).length) := by
    rw [hfirst, ← List.drop_drop, hlength, List.drop_left, ← hlength]
    simp [List.drop_drop, Nat.add_assoc]
  rw [overwrite_upTo _ _ hb, hup, hrest, overwrite_upTo content pos (by simp [ha])]
  simp
/-! ## The stream that holds nothing back

A stream that hands everything on at once is the one held bytes are compared
with: flushed, every stream is where that one is.
-/

namespace Writer

def atOnce (held bytes : List UInt8) : ℕ := (held ++ bytes).length

section Flushed

variable (w : Writer ν) (spills : List UInt8 → List UInt8 → ℕ)

theorem flush_none {w : Writer ν} (h : w.file = none) : w.flush = w := by
  simp [flush, h]

theorem flush_held {w : Writer ν} (h : w.held = []) : w.flush = w := by
  cases w with
  | mk files file held dataSize wavFilename =>
    subst h
    cases file <;> simp [flush, overwrite_nil]

@[simp] theorem flush_isSome : w.flush.file.isSome = w.file.isSome := by
  cases h : w.file <;> simp [flush, h]

@[simp] theorem flush_dataSize : w.flush.dataSize = w.dataSize := by
  cases h : w.file <;> simp [flush, h]

@[simp] theorem flush_wavFilename : w.flush.wavFilename = w.wavFilename := by
  cases h : w.file <;> simp [flush, h]

@[simp] theorem flush_flush : w.flush.flush = w.flush := by
  cases h : w.file <;> simp [flush, h, overwrite_nil]

theorem put_flush (bytes : List UInt8) : (w.put spills bytes).flush = w.flush.put atOnce bytes := by
  cases h : w.file with
  | none => simp [put, flush, h]
  | some f =>
    have hparts : ∀ content : List UInt8,
        overwrite (overwrite content f.2 ((w.held ++ bytes).take (spills w.held bytes)))
            (f.2 + ((w.held ++ bytes).take (spills w.held bytes)).length)
            ((w.held ++ bytes).drop (spills w.held bytes)) =
          overwrite (overwrite content f.2 w.held) (f.2 + w.held.length) bytes := by
      intro content
      rw [overwrite_overwrite, overwrite_overwrite, List.take_append_drop]
    simp only [put, flush, h, atOnce, List.nil_append, List.take_length, List.drop_length, Function.update_self,
      Function.update_idem, hparts, Nat.add_assoc, ← List.length_append, List.take_append_drop]

theorem put_dataSize (bytes : List UInt8) : (w.put spills bytes).dataSize = w.dataSize := by
  cases h : w.file <;> simp [put, h]

@[simp] theorem seek_dataSize (pos : ℕ) : (w.seek pos).dataSize = w.dataSize := by
  simp [seek]

theorem seek_flush (pos : ℕ) : (w.seek pos).flush = w.flush.seek pos := by
  cases h : w.file <;> simp [seek, flush, h, overwrite_nil]

theorem seekEnd_flush : w.seekEnd.flush = w.flush.seekEnd := by
  cases h : w.file <;> simp [seekEnd, flush, h, overwrite_nil]

theorem closeFile_flush : w.closeFile.flush = w.flush.closeFile := by
  simp [closeFile, flush_none]

theorem writeHeader_flush (format : Format) : (w.writeHeader spills format).flush = w.flush.writeHeader atOnce format := by
  simp only [writeHeader, put_flush]

theorem writeSample_flush (x : Sample) : (w.writeSample spills x).flush = w.flush.writeSample atOnce x := by
  have hsize : ∀ (w : Writer ν) n, { w with dataSize := n }.flush = { w.flush with dataSize := n } := by
    intro w n
    cases h : w.file <;> simp [flush, h]
  rw [writeSample, hsize, put_flush, writeSample, flush_dataSize]

theorem writeSamples_flush (data : List Sample) :
    (data.foldl (fun w x => w.writeSample spills x) w).flush =
      data.foldl (fun w x => w.writeSample atOnce x) w.flush := by
  induction data generalizing w with
  | nil => rfl
  | cons x data ih => rw [List.foldl_cons, List.foldl_cons, ih, writeSample_flush]

theorem patch_flush : (w.patch spills).flush = w.flush.patch atOnce := by
  simp only [patch, seekEnd_flush, put_flush, seek_flush, flush_dataSize, put_dataSize, seek_dataSize]

theorem writeAudio_flush (data : List Sample) : (w.writeAudio spills data).flush = w.flush.writeAudio atOnce data := by
  have hsamples := w.writeSamples_flush spills data
  simp only [writeAudio, ← hsamples, flush_isSome]
  split_ifs
  · apply patch_flush
  · rfl

theorem openWav_flush (filename : ν) (opens : Bool) : (w.openWav filename opens).flush = w.flush.openWav filename opens := by
  cases h : w.file with
  | none =>
    rw [flush_none h]
    apply flush_held
    simp [openWav, h]
  | some f =>
    by_cases hname : filename = w.wavFilename
    · have hstay : w.openWav filename opens = w := by simp [openWav, hname, h]
      have hflushed : w.flush.openWav filename opens = w.flush := by simp [openWav, hname, h]
      rw [hstay, hflushed]
    · have hclosed : w.openWav filename opens = w.flush.openWav filename opens := by simp [openWav, hname, h, closeFile]
      rw [← hclosed]
      apply flush_held
      simp [openWav, hname, h, closeFile]

theorem step_flush (call : Call ν) : (w.step spills call).flush = w.flush.step atOnce call := by
  cases call with
  | openFile filename format opens =>
    simp only [step, ← openWav_flush, flush_isSome]
    split_ifs
    · apply writeHeader_flush
    · rfl
  | write data => exact w.writeAudio_flush spills data
  | close => exact w.closeFile_flush

end Flushed

variable {w : Writer ν} {filename : ν}

/-- The stream holds nothing and writes behind the end of the file. -/
def AtEnd (w : Writer ν) (filename : ν) : Prop := w.file = some (filename, (w.files filename).length) ∧ w.held = []

def extend (w : Writer ν) (filename : ν) (bytes : List UInt8) : Writer ν :=
  { w with
    files := Function.update w.files filename (w.files filename ++ bytes)
    file := some (filename, (w.files filename ++ bytes).length)
    held := [] }

theorem extend_atEnd (w : Writer ν) (filename : ν) (bytes : List UInt8) : (w.extend filename bytes).AtEnd filename := by
  simp [AtEnd, extend]

@[simp] theorem extend_extend (w : Writer ν) (filename : ν) (a b : List UInt8) :
    (w.extend filename a).extend filename b = w.extend filename (a ++ b) := by
  simp [extend]

theorem put_atEnd (h : w.AtEnd filename) (bytes : List UInt8) : w.put atOnce bytes = w.extend filename bytes := by
  simp [put, atOnce, h.1, h.2, overwrite_end, extend]

theorem put_extend (w : Writer ν) (filename : ν) (a b : List UInt8) :
    (w.extend filename a).put atOnce b = w.extend filename (a ++ b) := by
  rw [put_atEnd (w.extend_atEnd filename a), extend_extend]

theorem writeHeader_atEnd (h : w.AtEnd filename) (format : Format) :
    w.writeHeader atOnce format =
      w.extend filename (riffId ++ ([0, 0, 0, 0] ++ (Session.fields format ++ [0, 0, 0, 0]))) := by
  unfold writeHeader
  rw [put_atEnd h]
  simp only [put_extend, Session.fields, List.append_assoc]

/-- Extended by samples, whose size is counted in 32 bits. -/
def record (w : Writer ν) (filename : ν) (data : List Sample) : Writer ν :=
  { w.extend filename (data.flatMap sampleBytes) with dataSize := (w.dataSize + 2 * data.length) % 2 ^ 32 }

theorem writeSample_atEnd (h : w.AtEnd filename) (x : Sample) :
    w.writeSample atOnce x = w.record filename [x] := by
  unfold writeSample record
  rw [put_atEnd h, List.flatMap_singleton]
  rfl

theorem record_record (w : Writer ν) (filename : ν) (a b : List Sample) :
    (w.record filename a).record filename b = w.record filename (a ++ b) := by
  simp [record, extend, Nat.mul_add, Nat.add_assoc]

theorem record_nil (h : w.AtEnd filename) (hsize : w.dataSize < 2 ^ 32) : w.record filename [] = w := by
  have hcount : (w.dataSize + 2 * ([] : List Sample).length) % 2 ^ 32 = w.dataSize := Nat.mod_eq_of_lt hsize
  have hextend : w.extend filename [] = w := by
    cases w with
    | mk files file held dataSize wavFilename =>
      have hfile : file = some (filename, (files filename).length) := h.1
      have hheld : held = [] := h.2
      simp [extend, hfile, hheld]
  unfold record
  rw [hcount, List.flatMap_nil, hextend]

theorem writeSamples_atEnd (h : w.AtEnd filename) (data : List Sample) (hsize : w.dataSize < 2 ^ 32) :
    data.foldl (fun w x => w.writeSample atOnce x) w = w.record filename data := by
  induction data generalizing w with
  | nil => exact (record_nil h hsize).symm
  | cons x data ih =>
    have hnext : (w.record filename [x]).AtEnd filename := w.extend_atEnd filename _
    rw [List.foldl_cons, writeSample_atEnd h, ih hnext (Nat.mod_lt _ (Nat.two_pow_pos 32)), record_record]
    rfl

theorem writeSamples_none (h : w.file = none) (data : List Sample) :
    (data.foldl (fun w x => w.writeSample atOnce x) w).file = none ∧
      (data.foldl (fun w x => w.writeSample atOnce x) w).files = w.files := by
  induction data generalizing w with
  | nil => exact ⟨h, rfl⟩
  | cons x data ih =>
    have hput : w.put atOnce (sampleBytes x) = w := by simp [put, h]
    have hnext := ih (w := w.writeSample atOnce x) (by simp [writeSample, hput, h])
    simpa [writeSample, hput] using hnext

end Writer

theorem fields_length (format : Format) : (Session.fields format).length = 32 := by
  simp [Session.fields, waveId, fmtId, dataId]

theorem riffSize_length (s : Session) : s.riffSize.length = 4 := by
  unfold Session.riffSize
  split <;> simp

namespace Writer

variable {w : Writer ν} {filename : ν}

section Position

variable (files : ν → List UInt8) (name wavFilename : ν) (pos next dataSize : ℕ)

@[simp] theorem seek_at : seek ⟨files, some (name, pos), [], dataSize, wavFilename⟩ next =
    ⟨files, some (name, next), [], dataSize, wavFilename⟩ := by
  simp [seek, flush, overwrite_nil]

@[simp] theorem seekEnd_at : seekEnd ⟨files, some (name, pos), [], dataSize, wavFilename⟩ =
    ⟨files, some (name, (files name).length), [], dataSize, wavFilename⟩ := by
  simp [seekEnd, flush, overwrite_nil]

@[simp] theorem put_at (bytes : List UInt8) : put ⟨files, some (name, pos), [], dataSize, wavFilename⟩ atOnce bytes =
    ⟨Function.update files name (overwrite (files name) pos bytes), some (name, pos + bytes.length), [], dataSize,
      wavFilename⟩ := by
  simp [put, atOnce]

end Position

/-- Both sizes are those of the session after the samples. -/
theorem patch_spec {fileSize size fields body : List UInt8} (hfile : w.file.map Prod.fst = some filename)
    (hheld : w.held = []) (hfiles : w.files filename = riffId ++ (fileSize ++ (fields ++ (size ++ body))))
    (hfileSize : fileSize.length = 4) (hfields : fields.length = 32) (hsize : size.length = 4) :
    (w.patch atOnce).AtEnd filename ∧ (w.patch atOnce).dataSize = w.dataSize ∧
      (w.patch atOnce).wavFilename = w.wavFilename ∧ (w.patch atOnce).files = Function.update w.files filename
        (riffId ++ (leBytes 4 ((36 + w.dataSize) % 2 ^ 32) ++ (fields ++ (leBytes 4 w.dataSize ++ body)))) := by
  cases w with
  | mk files file held dataSize wavFilename =>
    subst hheld
    obtain ⟨⟨name, pos⟩, rfl, rfl⟩ := Option.map_eq_some_iff.mp hfile
    have hfirst := overwrite_field riffId (leBytes 4 ((36 + dataSize) % 2 ^ 32)) (fields ++ (size ++ body)) (hfileSize.trans (leBytes_length _ _).symm)
    have hsecond := overwrite_field (riffId ++ (leBytes 4 ((36 + dataSize) % 2 ^ 32) ++ fields)) (leBytes 4 dataSize) body (hsize.trans (leBytes_length _ _).symm)
    have hfour : riffId.length = 4 := rfl
    have hforty : (riffId ++ (leBytes 4 ((36 + dataSize) % 2 ^ 32) ++ fields)).length = 40 := by
      simp [hfour, hfields]
    rw [hfour] at hfirst
    rw [hforty] at hsecond
    simp only [List.append_assoc] at hsecond
    dsimp only at hfiles ⊢
    simp [-Nat.reducePow, patch, AtEnd, hfiles, hfirst, hsecond]

end Writer

/-- The writer does what the recorder stands for. -/
structure Records (files₀ : ν → List UInt8) (w : Writer ν) (r : Recorder ν) : Prop where
  closed : r.current = none → w.file = none
  current : ∀ filename, r.current = some filename → w.AtEnd filename ∧ w.wavFilename = filename ∧
    ∃ s, r.sessions filename = some s ∧ w.dataSize = s.dataSize
  recorded : ∀ filename s, r.sessions filename = some s → w.files filename = s.encode
  others : ∀ filename, r.sessions filename = none → w.files filename = files₀ filename

namespace Records

variable {files₀ : ν → List UInt8} {w : Writer ν} {r : Recorder ν}

theorem flush_eq (h : Records files₀ w r) : w.flush = w := by
  cases hcurrent : r.current with
  | none => exact Writer.flush_none (h.closed hcurrent)
  | some filename => exact Writer.flush_held (h.current filename hcurrent).1.2

theorem close (h : Records files₀ w r) : Records files₀ w.closeFile { r with current := none } := by
  rw [Writer.closeFile, h.flush_eq]
  exact ⟨fun _ => rfl, fun _ h => absurd h (by simp), h.recorded, h.others⟩

theorem start_encode (format : Format) :
    riffId ++ ([0, 0, 0, 0] ++ (Session.fields format ++ [0, 0, 0, 0])) = (Session.start format).encode := by
  have hzero : leBytes 4 0 = [0, 0, 0, 0] := rfl
  simp [Session.encode, Session.start, Session.riffSize, Session.dataSize, hzero]

theorem openWav_eq (h : Records files₀ w r) {filename : ν} (hcurrent : r.current ≠ some filename) (opens : Bool) :
    w.openWav filename opens =
      ⟨if opens then Function.update w.files filename [] else w.files, if opens then some (filename, 0) else none, [], 0,
        filename⟩ := by
  unfold Writer.openWav
  cases hopen : r.current with
  | none => simp [h.closed hopen]
  | some other =>
    obtain ⟨hend, hname, -⟩ := h.current other hopen
    have hne : filename ≠ w.wavFilename := fun heq => hcurrent (by rw [hopen, heq, hname])
    simp [hne, hend.1, Writer.closeFile, Writer.flush_held hend.2]

theorem openFile (h : Records files₀ w r) (filename : ν) (format : Format) (opens : Bool) {r' : Recorder ν}
    (hstep : r.step (.openFile filename format opens) = some r') :
    Records files₀ (w.step Writer.atOnce (.openFile filename format opens)) r' := by
  simp only [Recorder.step] at hstep
  split_ifs at hstep with hcurrent hopens
  · obtain rfl := Option.some.inj hstep
    have hopen := h.openWav_eq hcurrent opens
    rw [hopens, if_pos rfl, if_pos rfl] at hopen
    have hend : (w.openWav filename opens).AtEnd filename := by simp [hopens, hopen, Writer.AtEnd]
    have hnew : w.step Writer.atOnce (.openFile filename format opens) =
        (w.openWav filename opens).extend filename (Session.start format).encode := by
      simp only [Writer.step, hopens, hopen, Option.isSome_some, if_pos]
      rw [hopens, hopen] at hend
      rw [Writer.writeHeader_atEnd hend, start_encode]
    rw [hnew, hopens, hopen]
    refine ⟨fun hnone => absurd hnone (by simp), fun other hother => ?_, fun other s hs => ?_, fun other hother => ?_⟩
    · obtain rfl := Option.some.inj hother
      exact ⟨Writer.extend_atEnd _ _ _, rfl, _, Function.update_self _ _ _, rfl⟩
    · by_cases heq : other = filename
      · subst heq
        simp only [Function.update_self, Option.some.injEq] at hs
        simp [Writer.extend, hs]
      · simp only [Function.update_of_ne heq] at hs
        simp [Writer.extend, Function.update_of_ne heq, h.recorded other s hs]
    · by_cases heq : other = filename
      · subst heq
        simp at hother
      · simp only [Function.update_of_ne heq] at hother
        simp [Writer.extend, Function.update_of_ne heq, h.others other hother]
  · obtain rfl := Option.some.inj hstep
    have hopen := h.openWav_eq hcurrent opens
    simp only [hopens, Bool.false_eq_true, if_false] at hopen
    simp only [Writer.step, hopens, hopen, Option.isSome_none, Bool.false_eq_true, if_false]
    exact ⟨fun _ => rfl, fun _ h => absurd h (by simp), h.recorded, h.others⟩

theorem append_encode (s : Session) (data : List Sample) :
    (s.append data).encode =
      riffId ++ (leBytes 4 ((36 + (s.append data).dataSize) % 2 ^ 32) ++ (Session.fields s.format ++
        (leBytes 4 (s.append data).dataSize ++ (s.data ++ data).flatMap sampleBytes))) := by
  simp [Session.encode, Session.append, Session.riffSize]

theorem write (h : Records files₀ w r) (data : List Sample) {r' : Recorder ν} (hstep : r.step (.write data) = some r') :
    Records files₀ (w.step Writer.atOnce (.write data)) r' := by
  cases hcurrent : r.current with
  | none =>
    simp only [Recorder.step, hcurrent, Option.some.injEq] at hstep
    subst hstep
    obtain ⟨hfile, hfiles⟩ := Writer.writeSamples_none (h.closed hcurrent) data
    have hstay : (w.step Writer.atOnce (.write data)).file = none ∧ (w.step Writer.atOnce (.write data)).files = w.files := by
      simp [Writer.step, Writer.writeAudio, hfile, hfiles]
    refine ⟨fun _ => hstay.1, fun other hother => absurd (hcurrent.symm.trans hother) (by simp), ?_, ?_⟩
    · rw [hstay.2]
      exact h.recorded
    · rw [hstay.2]
      exact h.others
  | some filename =>
    obtain ⟨hend, hname, s, hs, hsize⟩ := h.current filename hcurrent
    simp only [Recorder.step, hcurrent, hs, Option.map_some, Option.some.injEq] at hstep
    subst hstep
    have hlt : w.dataSize < 2 ^ 32 := by
      rw [hsize]
      exact Nat.mod_lt _ (Nat.two_pow_pos 32)
    have hcount : (w.record filename data).dataSize = (s.append data).dataSize := by
      simp [Writer.record, hsize, Session.dataSize, Session.append, Nat.mul_add]
    have hfiles : (w.record filename data).files filename =
        riffId ++ (s.riffSize ++ (Session.fields s.format ++ (leBytes 4 s.dataSize ++ (s.data ++ data).flatMap sampleBytes))) := by
      simp [Writer.record, Writer.extend, h.recorded filename s hs, Session.encode]
    obtain ⟨hpatchEnd, hpatchSize, hpatchName, hpatchFiles⟩ :=
      Writer.patch_spec rfl rfl hfiles (riffSize_length s) (fields_length _) (leBytes_length _ _)
    have hwrite : w.step Writer.atOnce (.write data) = (w.record filename data).patch Writer.atOnce := by
      have hopen : (w.record filename data).file.isSome = true := rfl
      simp only [Writer.step, Writer.writeAudio, Writer.writeSamples_atEnd hend data hlt, hopen, if_true]
    rw [hwrite]
    rw [hcount, ← append_encode] at hpatchFiles
    refine ⟨fun hnone => absurd hnone (by simp), fun other hother => ?_, fun other s' hs' => ?_,
      fun other hother => ?_⟩
    · obtain rfl := Option.some.inj hother
      exact ⟨hpatchEnd, hpatchName.trans hname, _, Function.update_self _ _ _, hpatchSize.trans hcount⟩
    · rw [hpatchFiles]
      by_cases heq : other = filename
      · subst heq
        simp only [Function.update_self, Option.some.injEq] at hs' ⊢
        rw [hs']
      · simp only [Function.update_of_ne heq] at hs' ⊢
        simp [Writer.record, Writer.extend, Function.update_of_ne heq, h.recorded other s' hs']
    · rw [hpatchFiles]
      by_cases heq : other = filename
      · subst heq
        simp at hother
      · simp only [Function.update_of_ne heq] at hother ⊢
        simp [Writer.record, Writer.extend, Function.update_of_ne heq, h.others other hother]

theorem step (h : Records files₀ w r) (call : Call ν) {r' : Recorder ν} (hstep : r.step call = some r') :
    Records files₀ (w.step Writer.atOnce call) r' := by
  cases call with
  | openFile filename format opens => exact h.openFile filename format opens hstep
  | write data => exact h.write data hstep
  | close =>
    obtain rfl := Option.some.inj hstep
    exact h.close

end Records

/-- The writer over any stream: flushed it does what the recorder stands for, and only a session without a write is held. -/
structure Streams (files₀ : ν → List UInt8) (w : Writer ν) (r : Recorder ν) : Prop where
  records : Records files₀ w.flush r
  handed : ∀ filename s, r.current = some filename → r.sessions filename = some s → s.written = true → w.held = []

namespace Streams

variable {files₀ : ν → List UInt8} {w : Writer ν} {r : Recorder ν} (spills : List UInt8 → List UInt8 → ℕ)

theorem new (files₀ : ν → List UInt8) (unnamed : ν) : Streams files₀ (Writer.new files₀ unnamed) Recorder.start := by
  apply Streams.mk
  · rw [Writer.flush_none rfl]
    exact ⟨fun _ => rfl, fun _ h => absurd h (by simp [Recorder.start]), fun _ _ h => absurd h (by simp [Recorder.start]),
      fun _ _ => rfl⟩
  · simp [Recorder.start]

/-- A write to an open file goes back behind its end. -/
theorem writeAudio_held (data : List Sample) (hopen : (w.writeAudio spills data).file.isSome) :
    (w.writeAudio spills data).held = [] := by
  have hflush : ∀ w : Writer ν, w.file.isSome → w.flush.held = [] := by
    intro w h
    obtain ⟨f, hf⟩ := Option.isSome_iff_exists.mp h
    simp [Writer.flush, hf]
  simp only [Writer.writeAudio] at hopen ⊢
  split_ifs at hopen ⊢ with hsamples
  · apply hflush
    simpa [Writer.patch, Writer.seekEnd] using hopen
  · contradiction

theorem step (h : Streams files₀ w r) (call : Call ν) {r' : Recorder ν} (hstep : r.step call = some r') :
    Streams files₀ (w.step spills call) r' := by
  have hrecords : Records files₀ (w.step spills call).flush r' := by
    rw [Writer.step_flush]
    exact h.records.step call hstep
  apply Streams.mk hrecords
  intro filename s hcurrent hs hwritten
  cases call with
  | openFile other format opens =>
    simp only [Recorder.step] at hstep
    split_ifs at hstep with hother hopens
    · obtain rfl := Option.some.inj hstep
      obtain rfl := Option.some.inj hcurrent
      obtain rfl : Session.start format = s := by simpa using hs
      exact absurd hwritten (by simp [Session.start])
    · obtain rfl := Option.some.inj hstep
      exact absurd hcurrent (by simp)
  | write data =>
    have hend := (hrecords.current filename hcurrent).1.1
    apply writeAudio_held spills data
    rw [← Writer.flush_isSome]
    exact Option.isSome_of_eq_some hend
  | close =>
    obtain rfl := Option.some.inj hstep
    exact absurd hcurrent (by simp)

theorem run (h : Streams files₀ w r) (calls : List (Call ν)) {r' : Recorder ν} (hrun : calls.foldlM Recorder.step r = some r') :
    Streams files₀ (calls.foldl (fun w call => w.step spills call) w) r' := by
  induction calls generalizing w r with
  | nil =>
    obtain rfl := Option.some.inj hrun
    exact h
  | cons call calls ih =>
    rw [List.foldlM_cons] at hrun
    obtain ⟨next, hnext, hrest⟩ := Option.bind_eq_some_iff.mp hrun
    exact ih (h.step spills call hnext) hrest

/-- A session that was written or is over stands in its file. -/
theorem recorded (h : Streams files₀ w r) {filename : ν} {s : Session} (hs : r.sessions filename = some s)
    (hover : s.written = true ∨ r.current ≠ some filename) : w.files filename = s.encode := by
  rw [← h.records.recorded filename s hs]
  cases hfile : w.file with
  | none => rw [Writer.flush_none hfile]
  | some f =>
    by_cases hsame : filename = f.1
    · have hcurrent : r.current = some filename := by
        cases hcurrent : r.current with
        | none =>
          have hnone := h.records.closed hcurrent
          simp [Writer.flush, hfile] at hnone
        | some other =>
          have hother := (h.records.current other hcurrent).1.1
          simp only [Writer.flush, hfile, Option.some.injEq, Prod.mk.injEq] at hother
          rw [hsame, hother.1]
      have hwritten := hover.resolve_right (not_not_intro hcurrent)
      rw [Writer.flush_held (h.handed filename s hcurrent hs hwritten)]
    · simp [Writer.flush, hfile, Function.update_of_ne hsame]

end Streams

section Reading

theorem truncate_near {x : ℚ} : |truncate x - x| < 1 := by
  unfold truncate
  split_ifs
  · have hle := Int.floor_le x
    have hlt := Int.lt_floor_add_one x
    rw [abs_lt]
    constructor <;> linarith
  · have hle := Int.le_ceil x
    have hlt := Int.ceil_lt_add_one x
    rw [abs_lt]
    constructor <;> linarith

theorem intSample_near (x : Sample) : |(intSample x : ℚ) - x.val * 32767| < 1 := truncate_near

theorem intSample_range (x : Sample) : -2 ^ 15 ≤ intSample x ∧ intSample x < 2 ^ 15 := by
  obtain ⟨hlow, hhigh⟩ := abs_le.mp x.property
  obtain ⟨hbelow, habove⟩ := abs_lt.mp (intSample_near x)
  have hfrom : (-32768 : ℚ) < intSample x := by linarith
  have hto : (intSample x : ℚ) < 32768 := by linarith
  norm_cast at hfrom hto
  omega

theorem leValue_sampleBytes (x : Sample) : toInt16 (leValue (sampleBytes x)) = intSample x := by
  obtain ⟨hlow, hhigh⟩ := intSample_range x
  unfold sampleBytes
  rw [leValue_leBytes _ _ (by omega)]
  unfold toInt16
  omega

theorem samples_flatMap (data : List Sample) (k : ℕ) :
    samples ((data.flatMap sampleBytes).take (2 * k)) = (data.take k).map (fun x => (intSample x : ℚ) / 32768) := by
  induction data generalizing k with
  | nil => simp [samples]
  | cons x data ih =>
    cases k with
    | zero => simp [samples]
    | succ k =>
      have hvalue := leValue_sampleBytes x
      have hbytes : ∃ b₀ b₁, sampleBytes x = [b₀, b₁] := ⟨_, _, rfl⟩
      obtain ⟨b₀, b₁, hbytes⟩ := hbytes
      rw [hbytes] at hvalue
      simp [hbytes, Nat.mul_succ, samples, hvalue, ih]

theorem samples_length (data : List Sample) : (data.flatMap sampleBytes).length = 2 * data.length := by
  induction data with
  | nil => rfl
  | cons x data ih =>
    simp only [List.flatMap_cons, List.length_append, ih, sampleBytes, leBytes_length, List.length_cons]
    omega

def Session.frames (s : Session) : List Sample := s.data.take (s.data.length / s.format.channels * s.format.channels)

/-- A session is a recording with its format chunk first. -/
theorem encode_recording (s : Session) (hchannels : 0 < s.format.channels) (hbits : s.format.bitsPerSample = 16)
    (hsize : 2 * s.data.length < 2 ^ 32) :
    ∃ recording : Recording, recording.encode = s.encode ∧ recording.before = [] ∧ recording.between = [] ∧
      recording.fmt.extra = [] ∧ recording.fmt.sampleRate = s.format.sampleRate ∧
      recording.contents =
        ⟨s.frames.map (fun x => (intSample x : ℚ) / 32768), s.format.sampleRate, s.format.channels, 16⟩ := by
  have hlength : (s.data.flatMap sampleBytes).length = s.dataSize := by
    rw [samples_length, Session.dataSize, Nat.mod_eq_of_lt hsize]
  refine ⟨⟨s.riffSize, [], ⟨1, s.format.channels, s.format.sampleRate,
    leBytes 4 (byteRate s.format) ++ leBytes 2 (blockAlign s.format), [], 0, hchannels, s.format.channels_lt,
    s.format.sampleRate_lt, by simp, by simp⟩, [], s.data.flatMap sampleBytes, 0, [], riffSize_length s,
    by rw [samples_length]; exact hsize⟩, ?_, rfl, rfl, rfl, rfl, ?_⟩
  · have heven : ¬(s.data.flatMap sampleBytes).length % 2 = 1 := by
      rw [samples_length]
      omega
    have hsixteen : leBytes 4 16 = leBytes 4 (FmtChunk.body ⟨1, s.format.channels, s.format.sampleRate,
        leBytes 4 (byteRate s.format) ++ leBytes 2 (blockAlign s.format), [], 0, hchannels, s.format.channels_lt,
        s.format.sampleRate_lt, by simp, by simp⟩).length := by
      rw [FmtChunk.body_length]
      rfl
    unfold Recording.encode FmtChunk.encode
    rw [encodeChunk, encodeChunk, if_neg heven, ← hsixteen, FmtChunk.body_length]
    simp [FmtChunk.body, Session.encode, Session.fields, hbits, hlength]
  · have hwhole : 2 * s.data.length / (2 * s.format.channels) * (2 * s.format.channels) =
        2 * (s.data.length / s.format.channels * s.format.channels) := by
      rw [Nat.mul_div_mul_left _ _ Nat.two_pos]
      ring
    unfold Recording.contents Recording.frames Session.frames
    dsimp only
    rw [samples_length, hwhole, samples_flatMap]

/-- Whatever is called and however much the stream holds back, a file that was written to or closed since it was
opened is read back: its format, and its whole frames to within two units. -/
theorem calls_readBack (spills : List UInt8 → List UInt8 → ℕ) (files₀ : ν → List UInt8) (unnamed : ν)
    {calls : List (Call ν)} {r : Recorder ν} (hrun : calls.foldlM Recorder.step Recorder.start = some r) {filename : ν}
    {s : Session} (hs : r.sessions filename = some s) (hover : s.written = true ∨ r.current ≠ some filename)
    (hchannels : 0 < s.format.channels) (hbits : s.format.bitsPerSample = 16) (hrate : s.format.sampleRate < 2 ^ 31)
    (hsize : 2 * s.data.length < 2 ^ 32) (locals : Locals) (wav : WavFile) :
    ∃ data, readWav locals
        ((calls.foldl (fun w call => w.step spills call) (Writer.new files₀ unnamed)).files filename) wav =
          .ok (true, ⟨data, s.format.sampleRate, s.format.channels, 16⟩) ∧
      List.Forall₂ (fun (x : Sample) y => |y - x.val| < 2 / 32768) s.frames data := by
  have hstreams := (Streams.new files₀ unnamed).run spills calls hrun
  obtain ⟨recording, hencode, hbefore, hbetween, hextra, hsame, hcontents⟩ := encode_recording s hchannels hbits hsize
  have hread := readWav_first locals wav recording hbefore (by rw [hextra]; rfl) (by rw [hbetween]; simp)
  rw [hsame, toInt32_of_lt hrate] at hread
  refine ⟨s.frames.map (fun x => (intSample x : ℚ) / 32768), ?_, ?_⟩
  · rw [hstreams.recorded hs hover, ← hencode, hread, hcontents]
  · rw [List.forall₂_map_right_iff]
    refine List.forall₂_same.mpr (fun x _ => ?_)
    obtain ⟨hlow, hhigh⟩ := abs_le.mp x.property
    obtain ⟨hbelow, habove⟩ := abs_lt.mp (intSample_near x)
    rw [abs_lt]
    constructor <;> linarith

theorem half_normalised : |(1 / 2 : ℚ)| ≤ 1 := by norm_num [abs_le]

theorem mono_block : 1 * 16 < 2 ^ 31 := by norm_num

theorem rate_lt : 16000 < 2 ^ 32 := by norm_num

theorem sixteen_lt : 16 < 2 ^ 16 := by norm_num

theorem single_lt : 1 < 2 ^ 16 := by norm_num

def mono : Format := ⟨16000, 16, 1, rate_lt, single_lt, sixteen_lt, mono_block⟩

def half : Sample := ⟨1 / 2, half_normalised⟩

/-- Two writes to one file, and a third one after another file could not be opened. -/
def monoCalls : List (Call ℕ) :=
  [.openFile 1 mono true, .write [half], .write [half], .openFile 2 mono false, .write [half]]

def ahead (held _bytes : List UInt8) : ℕ := held.length

theorem calls_readBack_mono : ∃ data, readWav zeroLocals ((monoCalls.foldl (fun w call => w.step ahead call)
      (Writer.new (fun _ => []) 0)).files 1) ⟨[], 0, 0, 0⟩ = .ok (true, ⟨data, 16000, 1, 16⟩) ∧ data.length = 2 := by
  have hrun : ∃ r, monoCalls.foldlM Recorder.step Recorder.start = some r ∧
      r.sessions 1 = some (((Session.start mono).append [half]).append [half]) := ⟨_, rfl, rfl⟩
  obtain ⟨r, hr, hs⟩ := hrun
  obtain ⟨data, hread, hnear⟩ :=
    calls_readBack ahead (fun _ => []) 0 hr hs (.inl rfl) (by decide) rfl (by decide) (by decide) zeroLocals ⟨[], 0, 0, 0⟩
  exact ⟨data, hread, hnear.length_eq.symm⟩

end Reading

end PyannoteCpp.WavWriter
