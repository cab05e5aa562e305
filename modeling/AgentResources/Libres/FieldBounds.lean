import AgentResources.Libres.Cpu
import AgentResources.Libres.ProcessRead

/-!
# Copies into fixed-size fields

The readers copy a value as long as its line into a field of 16 or 64 bytes. A line that begins
with a key has one value for it (`lineValue`), and a file has the values of its chunks
(`keyValues`). For each reader a spec lemma says when it returns and what the struct then is; from
it follows exactly which files make a copy run past a field or leave a field without a terminator.

## Main results

* `cpuReadAmd64_eq_ok`: the fields are the overlays of the values of their keys;
* `cpuReadAmd64_fieldsSafe_iff`, `cpuReadCpuModelNameArm64_safe_iff`, `processRead_safe_iff`: when
  the copies of a reader are safe, collected in `fieldCopies_safe_iff`.
-/

namespace AgentResources

variable {h : Host} {out out' : SysCpu} {chunk text : List UInt8} {n : ℕ}

/-! ## Values of a key -/

/-- The values a file has for a key, in order, as the reader's buffer cuts it. -/
def keyValues (blanks : List UInt8) (key : String) (text : List UInt8) : List (List UInt8) :=
  (Stream.chunks buffLarge text).filterMap (lineValue blanks [10] key)

/-- A field after a chunk that may have a value for its key. -/
def overlayLine (blanks : List UInt8) (key : String) (field : Vector UInt8 n)
    (chunk : List UInt8) : Vector UInt8 n :=
  match lineValue blanks [10] key chunk with
  | none => field
  | some value => overlay field value

/-- The value a chunk may have for a key fits `n` bytes. -/
def LineFits (blanks : List UInt8) (key : String) (n : ℕ) (chunk : List UInt8) : Prop :=
  ∀ value, lineValue blanks [10] key chunk = some value → value.length ≤ n

theorem foldl_overlayLine (blanks : List UInt8) (key : String) (field : Vector UInt8 n)
    (chunks : List (List UInt8)) :
    chunks.foldl (overlayLine blanks key) field =
      (chunks.filterMap (lineValue blanks [10] key)).foldl overlay field := by
  induction chunks generalizing field with
  | nil => rfl
  | cons chunk chunks ih =>
    rw [List.foldl_cons, List.filterMap_cons, ih, overlayLine]
    cases lineValue blanks [10] key chunk <;> rfl

theorem forall_lineFits {blanks : List UInt8} {key : String} {chunks : List (List UInt8)} :
    (∀ chunk ∈ chunks, LineFits blanks key n chunk) ↔
      ∀ value ∈ chunks.filterMap (lineValue blanks [10] key), value.length ≤ n := by
  simp only [LineFits, List.mem_filterMap]
  exact ⟨fun h value ⟨chunk, hchunk, hvalue⟩ => h chunk hchunk value hvalue,
    fun h chunk hchunk value hvalue => h value ⟨chunk, hchunk, hvalue⟩⟩

theorem copyValue_eq_ok {blanks val : List UInt8} {key : String} {field field' : Vector UInt8 n}
    (hval : afterColon blanks (cstr chunk) = some val) :
    copyValue key (cstr chunk) (spanUntil [10] val) field = .ok field' ↔
      LineFits blanks key n chunk ∧ field' = overlayLine blanks key field chunk := by
  unfold copyValue LineFits overlayLine lineValue
  split
  · simp [hval, copyInto_eq_ok]
  · simp [eq_comm]

/-- A copy that does not go through runs past its field. -/
theorem eq_overrun_of_copyValue {buf value : List UInt8} {key : String} {field : Vector UInt8 n}
    {e : Halt} (h : copyValue key buf value field = .error e) : e = .undefined .overrun := by
  unfold copyValue copyInto at h
  split at h
  · split at h
    · cases h
    · exact (Except.error.inj h).symm
  · cases h

/-! ## `cpu_read_amd64` -/

/-- The core count after a chunk. -/
def coresLine (cores : UInt32) (chunk : List UInt8) : UInt32 :=
  if (ascii "cpu cores").isPrefixOf (cstr chunk) ∧ (afterColon [32] (cstr chunk)).isSome
  then (parseU64 (cstr chunk ++ [0]) buffLarge).toUInt32 else cores

/-- Every value of the three keys fits its field. -/
def Amd64Fits (chunk : List UInt8) : Prop :=
  LineFits [32] "vendor_id" 16 chunk ∧ LineFits [32] "model name" 64 chunk ∧
    LineFits [32] "cpu MHz" 16 chunk

/-- The struct after a chunk that fits. -/
def amd64Next (out : SysCpu) (chunk : List UInt8) : SysCpu :=
  { out with
    vendor := overlayLine [32] "vendor_id" out.vendor chunk
    model := overlayLine [32] "model name" out.model chunk
    frequency := overlayLine [32] "cpu MHz" out.frequency chunk
    cores := coresLine out.cores chunk }

theorem amd64Line_of_none (hval : afterColon [32] (cstr chunk) = none) :
    amd64Line out chunk = .ok out := by
  simp only [amd64Line, hval]

theorem amd64Next_of_none (hval : afterColon [32] (cstr chunk) = none) :
    amd64Next out chunk = out := by
  simp [amd64Next, overlayLine, coresLine, lineValue_of_afterColon_eq_none hval, hval]

theorem amd64Fits_of_none (hval : afterColon [32] (cstr chunk) = none) : Amd64Fits chunk := by
  simp [Amd64Fits, LineFits, lineValue_of_afterColon_eq_none hval]

/-- A chunk goes through iff its value fits the field of its key, and then the field has it. -/
theorem amd64Line_eq_ok (out : SysCpu) (chunk : List UInt8) (out' : SysCpu) :
    amd64Line out chunk = .ok out' ↔ Amd64Fits chunk ∧ out' = amd64Next out chunk := by
  cases hval : afterColon [32] (cstr chunk) with
  | none =>
    rw [amd64Line_of_none hval, amd64Next_of_none hval, Except.ok.injEq, eq_comm,
      and_iff_right (amd64Fits_of_none hval)]
  | some val =>
    simp only [amd64Line, hval, Except.bind_eq_ok, copyValue_eq_ok hval, pure, Except.pure,
      Except.ok.injEq]
    simp only [Amd64Fits, amd64Next, coresLine, hval, Option.isSome_some, and_true]
    constructor
    · rintro ⟨_, ⟨hvendor, rfl⟩, _, ⟨hmodel, rfl⟩, _, ⟨hfreq, rfl⟩, rfl⟩
      exact ⟨⟨hvendor, hmodel, hfreq⟩, rfl⟩
    · rintro ⟨⟨hvendor, hmodel, hfreq⟩, rfl⟩
      exact ⟨_, ⟨hvendor, rfl⟩, _, ⟨hmodel, rfl⟩, _, ⟨hfreq, rfl⟩, rfl⟩

theorem eq_overrun_of_amd64Line {e : Halt} (h : amd64Line out chunk = .error e) :
    e = .undefined .overrun := by
  cases hval : afterColon [32] (cstr chunk) with
  | none =>
    rw [amd64Line_of_none hval] at h
    cases h
  | some val =>
    simp only [amd64Line, hval, Except.bind_eq_error] at h
    rcases h with h | ⟨vendor, -, h | ⟨model, -, h | ⟨frequency, -, h⟩⟩⟩
    · exact eq_overrun_of_copyValue h
    · exact eq_overrun_of_copyValue h
    · exact eq_overrun_of_copyValue h
    · cases h

/-- The reader returns iff the file is there and every value fits its field; then each field is
the overlay of the values of its key. -/
theorem cpuReadAmd64_eq_ok {code : ℤ} :
    cpuReadAmd64 h out = .ok (code, out') ↔ ∃ text, h.file .procCpuinfo = some text ∧
      code = errOk ∧ (∀ chunk ∈ Stream.chunks buffLarge text, Amd64Fits chunk) ∧
      out' = (Stream.chunks buffLarge text).foldl amd64Next out := by
  unfold cpuReadAmd64
  cases h.file .procCpuinfo with
  | none => simp
  | some text =>
    have hfold : ∀ out', (Stream.chunks buffLarge text).foldlM amd64Line out = .ok out' ↔ _ :=
      fun out' => Except.foldlM_eq_ok amd64Line_eq_ok
    simp only [Except.bind_eq_ok, hfold, Option.some.injEq, exists_eq_left', pure, Except.pure,
      Except.ok.injEq, Prod.mk.injEq]
    constructor
    · rintro ⟨_, ⟨hfits, rfl⟩, rfl, rfl⟩
      exact ⟨rfl, hfits, rfl⟩
    · rintro ⟨rfl, hfits, rfl⟩
      exact ⟨_, ⟨hfits, rfl⟩, rfl, rfl⟩

/-- A field of the struct that each chunk overlays is overlaid by all of them. -/
theorem foldl_amd64Next (out : SysCpu) (chunks : List (List UInt8)) :
    let final := chunks.foldl amd64Next out
    final.vendor = (chunks.filterMap (lineValue [32] [10] "vendor_id")).foldl overlay out.vendor ∧
    final.model = (chunks.filterMap (lineValue [32] [10] "model name")).foldl overlay out.model ∧
    final.frequency =
      (chunks.filterMap (lineValue [32] [10] "cpu MHz")).foldl overlay out.frequency ∧
    final.totalTime = out.totalTime ∧ final.idleTime = out.idleTime := by
  simp only [← foldl_overlayLine]
  induction chunks generalizing out with
  | nil => exact ⟨rfl, rfl, rfl, rfl, rfl⟩
  | cons chunk chunks ih => exact ih _

/-- The reader stops at a missing file or at a copy past a field. -/
theorem cpuReadAmd64_eq_error {e : Halt} (hrun : cpuReadAmd64 h out = .error e) :
    (h.file .procCpuinfo = none ∧ e = .assertFailed) ∨
      (∃ text, h.file .procCpuinfo = some text) ∧ e = .undefined .overrun := by
  unfold cpuReadAmd64 at hrun
  cases hfile : h.file .procCpuinfo with
  | none =>
    rw [hfile] at hrun
    exact .inl ⟨rfl, (Except.error.inj hrun).symm⟩
  | some text =>
    rw [hfile] at hrun
    rcases Except.bind_eq_error.mp hrun with hfold | ⟨_, -, hpure⟩
    · exact .inr ⟨⟨text, rfl⟩,
        Except.of_foldlM_eq_error (fun _ _ _ => eq_overrun_of_amd64Line) hfold⟩
    · cases hpure

/-- No copy of a reader runs past a field of the struct, and after success the fields hold
strings. -/
def CpuFieldsSafe (r : Except Halt (ℤ × SysCpu)) : Prop :=
  r ≠ .error (.undefined .overrun) ∧ ∀ out', r = .ok (errOk, out') →
    NulTerminated out'.vendor ∧ NulTerminated out'.model ∧ NulTerminated out'.frequency

/-- A zero byte of the field lies at or after the end of every value copied to its start. -/
def KeepsString (field : Vector UInt8 n) (values : List (List UInt8)) : Prop :=
  ∃ i, ∃ hi : i < n, (∀ value ∈ values, value.length ≤ i) ∧ field[i] = 0

theorem nulTerminated_keyValues {field : Vector UInt8 n} {blanks : List UInt8} {key : String} :
    NulTerminated ((keyValues blanks key text).foldl overlay field) ↔
      KeepsString field (keyValues blanks key text) := by
  refine nulTerminated_foldl_overlay fun value hvalue => ?_
  obtain ⟨chunk, -, hchunk⟩ := List.mem_filterMap.mp hvalue
  exact zero_notMem_lineValue hchunk

/-- A zero byte after all values leaves room for each of them. -/
theorem KeepsString.lineFits {field : Vector UInt8 n} {blanks : List UInt8} {key : String}
    (hkeeps : KeepsString field (keyValues blanks key text)) :
    ∀ chunk ∈ Stream.chunks buffLarge text, LineFits blanks key n chunk := by
  obtain ⟨i, hi, hvalues, -⟩ := hkeeps
  exact forall_lineFits.mpr fun value hvalue => (hvalues value hvalue).trans hi.le

theorem cpuReadAmd64_fieldsSafe_iff :
    CpuFieldsSafe (cpuReadAmd64 h out) ↔ ∀ text, h.file .procCpuinfo = some text →
      KeepsString out.vendor (keyValues [32] "vendor_id" text) ∧
      KeepsString out.model (keyValues [32] "model name" text) ∧
      KeepsString out.frequency (keyValues [32] "cpu MHz" text) := by
  constructor
  · -- a run that is safe returned, with the fields overlaid by their values
    rintro ⟨hover, hstrings⟩ text hfile
    cases hrun : cpuReadAmd64 h out with
    | error e =>
      obtain ⟨hnone, -⟩ | ⟨-, rfl⟩ := cpuReadAmd64_eq_error hrun
      · simp [hfile] at hnone
      · exact absurd hrun hover
    | ok r =>
      obtain ⟨text', hfile', hcode, -, hout⟩ := cpuReadAmd64_eq_ok.mp hrun
      obtain rfl : text = text' := by simpa [hfile] using hfile'
      obtain ⟨hvendor, hmodel, hfreq, -⟩ :=
        foldl_amd64Next out (Stream.chunks buffLarge text)
      have hend := hstrings r.2 (by rw [hrun, ← hcode])
      rw [hout, hvendor, hmodel, hfreq] at hend
      exact ⟨nulTerminated_keyValues.mp hend.1, nulTerminated_keyValues.mp hend.2.1,
        nulTerminated_keyValues.mp hend.2.2⟩
  · intro hkeeps
    refine ⟨fun hrun => ?_, fun out' hrun => ?_⟩
    · -- with room for every value the run returns
      obtain ⟨-, he⟩ | ⟨⟨text, hfile⟩, -⟩ := cpuReadAmd64_eq_error hrun
      · cases he
      · obtain ⟨hvendor, hmodel, hfreq⟩ := hkeeps text hfile
        have hfits : ∀ chunk ∈ Stream.chunks buffLarge text, Amd64Fits chunk :=
          fun chunk hchunk => ⟨hvendor.lineFits chunk hchunk, hmodel.lineFits chunk hchunk,
            hfreq.lineFits chunk hchunk⟩
        have hok : cpuReadAmd64 h out = .ok _ :=
          cpuReadAmd64_eq_ok.mpr ⟨text, hfile, rfl, hfits, rfl⟩
        rw [hrun] at hok
        cases hok
    · -- the fields of a run that returned end where their values do
      obtain ⟨text, hfile, -, -, hout⟩ := cpuReadAmd64_eq_ok.mp hrun
      obtain ⟨hvendor, hmodel, hfreq⟩ := hkeeps text hfile
      obtain ⟨hv, hm, hf, -⟩ := foldl_amd64Next out (Stream.chunks buffLarge text)
      rw [hout, hv, hm, hf]
      exact ⟨nulTerminated_keyValues.mpr hvendor, nulTerminated_keyValues.mpr hmodel,
        nulTerminated_keyValues.mpr hfreq⟩

/-! ## `cpu_read_cpu_model_name_arm64` -/

/-- No copy of the reader runs past the model field, and after success it holds a string. -/
def ModelSafe (r : Except Halt (ℤ × SysCpu)) : Prop :=
  r ≠ .error (.undefined .overrun) ∧ ∀ out', r = .ok (errOk, out') → NulTerminated out'.model

theorem cpuReadCpuModelNameArm64_of_file (hfile : h.file .deviceTreeModel = some text)
    (hne : text ≠ []) :
    cpuReadCpuModelNameArm64 h out = do
      let model ← copyString out.model (cstr (text.take buffDefault))
      return (errOk, { out with model }) := by
  have hbuffer : text.take buffDefault ≠ [] := by
    simpa [List.take_eq_nil_iff, buffDefault] using hne
  unfold cpuReadCpuModelNameArm64
  rw [hfile]
  dsimp only
  rw [if_neg hbuffer]

theorem cpuReadCpuModelNameArm64_safe_iff :
    ModelSafe (cpuReadCpuModelNameArm64 h out) ↔ ∀ text, h.file .deviceTreeModel = some text →
      (cstr (text.take buffDefault)).length < 64 := by
  by_cases hempty : h.file .deviceTreeModel = none ∨ h.file .deviceTreeModel = some []
  · -- nothing is copied when the file is missing or empty
    have hrun : cpuReadCpuModelNameArm64 h out = .error .assertFailed := by
      rcases hempty with hfile | hfile <;> simp [cpuReadCpuModelNameArm64, hfile]
    refine iff_of_true ⟨by simp [hrun], by simp [hrun]⟩ fun text htext => ?_
    rcases hempty with hfile | hfile
    · simp [hfile] at htext
    · obtain rfl : [] = text := by simpa [hfile] using htext
      simp [cstr]
  obtain ⟨text, hfile⟩ := Option.ne_none_iff_exists'.mp (not_or.mp hempty).1
  have hne : text ≠ [] := fun hnil => hempty (.inr (hnil ▸ hfile))
  rw [cpuReadCpuModelNameArm64_of_file hfile hne]
  simp only [hfile, Option.some.injEq, forall_eq']
  constructor
  · rintro ⟨hover, -⟩
    -- a text too long for the field makes the copy run over
    by_contra hlong
    cases hcopy : copyString out.model (cstr (text.take buffDefault)) with
    | error e =>
      rw [hcopy, eq_overrun_of_copyString hcopy] at hover
      exact hover rfl
    | ok model => exact hlong (copyString_eq_ok.mp hcopy).1
  · intro hlt
    rw [copyString_of_lt out.model hlt, Except.ok_bind]
    refine ⟨by simp [pure, Except.pure], fun out' hout => ?_⟩
    cases hout
    exact nulTerminated_overlay_append_zero hlt

/-! ## `process_read` -/

/-- No copy of the reader runs past the name field, and after success it holds a string. -/
def NameSafe (r : Except Halt (ℤ × SysProc)) : Prop :=
  r ≠ .error (.undefined .overrun) ∧ ∀ out', r = .ok (errOk, out') → NulTerminated out'.name

/-- The name after a chunk whose name fits. -/
def nextName (name : Vector UInt8 16) (chunk : List UInt8) : Vector UInt8 16 :=
  match lineValue [32, 9] [10] "Name:" chunk with
  | none => name
  | some value => overlay name (value ++ [0])

/-- The struct after a chunk of the status whose name fits. -/
def statusNext (out : SysProc) (chunk : List UInt8) : SysProc :=
  match afterColon [32, 9] (cstr chunk) with
  | none => out
  | some val =>
    { out with
      name := nextName out.name chunk
      state := if (ascii "State:").isPrefixOf (cstr chunk) then procState val else out.state
      numThreads := if (ascii "Threads:").isPrefixOf (cstr chunk)
        then (parseU64 (val ++ [0]) 8).toUInt8.toInt8 else out.numThreads }

theorem statusName_eq_ok {val : List UInt8} {name name' : Vector UInt8 16}
    (hval : afterColon [32, 9] (cstr chunk) = some val) :
    statusName name (cstr chunk) (spanUntil [10] val) = .ok name' ↔
      LineFits [32, 9] "Name:" 15 chunk ∧ name' = nextName name chunk := by
  unfold statusName LineFits nextName lineValue
  split
  · simp [hval, copyString_eq_ok, Nat.lt_succ_iff]
  · simp [eq_comm]

theorem statusLine_eq_ok (out : SysProc) (chunk : List UInt8) (out' : SysProc) :
    statusLine out chunk = .ok out' ↔
      LineFits [32, 9] "Name:" 15 chunk ∧ out' = statusNext out chunk := by
  cases hval : afterColon [32, 9] (cstr chunk) with
  | none =>
    have hfits : LineFits [32, 9] "Name:" 15 chunk := by
      simp [LineFits, lineValue_of_afterColon_eq_none hval]
    simp only [statusLine, statusNext, hval, hfits, Except.ok.injEq, true_and]
    exact eq_comm
  | some val =>
    simp only [statusLine, statusNext, hval, Except.bind_eq_ok, statusName_eq_ok hval, pure,
      Except.pure, Except.ok.injEq]
    constructor
    · rintro ⟨_, ⟨hfits, rfl⟩, rfl⟩
      exact ⟨hfits, rfl⟩
    · rintro ⟨hfits, rfl⟩
      exact ⟨_, ⟨hfits, rfl⟩, rfl⟩

theorem eq_overrun_of_statusLine {out : SysProc} {e : Halt}
    (hrun : statusLine out chunk = .error e) : e = .undefined .overrun := by
  cases hval : afterColon [32, 9] (cstr chunk) with
  | none => simp [statusLine, hval] at hrun
  | some val =>
    simp only [statusLine, hval, Except.bind_eq_error, statusName] at hrun
    rcases hrun with hname | ⟨name, -, hpure⟩
    · split at hname
      · exact eq_overrun_of_copyString hname
      · cases hname
    · cases hpure

theorem name_statusNext (out : SysProc) (chunk : List UInt8) :
    (statusNext out chunk).name = nextName out.name chunk := by
  unfold statusNext
  cases hval : afterColon [32, 9] (cstr chunk) with
  | none => simp [nextName, lineValue_of_afterColon_eq_none hval]
  | some val => rfl

/-- The name after the whole file holds a string once one was copied in; else it is as before. -/
theorem nulTerminated_foldl_statusNext (out : SysProc) {chunks : List (List UInt8)}
    (hfits : ∀ chunk ∈ chunks, LineFits [32, 9] "Name:" 15 chunk) :
    NulTerminated (chunks.foldl statusNext out).name ↔
      (chunks.filterMap (lineValue [32, 9] [10] "Name:") = [] → NulTerminated out.name) := by
  -- from the end: the last name that was copied decides
  induction chunks using List.reverseRecOn with
  | nil => simp
  | append_singleton chunks chunk ih =>
    obtain ⟨hinit, hlast⟩ := List.forall_mem_append.mp hfits
    rw [List.foldl_append, List.foldl_cons, List.foldl_nil, List.filterMap_append,
      name_statusNext, nextName]
    cases hvalue : lineValue [32, 9] [10] "Name:" chunk with
    | none => simpa [List.filterMap_cons, hvalue] using ih hinit
    | some value =>
      have hlt := Nat.lt_succ_of_le (hlast chunk List.mem_cons_self value hvalue)
      exact iff_of_true (nulTerminated_overlay_append_zero hlt) (by simp [hvalue])

/-- With the file there, the reader is a fold over its chunks. -/
theorem processRead_of_file {pid : Int32} {out : SysProc}
    (hfile : h.file (.procStatus pid) = some text) :
    processRead h pid out = do
      let out ← (Stream.chunks buffLarge text).foldlM statusLine { out with pid }
      return (if h.fclose (.procStatus pid) ≠ 0 then errIo else errOk, out) := by
  simp only [processRead, hfile]
  refine bind_congr fun out => ?_
  split <;> rfl

theorem processRead_safe_iff {pid : Int32} {out : SysProc} :
    NameSafe (processRead h pid out) ↔ ∀ text, h.file (.procStatus pid) = some text →
      (∀ value ∈ keyValues [32, 9] "Name:" text, value.length < 16) ∧
      (keyValues [32, 9] "Name:" text = [] → h.fclose (.procStatus pid) = 0 →
        NulTerminated out.name) := by
  cases hfile : h.file (.procStatus pid) with
  | none =>
    have hrun : processRead h pid out = .ok (errIo, out) := by
      simp only [processRead, hfile]
    exact iff_of_true ⟨by simp [hrun], by simp [hrun, errIo, errOk]⟩ (by simp)
  | some text =>
    have hlt : (∀ value ∈ keyValues [32, 9] "Name:" text, value.length < 16) ↔
        ∀ chunk ∈ Stream.chunks buffLarge text, LineFits [32, 9] "Name:" 15 chunk := by
      rw [forall_lineFits]
      exact forall₂_congr fun value _ => Nat.lt_succ_iff
    rw [processRead_of_file hfile]
    simp only [Option.some.injEq, forall_eq', hlt]
    cases hfold : (Stream.chunks buffLarge text).foldlM statusLine { out with pid } with
    | error e =>
      -- the loop can only have stopped at a copy past the field
      obtain rfl : e = .undefined .overrun :=
        Except.of_foldlM_eq_error (fun _ _ _ => eq_overrun_of_statusLine) hfold
      refine iff_of_false (fun hsafe => hsafe.1 rfl) fun hfits => ?_
      rw [(Except.foldlM_eq_ok statusLine_eq_ok).mpr ⟨hfits.1, rfl⟩] at hfold
      cases hfold
    | ok final =>
      obtain ⟨hfits, rfl⟩ := (Except.foldlM_eq_ok statusLine_eq_ok).mp hfold
      have hstring := nulTerminated_foldl_statusNext { out with pid } hfits
      rw [Except.ok_bind, and_iff_right hfits]
      by_cases hclose : h.fclose (.procStatus pid) = 0
      · simp only [NameSafe, hclose, ne_eq, not_true_eq_false, if_false, pure, Except.pure,
          reduceCtorEq, not_false_eq_true, Except.ok.injEq, Prod.mk.injEq, true_and,
          forall_eq', true_implies]
        exact hstring
      · refine iff_of_true ⟨by simp [pure, Except.pure], ?_⟩ fun _ h0 => absurd h0 hclose
        simp [pure, Except.pure, hclose, errIo, errOk]

/-! ## All fields -/

/-- A zeroed field keeps holding a string iff every value is shorter than it. -/
theorem keepsString_replicate {values : List (List UInt8)} (hn : 0 < n) :
    KeepsString (Vector.replicate n 0) values ↔ ∀ value ∈ values, value.length < n := by
  constructor
  · rintro ⟨i, hi, hvalues, -⟩ value hvalue
    exact (hvalues value hvalue).trans_lt hi
  · intro hvalues
    refine ⟨n - 1, by omega, fun value hvalue => ?_, by simp⟩
    exact Nat.le_sub_one_of_lt (hvalues value hvalue)

/-- When the copies of the three readers stay in their fields and leave strings there. -/
theorem fieldCopies_safe_iff (h : Host) (cpu : SysCpu) (pid : Int32) (proc : SysProc) :
    (CpuFieldsSafe (cpuReadAmd64 h cpu) ↔ ∀ text, h.file .procCpuinfo = some text →
      KeepsString cpu.vendor (keyValues [32] "vendor_id" text) ∧
      KeepsString cpu.model (keyValues [32] "model name" text) ∧
      KeepsString cpu.frequency (keyValues [32] "cpu MHz" text)) ∧
    (ModelSafe (cpuReadCpuModelNameArm64 h cpu) ↔ ∀ text, h.file .deviceTreeModel = some text →
      (cstr (text.take buffDefault)).length < 64) ∧
    (NameSafe (processRead h pid proc) ↔ ∀ text, h.file (.procStatus pid) = some text →
      (∀ value ∈ keyValues [32, 9] "Name:" text, value.length < 16) ∧
      (keyValues [32, 9] "Name:" text = [] → h.fclose (.procStatus pid) = 0 →
        NulTerminated proc.name)) :=
  ⟨cpuReadAmd64_fieldsSafe_iff, cpuReadCpuModelNameArm64_safe_iff, processRead_safe_iff⟩

/-- The name of a kernel worker runs past the 16 bytes of the field. -/
theorem not_fieldCopies_safe :
    ¬ ∀ (h : Host) (cpu : SysCpu) (pid : Int32) (proc : SysProc),
      CpuFieldsSafe (cpuReadAmd64 h cpu) ∧ ModelSafe (cpuReadCpuModelNameArm64 h cpu) ∧
      NameSafe (processRead h pid proc) := by
  intro hall
  let status := ascii "Name:\tkworker/u8:2-events_unbound\n"
  let h : Host :=
    { Kernel.above with file := fun _ => some status, fclose := fun _ => 0, now := fun _ => 0 }
  have hsafe := (hall h ⟨0, 0, 0, 0, .replicate _ 0, .replicate _ 0, .replicate _ 0⟩ 7
    ⟨.replicate _ 0, 0, 0, 0, 0, .undefined⟩).2.2
  exact hsafe.1 (by decide +kernel)

end AgentResources
