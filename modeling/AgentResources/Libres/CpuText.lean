import AgentResources.Libres.CpuList
import AgentResources.Libres.CpuValues

/-!
# The processor files as the kernel writes them

`/proc/cpuinfo` is written line by line, a stanza for each processor; `CpuinfoLine` is a line and
`cpuinfoText` the file. A line may be longer than the buffer of the reader, as that of the flags is,
and is then read in several chunks. The ARM files hold one value each (`ArmFiles`).

Read into a zeroed struct, every key has the values of its lines, whatever lines stand between them
(`keyValues_cpuinfoText`). They are written one over the other, so that the string of the struct is
the value of the last processor only if no earlier one was longer.

## Main results

* `keyValues_cpuinfoText`: the reader finds the values of the lines;
* `cpuRead_cpuinfoText`: what `cpu_read` makes of a `/proc/cpuinfo`;
* `ArmFiles.cpuRead`: what it makes of the ARM files.
-/

namespace AgentResources

variable {h : Host} {out : SysCpu}

/-! ## Lines -/

/-- The keys of the strings that `cpu_read_amd64` takes. -/
inductive CpuinfoKey
  | vendorId
  | modelName
  | cpuMHz
  deriving DecidableEq

namespace CpuinfoKey

/-- The key as it stands in the file. -/
def name : CpuinfoKey → String
  | vendorId => "vendor_id"
  | modelName => "model name"
  | cpuMHz => "cpu MHz"

/-- The kernel fills a key up with tabs. -/
def tabs : CpuinfoKey → ℕ
  | vendorId => 1
  | modelName => 1
  | cpuMHz => 2

/-- The size of the field of a key. -/
def size : CpuinfoKey → ℕ
  | vendorId => 16
  | modelName => 64
  | cpuMHz => 16

instance {P : CpuinfoKey → Prop} [DecidablePred P] : Decidable (∀ key, P key) :=
  decidable_of_iff (P vendorId ∧ P modelName ∧ P cpuMHz)
    ⟨fun ⟨hvendor, hmodel, hMHz⟩ key => by cases key <;> assumption,
      fun hall => ⟨hall _, hall _, hall _⟩⟩

end CpuinfoKey

/-- A line of `/proc/cpuinfo`, without its newline. -/
inductive CpuinfoLine
  | value (key : CpuinfoKey) (val : List UInt8)
  | other (content : List UInt8)

namespace CpuinfoLine

/-- A line as the kernel writes it. -/
def content : CpuinfoLine → List UInt8
  | value key val => ascii key.name ++ List.replicate key.tabs 9 ++ 58 :: 32 :: val
  | other content => content

/-- The value a line has for a key. -/
def valueOf (key : CpuinfoKey) : CpuinfoLine → Option (List UInt8)
  | value key' val => if key' = key then some val else none
  | other _ => none

/-- The value of a key is a string that fits its field. Another line has another key; it may go on
beyond the buffer, but not with a colon. -/
def Plain : CpuinfoLine → Prop
  | value key val => val.length < key.size ∧ 0 ∉ val ∧ Stream.newline ∉ val ∧ val.head? ≠ some 32
  | other content => Stream.newline ∉ content ∧
    (∀ key : CpuinfoKey, ¬ ascii key.name <+: content) ∧ 58 ∉ content.drop (buffLarge - 1)

instance : DecidablePred Plain
  | value _ _ => inferInstanceAs (Decidable (_ ∧ _))
  | other _ => inferInstanceAs (Decidable (_ ∧ _))

end CpuinfoLine

/-- The file of these lines. -/
def cpuinfoText (lines : List CpuinfoLine) : List UInt8 :=
  (lines.map CpuinfoLine.content).flatMap (· ++ [Stream.newline])

/-- The values of a key, in order. -/
def cpuinfoValues (key : CpuinfoKey) (lines : List CpuinfoLine) : List (List UInt8) :=
  lines.filterMap (CpuinfoLine.valueOf key)

/-! ## Reading the lines -/

namespace CpuinfoLine

variable {line : CpuinfoLine} {key : CpuinfoKey}

theorem Plain.newline_notMem (hline : line.Plain) : Stream.newline ∉ line.content := by
  cases line with
  | value key val =>
    obtain ⟨-, -, hnewline, -⟩ := hline
    have hname : Stream.newline ∉ ascii key.name ++ List.replicate key.tabs 9 := by
      cases key <;> decide
    rw [content, List.mem_append, List.mem_cons, List.mem_cons, not_or, not_or, not_or]
    exact ⟨hname, by decide, by decide, hnewline⟩
  | other content => exact hline.1

/-- The line of a value has it for its key, and nothing for the others. -/
theorem lineValue_value {key' : CpuinfoKey} {val : List UInt8} (hzero : 0 ∉ val)
    (hnewline : Stream.newline ∉ val) (hhead : val.head? ≠ some 32) :
    lineValue [32] [10] key.name ((value key' val).content ++ [Stream.newline]) =
      (value key' val).valueOf key := by
  have hlabel : ∀ b ∈ [0, 58], b ∉ ascii key'.name ++ List.replicate key'.tabs 9 := by
    cases key' <;> decide +kernel
  have hcstr : cstr ((value key' val).content ++ [Stream.newline]) =
      (ascii key'.name ++ List.replicate key'.tabs 9) ++ 58 :: ([32] ++ (val ++ [10])) := by
    rw [content, cstr_of_notMem]
    · simp [Stream.newline]
    · simp only [List.mem_append, List.mem_cons, not_or, List.not_mem_nil, not_false_eq_true,
        and_true]
      have hname := hlabel 0 (by decide)
      rw [List.mem_append, not_or] at hname
      exact ⟨⟨hname, by decide, by decide, hzero⟩, by decide⟩
  have hafter : afterColon [32] (cstr ((value key' val).content ++ [Stream.newline])) =
      some (val ++ [10]) := by
    rw [hcstr]
    refine afterColon_append (hlabel 58 (by decide)) (fun b hb => hb) fun b hb => ?_
    cases val with
    | nil =>
      obtain rfl := Option.some.inj hb
      decide
    | cons c val =>
      obtain rfl := Option.some.inj hb
      simpa using hhead
  have hspan : spanUntil [10] (val ++ [10]) = val := by
    rw [spanUntil_append]
    · simp [spanUntil]
    · rintro b hb hreject
      obtain rfl := List.mem_singleton.mp hreject
      exact hnewline hb
  -- the keys differ in their first bytes
  have hprefix : (ascii key.name).isPrefixOf
      (cstr ((value key' val).content ++ [Stream.newline])) = decide (key' = key) := by
    rw [hcstr]
    cases key <;> cases key' <;> rfl
  rw [lineValue, hprefix, hafter, Option.map_some, hspan, valueOf]
  simp only [decide_eq_true_eq]

/-- The chunks of a line have what the line has. -/
theorem Plain.filterMap_chunks (hline : line.Plain) (key : CpuinfoKey) :
    (Stream.chunks buffLarge (line.content ++ [Stream.newline])).filterMap
      (lineValue [32] [10] key.name) = (line.valueOf key).toList := by
  have hisLine := Stream.isLine_concat hline.newline_notMem []
  cases line with
  | value key' val =>
    obtain ⟨hlen, hzero, hnewline, hhead⟩ := hline
    have hfit : ((value key' val).content ++ [Stream.newline]).length ≤ buffLarge - 1 := by
      have hlabel : (ascii key'.name ++ List.replicate key'.tabs 9).length ≤ 11 := by
        cases key' <;> decide
      have hsize : key'.size ≤ 64 := by cases key' <;> decide
      rw [content, List.length_append, List.length_append, List.length_cons, List.length_cons,
        List.length_singleton]
      show _ ≤ 511
      omega
    rw [hisLine.chunks_eq_singleton (by simp) (by decide) hfit, List.filterMap_cons,
      lineValue_value hzero hnewline hhead]
    cases (value key' val).valueOf key <;> rfl
  | other content =>
    obtain ⟨hnewline, hkey, hcolon⟩ := hline
    have hsize : 2 ≤ buffLarge := by decide
    obtain ⟨later, hchunks, hlater⟩ := Stream.chunks_concat hsize hnewline
    have hname : Stream.newline ∉ ascii key.name := by cases key <;> decide
    -- the first chunk has another key, and a later one no colon
    rw [CpuinfoLine.content, hchunks, List.filterMap_cons,
      lineValue_of_not_prefix (Stream.not_isPrefixOf_take_concat hname (hkey key) _)]
    refine List.filterMap_eq_nil_iff.mpr fun chunk hchunk => ?_
    refine lineValue_of_afterColon_eq_none ?_ _ _
    rw [← Option.not_isSome_iff_eq_none, afterColon_isSome]
    intro hmem
    rcases List.mem_append.mp (hlater chunk hchunk ((List.takeWhile_prefix _).subset hmem)) with
      hdrop | hdrop
    · exact hcolon hdrop
    · exact absurd hdrop (by decide)

end CpuinfoLine

variable {lines : List CpuinfoLine}

/-- The reader finds the values of the lines. -/
theorem keyValues_cpuinfoText (hlines : ∀ line ∈ lines, line.Plain) (key : CpuinfoKey) :
    keyValues [32] key.name (cpuinfoText lines) = cpuinfoValues key lines := by
  have hcontents : ∀ content ∈ lines.map CpuinfoLine.content, Stream.newline ∉ content := by
    intro content hcontent
    obtain ⟨line, hline, rfl⟩ := List.mem_map.mp hcontent
    exact (hlines line hline).newline_notMem
  rw [keyValues, cpuinfoText, Stream.chunks_flatMap_concat (by decide) hcontents,
    List.filterMap_flatMap, List.flatMap_map, cpuinfoValues, List.filterMap_eq_flatMap_toList]
  exact List.flatMap_congr fun line hline => (hlines line hline).filterMap_chunks key

/-- A value is a string that fits its field. -/
theorem fits_of_mem_cpuinfoValues (hlines : ∀ line ∈ lines, line.Plain) {key : CpuinfoKey}
    {val : List UInt8} (hval : val ∈ cpuinfoValues key lines) :
    0 ∉ val ∧ val.length < key.size := by
  obtain ⟨line, hline, hvalue⟩ := List.mem_filterMap.mp hval
  have hplain := hlines line hline
  cases line with
  | value key' val' =>
    rw [CpuinfoLine.valueOf] at hvalue
    split at hvalue
    · next hkey =>
      subst hkey
      obtain rfl := Option.some.inj hvalue
      exact ⟨hplain.2.1, hplain.1⟩
    · cases hvalue
  | other content => cases hvalue

/-! ## The struct of a `/proc/cpuinfo` -/

/-- The strings of a struct. -/
structure SysCpu.Holds (cpu : SysCpu) (vendor model frequency : List UInt8) : Prop where
  vendor_eq : fieldString cpu.vendor = some vendor
  model_eq : fieldString cpu.model = some model
  frequency_eq : fieldString cpu.frequency = some frequency

/-- Read into a zeroed struct, a `/proc/cpuinfo` leaves for each key its values one over the other,
no time and no core. -/
theorem cpuRead_lines (hfile : h.file .procCpuinfo = some (cpuinfoText lines))
    (hlines : ∀ line ∈ lines, line.Plain) :
    ∃ cpu, cpuRead .x86 h SysCpu.zero = .ok (errOk, cpu) ∧
      cpu.Holds (overwrite (cpuinfoValues .vendorId lines))
        (overwrite (cpuinfoValues .modelName lines)) (overwrite (cpuinfoValues .cpuMHz lines)) ∧
      cpu.totalTime = 0 ∧ cpu.idleTime = 0 ∧ cpu.cores = 0 := by
  have hfits : ∀ {key : CpuinfoKey}, ∀ val ∈ cpuinfoValues key lines, val.length < key.size :=
    fun val hval => (fits_of_mem_cpuinfoValues hlines hval).2
  have hvalues : ValuesFit (cpuinfoText lines) := by
    refine ⟨fun val hval => ?_, fun val hval => ?_, fun val hval => ?_⟩
    · exact (hfits val (keyValues_cpuinfoText hlines .vendorId ▸ hval)).le
    · exact (hfits val (keyValues_cpuinfoText hlines .modelName ▸ hval)).le
    · exact (hfits val (keyValues_cpuinfoText hlines .cpuMHz ▸ hval)).le
  have hread : cpuReadAmd64 h SysCpu.zero = .ok _ :=
    (cpuReadAmd64_of_file hfile).mpr ⟨hvalues, rfl⟩
  have hrun : ∀ cpu, cpuReadAmd64 h SysCpu.zero = .ok (errOk, cpu) →
      cpuRead .x86 h SysCpu.zero = .ok (errOk, cpu) := by
    intro cpu hcpu
    rw [cpuRead, hcpu]
    rfl
  have hcores : coresOf SysCpu.zero.cores (cpuinfoText lines) = 0 := by
    rw [coresOf_eq]
    exact ite_self 0
  -- each field starts zeroed, and no value fills it up
  have hstring : ∀ {n : ℕ} (key : CpuinfoKey), n = key.size →
      fieldString ((keyValues [32] key.name (cpuinfoText lines)).foldl overlay
        (Vector.replicate n 0)) = some (overwrite (cpuinfoValues key lines)) := by
    rintro n key rfl
    rw [keyValues_cpuinfoText hlines]
    refine fieldString_foldl_overlay (fun val hval => ?_) hfits (by cases key <;> decide)
    exact (fits_of_mem_cpuinfoValues hlines hval).1
  exact ⟨_, hrun _ hread,
    ⟨hstring .vendorId rfl, hstring .modelName rfl, hstring .cpuMHz rfl⟩, rfl, rfl, hcores⟩

/-- The string of a struct is what the values of its key leave that are written one over the other:
that of the last processor, if all are of one length, and the end of a longer one behind it
otherwise. Long lines between them do not matter, and no core is counted. -/
theorem cpuRead_cpuinfoText (h : Host) (lines : List CpuinfoLine)
    (hfile : h.file .procCpuinfo = some (cpuinfoText lines)) (hlines : ∀ line ∈ lines, line.Plain) :
    ∃ cpu, cpuRead .x86 h SysCpu.zero = .ok (errOk, cpu) ∧
      cpu.Holds (overwrite (cpuinfoValues .vendorId lines))
        (overwrite (cpuinfoValues .modelName lines)) (overwrite (cpuinfoValues .cpuMHz lines)) ∧
      cpu.totalTime = 0 ∧ cpu.idleTime = 0 ∧ cpu.cores = 0 ∧
      ∀ key len, (∀ val ∈ cpuinfoValues key lines, val.length = len) →
        overwrite (cpuinfoValues key lines) = (cpuinfoValues key lines).getLast?.getD [] := by
  obtain ⟨cpu, hread, hholds, htotal, hidle, hcores⟩ := cpuRead_lines hfile hlines
  exact ⟨cpu, hread, hholds, htotal, hidle, hcores, fun key len hlen => overwrite_of_length_eq hlen⟩

/-- Two processors, with a line of flags that is longer than the buffer. -/
def twoProcessors : List CpuinfoLine :=
  [.value .vendorId (ascii "GenuineIntel"), .value .modelName (ascii "Xeon"),
    .value .cpuMHz (ascii "2400.000"), .other (ascii "cpu cores\t: 2"),
    .other (ascii "flags\t\t:" ++ List.replicate 600 120), .other [],
    .value .vendorId (ascii "GenuineIntel"), .value .modelName (ascii "Xeon"),
    .value .cpuMHz (ascii "800.000")]

/-- The frequency of the second processor is shorter, and the end of the first one stays. -/
theorem cpuRead_cpuinfoText_twoProcessors :
    ∃ cpu, cpuRead .x86 (hostOf (cpuinfoText twoProcessors)) SysCpu.zero = .ok (errOk, cpu) ∧
      cpu.Holds (ascii "GenuineIntel") (ascii "Xeon") (ascii "800.0000") := by
  obtain ⟨cpu, hread, hholds, -⟩ := cpuRead_cpuinfoText (hostOf (cpuinfoText twoProcessors))
    twoProcessors rfl (by decide +kernel)
  have hvendor : overwrite (cpuinfoValues .vendorId twoProcessors) = ascii "GenuineIntel" := by
    decide +kernel
  have hmodel : overwrite (cpuinfoValues .modelName twoProcessors) = ascii "Xeon" := by
    decide +kernel
  have hfrequency : overwrite (cpuinfoValues .cpuMHz twoProcessors) = ascii "800.0000" := by
    decide +kernel
  rw [hvendor, hmodel, hfrequency] at hholds
  exact ⟨cpu, hread, hholds⟩

/-! ## The ARM files -/

/-- What the files of an ARM machine say: the enabled CPUs, the model, and the frequency of the last
CPU in kHz. -/
structure ArmFiles (h : Host) (l : CpuList) (model : List UInt8) (frequency : ℕ) : Prop where
  enabled : ∃ text, h.file .cpuEnabled = some text ∧ CpuFile l text ∧ text ≠ [] ∧ text.length < 256
  greatest_le : l.greatest ≤ 126
  model_eq : h.file .deviceTreeModel = some (model ++ [0])
  zero_notMem : 0 ∉ model
  length_lt : model.length < 64
  frequency_eq : h.file (.scalingCurFreq l.greatest) =
    some (Scanf.digits frequency ++ [Stream.newline])
  frequency_lt : frequency < 10 ^ 15

variable {l : CpuList} {model : List UInt8} {frequency : ℕ}

/-- The model ends at its terminator. -/
theorem ArmFiles.readModel (hfiles : ArmFiles h l model frequency) :
    cpuReadCpuModelNameArm64 h out =
      .ok (errOk, { out with model := overlay out.model (model ++ [0]) }) := by
  have hlen : (model ++ [0]).length ≤ buffDefault := by
    have hlt := hfiles.length_lt
    rw [List.length_append, List.length_singleton]
    show _ ≤ 256
    omega
  have hcstr : cstr (model ++ [0]) = model := cstr_append_zero hfiles.zero_notMem []
  simp only [cpuReadCpuModelNameArm64, hfiles.model_eq]
  rw [List.take_of_length_le hlen, if_neg (by simp), hcstr,
    copyString_of_lt out.model hfiles.length_lt]
  rfl

/-- The frequency is that of the last CPU, and no digit of it is cut. -/
theorem ArmFiles.readFrequency (hfiles : ArmFiles h l model frequency) :
    cpuReadEnabledCoreCpuFrequency h out l.greatest =
      .ok (errOk, { out with
        frequency := overlay out.frequency (Scanf.digits frequency ++ [0]) }) := by
  have hlt := hfiles.frequency_lt
  have hle := hfiles.greatest_le
  have hscan : Scanf.scanLu (Scanf.digits frequency ++ [Stream.newline]) =
      some (UInt64.ofNat frequency, [Stream.newline]) := by
    refine Scanf.scanLu_digits (n := frequency) (fun c hc => absurd hc List.not_mem_nil)
      (fun c hc => ?_) (by omega)
    obtain rfl := Option.some.inj hc
    decide
  -- the field has room for 15 digits and the terminator
  have hdigits : (Scanf.decimal (UInt64.ofNat frequency).toNat).take 15 =
      Scanf.digits frequency := by
    rw [UInt64.toNat_ofNat', Nat.mod_eq_of_lt (by omega), Scanf.decimal_natCast]
    exact List.take_of_length_le (Scanf.length_digits_le (by decide) hlt)
  have hfit : (Scanf.digits frequency).length < 16 :=
    Nat.lt_succ_of_le (Scanf.length_digits_le (by decide) hlt)
  rw [cpuReadEnabledCoreCpuFrequency, freqPath_eq (by omega) le_rfl (by omega) (by omega),
    if_pos (by omega), Except.ok_bind]
  simp only [hfiles.frequency_eq, hscan, hdigits, copyString_of_lt out.frequency hfit]
  rfl

/-- Read into a zeroed struct, the files of an ARM machine leave the model, the frequency and the
greatest enabled CPU, and no vendor and no time. -/
theorem ArmFiles.cpuRead (hfiles : ArmFiles h l model frequency) :
    ∃ cpu, cpuRead .arm h SysCpu.zero = .ok (errOk, cpu) ∧
      cpu.Holds [] model (Scanf.digits frequency) ∧ cpu.totalTime = 0 ∧ cpu.idleTime = 0 ∧
      cpu.cores = UInt32.ofNat l.greatest := by
  obtain ⟨text, hfile, htext, hne, hlen⟩ := hfiles.enabled
  have hlast : lastCore h = l.greatest := lastCore_eq hfile htext hlen
  -- the greatest CPU is far below the limit of an `int`
  have hreadable : CoresReadable h (2 ^ 31 - 1) := by
    refine (coresReadable_iff hfile htext hlen).mpr ⟨hne, fun i hi => ?_⟩
    have hle := CpuList.greatest_le.mp hfiles.greatest_le i hi
    omega
  have hreturns : ∃ r, cpuGetCoresEnabledArm h SysCpu.zero = .ok r :=
    cpuGetCoresEnabledArm_returns.1.mpr hreadable
  obtain ⟨⟨code, out⟩, hcores⟩ := hreturns
  obtain ⟨rfl, rfl, -⟩ := cpuGetCoresEnabledArm_returns.2 _ hcores
  have hcount : (UInt32.ofNat (lastCore h)).toNat = l.greatest := by
    have hle := hfiles.greatest_le
    rw [hlast, UInt32.toNat_ofNat', Nat.mod_eq_of_lt (by omega)]
  have hrun : ∀ cpu, cpuReadArm64 h SysCpu.zero = .ok (errOk, cpu) →
      AgentResources.cpuRead .arm h SysCpu.zero = .ok (errOk, cpu) := by
    intro cpu hcpu
    rw [AgentResources.cpuRead, hcpu]
    rfl
  have hread : cpuReadArm64 h SysCpu.zero = .ok (errOk, { SysCpu.zero with
      cores := UInt32.ofNat (lastCore h)
      model := overlay SysCpu.zero.model (model ++ [0])
      frequency := overlay SysCpu.zero.frequency (Scanf.digits frequency ++ [0]) }) := by
    simp only [cpuReadArm64, hcores, Except.ok_bind, hfiles.readModel, hcount,
      hfiles.readFrequency]
    rfl
  have hnil : fieldString SysCpu.zero.vendor = some [] := by decide
  refine ⟨_, hrun _ hread, ⟨hnil, ?_, ?_⟩, rfl, rfl, congrArg UInt32.ofNat hlast⟩
  · exact fieldString_overlay_concat_zero hfiles.zero_notMem hfiles.length_lt
  · refine fieldString_overlay_concat_zero (Scanf.notMem_digits (by decide)) ?_
    exact Nat.lt_succ_of_le (Scanf.length_digits_le (by decide) hfiles.frequency_lt)

end AgentResources
