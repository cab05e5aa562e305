import AgentResources.Libres.FieldBounds

/-!
# When the CPU can be read

The exact condition on the files under which `cpu_read` returns on a zeroed struct, for either
architecture, and under which the strings it leaves are terminated.

On ARM the number of cores is the largest number in a line. The line is a list of runs of digits
(`numbers`); the loop that looks for the path of the last core counts in eight bits, so it ends only
for numbers up to 126 (`freqPath_eq`, `freqPath_hang`).

## Main results

* `cpuRead_returns`: `cpu_read` returns iff `CpuReadable`; its strings are terminated iff
  `CpuStrings`, and it never sets the two times.
-/

namespace AgentResources

variable {h : Host} {out : SysCpu}

/-- The struct as the arena hands it out. -/
def SysCpu.zero : SysCpu :=
  ⟨0, 0, 0, 0, Vector.replicate 16 0, Vector.replicate 64 0, Vector.replicate 16 0⟩

/-! ## The numbers of a line -/

/-- The numbers in a string: its maximal runs of digits. -/
def numbers (buf : List UInt8) : List ℕ :=
  ((buf.splitOnP fun c => !isDigit c).filter (· ≠ [])).map Scanf.ofDigits

theorem numbers_cons_of_not {c : UInt8} {p : List UInt8} (hc : ¬ isDigit c) :
    numbers (c :: p) = numbers p := by
  have hsep : (!isDigit c) = true := by simpa using hc
  rw [numbers, List.splitOnP_cons_eq_if_modifyHead, if_pos hsep]
  simp [numbers]

/-- A run of digits that ends is a number of its own. -/
theorem numbers_run_append {run rest : List UInt8} (hrun : ∀ c ∈ run, isDigit c) (hne : run ≠ [])
    (hrest : ∀ c ∈ rest.head?, ¬ isDigit c) :
    numbers (run ++ rest) = Scanf.ofDigits run :: numbers rest := by
  have hdigits : ∀ c ∈ run, (!isDigit c) = false := by simpa using hrun
  cases rest with
  | nil =>
    rw [List.append_nil, numbers, List.splitOnP_eq_singleton hdigits]
    simp [numbers, hne]
  | cons c rest =>
    have hc : ¬ isDigit c := hrest c rfl
    rw [numbers_cons_of_not hc, numbers,
      List.splitOnP_append_cons_of_forall_mem hdigits c (by simpa using hc)]
    simp [numbers, hne]

/-- A run of digits is read on, behind those that were read, unless the number exceeds an `int`. -/
theorem readInt_eq {run rest : List UInt8} (hrun : ∀ c ∈ run, isDigit c)
    (hrest : ∀ c ∈ rest.head?, ¬ isDigit c) {done : List UInt8}
    (hdone : Scanf.ofDigits done < 2 ^ 31) :
    readInt (Scanf.ofDigits done) (run ++ rest) =
      if Scanf.ofDigits (done ++ run) < 2 ^ 31 then .ok (Scanf.ofDigits (done ++ run), rest)
      else .error (.undefined .signedOverflow) := by
  induction run generalizing done with
  | nil =>
    rw [List.nil_append, List.append_nil, if_pos hdone]
    cases rest with
    | nil => rfl
    | cons c rest => rw [readInt, if_neg (hrest c rfl)]
  | cons c run ih =>
    obtain ⟨hc, hrun⟩ := List.forall_mem_cons.mp hrun
    rw [List.cons_append, readInt, if_pos hc, ← Scanf.ofDigits_concat, List.append_cons done c run]
    by_cases hbig : 2 ^ 31 ≤ Scanf.ofDigits (done ++ [c])
    · -- once the number is too large it stays so
      have hle := hbig.trans (Scanf.ofDigits_le_append (done ++ [c]) run)
      rw [if_pos hbig, if_neg (Nat.not_lt.mpr hle)]
    · rw [if_neg hbig, ih hrun (Nat.not_le.mp hbig)]

/-- The loop finds the largest number of the string if all of them are in an `int`. The induction is
on the rounds left, each of which consumes a byte that is no digit or a whole run. -/
theorem maxNumber_eq {fuel m : ℕ} {buf : List UInt8} (hfuel : buf.length ≤ fuel) :
    maxNumber fuel m buf =
      if ∀ n ∈ numbers buf, n < 2 ^ 31 then .ok ((numbers buf).foldl max m)
      else .error (.undefined .signedOverflow) := by
  induction fuel generalizing m buf with
  | zero =>
    obtain rfl : buf = [] := List.length_eq_zero_iff.mp (Nat.le_zero.mp hfuel)
    rfl
  | succ fuel ih =>
    cases buf with
    | nil => rfl
    | cons c p =>
      rw [maxNumber]
      by_cases hc : isDigit c
      · -- a round at a digit reads the whole run
        rw [if_pos hc]
        set run := (c :: p).takeWhile isDigit with hrun
        set rest := (c :: p).dropWhile isDigit with hrest
        have happend : run ++ rest = c :: p := List.takeWhile_append_dropWhile
        have hdigits : ∀ d ∈ run, isDigit d := fun d hd => List.mem_takeWhile_imp hd
        have hhead : ∀ d ∈ rest.head?, ¬ isDigit d := by
          intro d hd
          have hnot := List.head?_dropWhile_not isDigit (c :: p)
          rw [← hrest, Option.mem_def.mp hd] at hnot
          simpa using hnot
        have hne : run ≠ [] := by simp [hrun, hc]
        have hlen : rest.length ≤ fuel := by
          have hpos := List.length_pos_of_ne_nil hne
          have hsum := congrArg List.length happend
          rw [List.length_append] at hsum
          omega
        have hread := readInt_eq hdigits hhead (by decide : Scanf.ofDigits [] < 2 ^ 31)
        rw [List.nil_append] at hread
        rw [← happend, show 0 = Scanf.ofDigits [] from rfl, hread,
          numbers_run_append hdigits hne hhead]
        simp only [List.forall_mem_cons, List.foldl_cons]
        by_cases hlt : Scanf.ofDigits run < 2 ^ 31
        · rw [if_pos hlt, Except.ok_bind, ih hlen]
          have hmax : (if Scanf.ofDigits run > m then Scanf.ofDigits run else m) =
              max m (Scanf.ofDigits run) := by
            split <;> omega
          simp only [hlt, true_and, hmax]
        · rw [if_neg hlt, Except.error_bind, if_neg fun hall => hlt hall.1]
      · -- any other byte is skipped
        rw [if_neg hc, ih (Nat.le_of_succ_le_succ hfuel), numbers_cons_of_not hc]

/-! ## The path of the last core -/

/-- The loop ends with the path of the last core when its counter can pass that number. -/
theorem freqPath_eq {count i : ℤ} {fuel : ℕ} {path : Option Path} (hcount : count ≤ 126)
    (hi : 0 ≤ i) (hle : i ≤ count + 1) (hfuel : count - i + 2 ≤ fuel) :
    freqPath count fuel i path =
      .ok (if i ≤ count then some (.scalingCurFreq count) else path) := by
  induction fuel generalizing i path with
  | zero => omega
  | succ fuel ih =>
    rw [freqPath]
    by_cases hlast : i ≤ count
    · -- below 127 the counter goes up by one
      have hnext : Int.bmod (i + 1) 256 = i + 1 := by
        rw [Int.bmod_eq_of_le] <;> omega
      rw [if_pos hlast, if_pos hlast, hnext, ih (by omega) (by omega) (by omega)]
      split
      · rfl
      · obtain rfl : i = count := by omega
        rfl
    · rw [if_neg hlast, if_neg hlast]

/-- For a larger number it never ends: the counter starts again at -128. -/
theorem freqPath_hang {count i : ℤ} (hcount : 127 ≤ count) (hi : i ≤ 127) (fuel : ℕ)
    (path : Option Path) : freqPath count fuel i path = .error .hang := by
  induction fuel generalizing i path with
  | zero => rfl
  | succ fuel ih =>
    -- wherever the counter goes, it stays below the number
    have hnext : Int.bmod (i + 1) 256 ≤ 127 := by
      have hlt : Int.bmod (i + 1) 256 < 128 := Int.bmod_lt (by decide)
      omega
    rw [freqPath, if_pos (hi.trans hcount), ih hnext]

/-! ## `cpu_read_arm64` -/

/-- The numbers in the line of enabled cores, as the buffer cuts it. -/
def coreNumbers (text : List UInt8) : List ℕ :=
  numbers (cstr (Stream.takeLine (buffDefault - 1) text).1)

theorem maxNumber_coreNumbers (text : List UInt8) :
    let buf := cstr (Stream.takeLine (buffDefault - 1) text).1
    maxNumber buf.length 0 buf =
      if ∀ n ∈ coreNumbers text, n < 2 ^ 31 then .ok ((coreNumbers text).foldl max 0)
      else .error (.undefined .signedOverflow) := maxNumber_eq le_rfl

/-- The largest of them. -/
def lastCore (h : Host) : ℕ :=
  match h.file .cpuEnabled with
  | none => 0
  | some text => (coreNumbers text).foldl max 0

/-- The line of enabled cores is there, and none of its numbers is above `bound`. -/
def CoresReadable (h : Host) (bound : ℕ) : Prop :=
  ∃ text, h.file .cpuEnabled = some text ∧ text ≠ [] ∧ ∀ n ∈ coreNumbers text, n ≤ bound

/-- The model is there and fits its field. -/
def ModelReadable (h : Host) : Prop :=
  ∃ text, h.file .deviceTreeModel = some text ∧ text ≠ [] ∧
    (cstr (text.take buffDefault)).length < 64

/-- The frequency of a core is there. -/
def FrequencyReadable (h : Host) (core : ℕ) : Prop :=
  ∃ text, h.file (.scalingCurFreq core) = some text ∧ (Scanf.scanLu text).isSome

theorem foldl_max_le_iff {l : List ℕ} {m bound : ℕ} :
    l.foldl max m ≤ bound ↔ m ≤ bound ∧ ∀ n ∈ l, n ≤ bound := by
  induction l generalizing m with
  | nil => simp
  | cons n l ih => rw [List.foldl_cons, ih, max_le_iff, List.forall_mem_cons, and_assoc]

/-- The enabled list is read if no number of it exceeds an `int`. -/
theorem cpuGetCoresEnabledArm_returns :
    Except.Returns (cpuGetCoresEnabledArm h out) (CoresReadable h (2 ^ 31 - 1)) fun r =>
      r.1 = errOk ∧ r.2 = { out with cores := UInt32.ofNat (lastCore h) } ∧
        lastCore h < 2 ^ 31 := by
  unfold cpuGetCoresEnabledArm CoresReadable
  cases hfile : h.file .cpuEnabled with
  | none => exact Except.Returns.error _ (by simp)
  | some text =>
    by_cases hempty : text = []
    · simp only [Stream.fgets, if_pos hempty]
      exact Except.Returns.error _ (by simp [hempty])
    · simp only [Stream.fgets, if_neg hempty, maxNumber_coreNumbers]
      have hlast : lastCore h = (coreNumbers text).foldl max 0 := by simp only [lastCore, hfile]
      by_cases hsmall : ∀ n ∈ coreNumbers text, n < 2 ^ 31
      · have hle : ∀ n ∈ coreNumbers text, n ≤ 2 ^ 31 - 1 :=
          fun n hn => Nat.le_sub_one_of_lt (hsmall n hn)
        have hmax := foldl_max_le_iff.mpr ⟨Nat.zero_le (2 ^ 31 - 1), hle⟩
        rw [if_pos hsmall, Except.ok_bind, ← hlast]
        refine Except.Returns.ok_of ⟨text, rfl, hempty, hle⟩ ⟨rfl, rfl, ?_⟩
        rw [hlast]
        exact Nat.lt_of_le_sub_one (by decide) hmax
      · rw [if_neg hsmall, Except.error_bind]
        refine Except.Returns.error _ ?_
        rintro ⟨text', htext', -, hle⟩
        obtain rfl := Option.some.inj htext'
        exact hsmall fun n hn => Nat.lt_of_le_sub_one (by decide) (hle n hn)

/-- The model is read if it fits, and is a string. -/
theorem cpuReadCpuModelNameArm64_returns :
    Except.Returns (cpuReadCpuModelNameArm64 h out) (ModelReadable h) fun r =>
      ∃ model, NulTerminated model ∧ r = (errOk, { out with model }) := by
  unfold cpuReadCpuModelNameArm64 ModelReadable
  cases hfile : h.file .deviceTreeModel with
  | none => exact Except.Returns.error _ (by simp)
  | some text =>
    -- an empty read fails an assertion, and a long one runs past the field
    simp only [Option.some.injEq, exists_eq_left']
    by_cases hempty : text = []
    · subst hempty
      exact Except.Returns.error _ (by simp)
    · have htake : text.take buffDefault ≠ [] := by simp [hempty, buffDefault]
      rw [if_neg htake]
      by_cases hlt : (cstr (text.take buffDefault)).length < 64
      · rw [copyString_of_lt out.model hlt, Except.ok_bind]
        exact Except.Returns.ok_of ⟨hempty, hlt⟩ ⟨_, nulTerminated_overlay_append_zero hlt, rfl⟩
      · cases hcopy : copyString out.model (cstr (text.take buffDefault)) with
        | error e =>
          exact Except.Returns.error _ fun hr => hlt hr.2
        | ok model => exact absurd (copyString_eq_ok.mp hcopy).1 hlt

/-- The frequency of a core is read if the counter gets to the core and the value fits. -/
theorem cpuReadEnabledCoreCpuFrequency_returns {core : ℕ} (hcore : core < 2 ^ 31) :
    Except.Returns (cpuReadEnabledCoreCpuFrequency h out core)
      (core ≤ 126 ∧ FrequencyReadable h core) fun r =>
        ∃ frequency, NulTerminated frequency ∧ r = (errOk, { out with frequency }) := by
  unfold cpuReadEnabledCoreCpuFrequency FrequencyReadable
  by_cases hle : core ≤ 126
  · rw [freqPath_eq (by omega) le_rfl (by omega) (by omega), if_pos (by omega), Except.ok_bind,
      and_iff_right hle]
    dsimp only
    cases hfile : h.file (.scalingCurFreq core) with
    | none => exact Except.Returns.error _ (by simp)
    | some text =>
      dsimp only
      cases hscan : Scanf.scanLu text with
      | none =>
        exact Except.Returns.error _ (by simp [hscan])
      | some v =>
        -- `snprintf` cuts the number, so it always fits
        have hlt : ((Scanf.decimal v.1.toNat).take 15).length < 16 := by
          rw [List.length_take]
          omega
        dsimp only
        rw [copyString_of_lt out.frequency hlt, Except.ok_bind]
        exact Except.Returns.ok_of ⟨text, rfl, by simp [hscan]⟩
          ⟨_, nulTerminated_overlay_append_zero hlt, rfl⟩
  · rw [freqPath_hang (by omega) (by omega), Except.error_bind]
    exact Except.Returns.error _ fun hr => hle hr.1

/-- The three files are readable, and the counter of the loop can pass the last core. -/
def ArmReadable (h : Host) : Prop :=
  CoresReadable h 126 ∧ ModelReadable h ∧ FrequencyReadable h (lastCore h)

/-- The three readers of the ARM files one after the other. -/
theorem cpuReadArm64_returns :
    Except.Returns (cpuReadArm64 h out) (ArmReadable h) fun r =>
      ∃ cores model frequency, NulTerminated model ∧ NulTerminated frequency ∧
        r = (errOk, { out with cores, model, frequency }) := by
  unfold cpuReadArm64
  refine (Except.Returns.bind (q := ModelReadable h ∧ lastCore h ≤ 126 ∧
    FrequencyReadable h (lastCore h)) cpuGetCoresEnabledArm_returns fun r₁ h₁ => ?_).imp ?_
      fun _ hr => hr
  · obtain ⟨-, hcores, hlt⟩ := h₁
    refine cpuReadCpuModelNameArm64_returns.bind fun r₂ h₂ => ?_
    obtain ⟨model, hmodel, rfl⟩ := h₂
    have hcore : (UInt32.ofNat (lastCore h)).toNat = lastCore h := by
      rw [UInt32.toNat_ofNat', Nat.mod_eq_of_lt (by omega)]
    simp only [hcores, hcore]
    refine ((cpuReadEnabledCoreCpuFrequency_returns hlt).bind fun r₃ h₃ => ?_).imp
      (and_iff_left trivial) fun _ hr => hr
    obtain ⟨frequency, hfrequency, rfl⟩ := h₃
    exact Except.Returns.ok ⟨_, model, frequency, hmodel, hfrequency, rfl⟩
  · -- a number that passes the loop's bound is an `int`
    have hcores : CoresReadable h (2 ^ 31 - 1) ∧ lastCore h ≤ 126 ↔ CoresReadable h 126 := by
      unfold CoresReadable lastCore
      cases h.file .cpuEnabled with
      | none => simp
      | some text =>
        simp only [Option.some.injEq, exists_eq_left', foldl_max_le_iff, Nat.zero_le, true_and]
        refine ⟨fun hr => ⟨hr.1.1, hr.2⟩, fun hr => ⟨⟨hr.1, fun n hn => ?_⟩, hr.2⟩⟩
        exact (hr.2 n hn).trans (by decide)
    rw [ArmReadable, ← hcores]
    tauto

/-! ## `cpu_read` -/

/-- The file is there, and every value of the three keys fits its field. -/
def Amd64Readable (h : Host) : Prop :=
  ∃ text, h.file .procCpuinfo = some text ∧
    ∀ chunk ∈ Stream.chunks buffLarge text, Amd64Fits chunk

/-- The files of the processors can be read. -/
def CpuReadable : Arch → Host → Prop
  | .arm => ArmReadable
  | .x86 => Amd64Readable

/-- Every value of the three keys is shorter than its field. The ARM readers write terminators. -/
def CpuStrings : Arch → Host → Prop
  | .arm, _ => True
  | .x86, h => ∀ text, h.file .procCpuinfo = some text →
    (∀ value ∈ keyValues [32] "vendor_id" text, value.length < 16) ∧
    (∀ value ∈ keyValues [32] "model name" text, value.length < 64) ∧
    (∀ value ∈ keyValues [32] "cpu MHz" text, value.length < 16)

/-- The three fields of the struct that are strings hold strings. -/
def SysCpu.Terminated (cpu : SysCpu) : Prop :=
  NulTerminated cpu.vendor ∧ NulTerminated cpu.model ∧ NulTerminated cpu.frequency

/-- When `cpu_read` returns on a zeroed struct, and what it then leaves there. -/
theorem cpuRead_returns (arch : Arch) :
    Except.Returns (cpuRead arch h SysCpu.zero) (CpuReadable arch h) fun r =>
      r.1 = errOk ∧ r.2.totalTime = 0 ∧ r.2.idleTime = 0 ∧
        (r.2.Terminated ↔ CpuStrings arch h) := by
  unfold cpuRead
  cases arch with
  | arm =>
    -- the vendor is left zeroed
    refine (cpuReadArm64_returns.bind fun r hr => ?_).imp (and_iff_left trivial) fun _ hr => hr
    obtain ⟨cores, model, frequency, hmodel, hfrequency, rfl⟩ := hr
    have hvendor : NulTerminated SysCpu.zero.vendor := ⟨0, by decide, by decide⟩
    exact Except.Returns.ok ⟨rfl, rfl, rfl,
      iff_of_true ⟨hvendor, hmodel, hfrequency⟩ trivial⟩
  | x86 =>
    cases hrun : cpuReadAmd64 h SysCpu.zero with
    | error e =>
      refine Except.Returns.error _ ?_
      rintro ⟨text, hfile, hfits⟩
      have hok : cpuReadAmd64 h SysCpu.zero = .ok _ :=
        cpuReadAmd64_eq_ok.mpr ⟨text, hfile, rfl, hfits, rfl⟩
      rw [hrun] at hok
      cases hok
    | ok r =>
      obtain ⟨code, cpu⟩ := r
      obtain ⟨text, hfile, rfl, hfits, rfl⟩ := cpuReadAmd64_eq_ok.mp hrun
      obtain ⟨hvendor, hmodel, hfrequency, htotal, hidle⟩ :=
        foldl_amd64Next SysCpu.zero (Stream.chunks buffLarge text)
      simp only [Except.ok_bind, ne_eq, not_true_eq_false, if_false]
      refine Except.Returns.ok_of ⟨text, hfile, hfits⟩ ⟨rfl, htotal, hidle, ?_⟩
      simp only [SysCpu.Terminated, CpuStrings, hfile, Option.some.injEq, forall_eq']
      rw [hvendor, hmodel, hfrequency]
      refine and_congr ?_ (and_congr ?_ ?_)
      · exact nulTerminated_keyValues.trans (keepsString_replicate (by decide))
      · exact nulTerminated_keyValues.trans (keepsString_replicate (by decide))
      · exact nulTerminated_keyValues.trans (keepsString_replicate (by decide))

end AgentResources
