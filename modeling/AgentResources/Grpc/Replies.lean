import AgentResources.Grpc.HandlerOutcome
import AgentResources.Libres.MemInfo

/-!
# What the replies say

An OK reply carries what the collectors made of the files: the processor message is the one of the
struct read from the processor files (`cpuOf`), the memory message the one of `/proc/meminfo`
(`ramOf`), in either handler that carries them.

## Main results

* `replies_agree`: the full snapshot and the single calls agree;
* `cpuTimes_iff`: the two times of a reply are those of `/proc/stat` only when they are all zero;
* `memoryBytes_iff`: the two sizes of a reply are in bytes only when they are zero.
-/

namespace AgentResources

variable {arch : Arch} {h : Host} {ctx : ServerContext} {s : Proc} {maps : List Mapping}
  {o : Outcome} {r : Response × Proc}

/-! ## OK outcomes -/

/-- An OK outcome of `get_system_resources_impl` carries both messages. -/
theorem systemOutcome_ok (ho : systemOutcome arch h ctx maps = some o)
    (hok : o.1.status.code = .ok) : ∃ mapped cpu msg memory,
      mapArena h.toKernel (MiB 8) maps = some mapped ∧ cpuOf arch h = some cpu ∧
      cpuMessageOf cpu = some msg ∧ memoryOf h mapped = some memory ∧
      o.1.reply = ⟨some msg, some (setMemory memory)⟩ := by
  -- every early return has another status
  unfold systemOutcome at ho
  split at ho
  · cases ho
    cases hok
  split at ho
  · cases ho
    cases hok
  obtain ⟨mapped, hmapped, ho⟩ := Option.bind_eq_some_iff.mp ho
  obtain ⟨cpu, hcpu, ho⟩ := Option.bind_eq_some_iff.mp ho
  split at ho
  · cases ho
    cases hok
  obtain ⟨memory, hmemory, ho⟩ := Option.bind_eq_some_iff.mp ho
  split at ho
  · cases ho
    cases hok
  obtain ⟨diskCode, -, ho⟩ := Option.bind_eq_some_iff.mp ho
  split at ho
  · cases ho
    cases hok
  obtain ⟨deviceCode, -, ho⟩ := Option.bind_eq_some_iff.mp ho
  dsimp only at ho
  split at ho
  · cases ho
    cases hok
  obtain ⟨msg, hmsg, ho⟩ := Option.bind_eq_some_iff.mp ho
  cases ho
  exact ⟨mapped, cpu, msg, memory, hmapped, hcpu, hmsg, hmemory, rfl⟩

/-- An OK outcome of `get_cpu_impl` carries the message about the processors. -/
theorem cpuOutcome_ok (ho : cpuOutcome arch h ctx maps = some o)
    (hok : o.1.status.code = .ok) : ∃ cpu msg, cpuOf arch h = some cpu ∧
      cpuMessageOf cpu = some msg ∧ o.1.reply = ⟨some msg, none⟩ := by
  unfold cpuOutcome at ho
  split at ho
  · cases ho
    cases hok
  split at ho
  · cases ho
    cases hok
  obtain ⟨mapped, -, ho⟩ := Option.bind_eq_some_iff.mp ho
  obtain ⟨cpu, hcpu, ho⟩ := Option.bind_eq_some_iff.mp ho
  obtain ⟨msg, hmsg, ho⟩ := Option.bind_eq_some_iff.mp ho
  cases ho
  exact ⟨cpu, msg, hcpu, hmsg, rfl⟩

/-- An OK outcome of `get_ram_impl` carries the message about the memory. -/
theorem ramOutcome_ok (ho : ramOutcome h ctx maps = some o)
    (hok : o.1.status.code = .ok) : ∃ mapped memory, memoryOf h mapped = some memory ∧
      o.1.reply = ⟨none, some (setMemory memory)⟩ := by
  unfold ramOutcome at ho
  split at ho
  · cases ho
    cases hok
  split at ho
  · cases ho
    cases hok
  obtain ⟨mapped, -, ho⟩ := Option.bind_eq_some_iff.mp ho
  obtain ⟨memory, hmemory, ho⟩ := Option.bind_eq_some_iff.mp ho
  cases ho
  exact ⟨mapped, memory, hmemory, rfl⟩

/-- The processor message of the files, if they make one. -/
def CpuReplyOf (arch : Arch) (h : Host) (reply : Reply) : Prop :=
  ∃ cpu msg, cpuOf arch h = some cpu ∧ cpuMessageOf cpu = some msg ∧ reply.cpu = some msg

/-- The memory message of the files, if they make one. -/
def MemoryReplyOf (h : Host) (reply : Reply) : Prop :=
  ∃ text, h.file .procMeminfo = some text ∧ reply.memory = some (setMemory (ramOf text))

theorem getSystemResourcesImpl_ok (hs : s.WellMapped)
    (hr : getSystemResourcesImpl arch h ctx s = .ok r) (hok : r.1.status.code = .ok) :
    CpuReplyOf arch h r.1.reply ∧ MemoryReplyOf h r.1.reply := by
  obtain ⟨o, ho, hresp, -⟩ := (getSystemResourcesImpl_refines hs).exists_of_eq_ok hr
  rw [hresp] at hok
  obtain ⟨mapped, cpu, msg, memory, -, hcpu, hmsg, hmemory, hreply⟩ := systemOutcome_ok ho hok
  obtain ⟨text, hfile, rfl⟩ := memoryOf_eq_some hmemory
  rw [hresp, hreply]
  exact ⟨⟨cpu, msg, hcpu, hmsg, rfl⟩, text, hfile, rfl⟩

theorem getCpuImpl_ok (hs : s.WellMapped) (hr : getCpuImpl arch h ctx s = .ok r)
    (hok : r.1.status.code = .ok) : CpuReplyOf arch h r.1.reply := by
  obtain ⟨o, ho, hresp, -⟩ := (getCpuImpl_refines hs).exists_of_eq_ok hr
  rw [hresp] at hok
  obtain ⟨cpu, msg, hcpu, hmsg, hreply⟩ := cpuOutcome_ok ho hok
  rw [hresp, hreply]
  exact ⟨cpu, msg, hcpu, hmsg, rfl⟩

theorem getRamImpl_ok (hs : s.WellMapped) (hr : getRamImpl h ctx s = .ok r)
    (hok : r.1.status.code = .ok) : MemoryReplyOf h r.1.reply := by
  obtain ⟨o, ho, hresp, -⟩ := (getRamImpl_refines hs).exists_of_eq_ok hr
  rw [hresp] at hok
  obtain ⟨mapped, memory, hmemory, hreply⟩ := ramOutcome_ok ho hok
  obtain ⟨text, hfile, rfl⟩ := memoryOf_eq_some hmemory
  rw [hresp, hreply]
  exact ⟨text, hfile, rfl⟩

/-! ## The snapshot and the single calls -/

/-- The processor struct depends on the files only. -/
theorem cpuOf_congr {h' : Host} (hfile : h'.file = h.file) : cpuOf arch h' = cpuOf arch h := by
  cases arch <;>
    simp only [cpuOf, cpuRead, cpuReadArm64, cpuReadAmd64, cpuGetCoresEnabledArm,
      cpuReadCpuModelNameArm64, cpuReadEnabledCoreCpuFrequency, hfile]

/-- On the same files, whatever the clocks, the kernels and the memory: the messages of an OK
snapshot are those of the OK single calls. -/
theorem replies_agree (arch : Arch) (h h₁ h₂ : Host) (ctx ctx₁ ctx₂ : ServerContext)
    (s s₁ s₂ : Proc) (hs : s.WellMapped) (hs₁ : s₁.WellMapped) (hs₂ : s₂.WellMapped)
    (hfile₁ : h₁.file = h.file) (hfile₂ : h₂.file = h.file) (r r₁ r₂ : Response × Proc)
    (hr : getSystemResourcesImpl arch h ctx s = .ok r) (hr₁ : getCpuImpl arch h₁ ctx₁ s₁ = .ok r₁)
    (hr₂ : getRamImpl h₂ ctx₂ s₂ = .ok r₂) (hok : r.1.status.code = .ok)
    (hok₁ : r₁.1.status.code = .ok) (hok₂ : r₂.1.status.code = .ok) :
    (∃ msg, r.1.reply.cpu = some msg ∧ r₁.1.reply.cpu = some msg) ∧
      ∃ msg, r.1.reply.memory = some msg ∧ r₂.1.reply.memory = some msg := by
  obtain ⟨⟨cpu, msg, hcpu, hmsg, hreply⟩, text, htext, hmem⟩ := getSystemResourcesImpl_ok hs hr hok
  obtain ⟨cpu₁, msg₁, hcpu₁, hmsg₁, hreply₁⟩ := getCpuImpl_ok hs₁ hr₁ hok₁
  obtain ⟨text₂, htext₂, hmem₂⟩ := getRamImpl_ok hs₂ hr₂ hok₂
  constructor
  · rw [cpuOf_congr hfile₁, hcpu, Option.some.injEq] at hcpu₁
    subst hcpu₁
    rw [hmsg, Option.some.injEq] at hmsg₁
    subst hmsg₁
    exact ⟨msg, hreply, hreply₁⟩
  · rw [hfile₂, htext, Option.some.injEq] at htext₂
    subst htext₂
    exact ⟨_, hmem, hmem₂⟩

/-- On the sample host the messages agree. -/
theorem replies_agree_sample : ∃ r r₁ r₂,
    getSystemResourcesImpl .x86 sampleHost sampleContext Proc.fresh = .ok r ∧
    getCpuImpl .x86 sampleHost sampleContext Proc.fresh = .ok r₁ ∧
    getRamImpl sampleHost sampleContext Proc.fresh = .ok r₂ ∧
    (∃ msg, r.1.reply.cpu = some msg ∧ r₁.1.reply.cpu = some msg) ∧
      ∃ msg, r.1.reply.memory = some msg ∧ r₂.1.reply.memory = some msg := by
  have hs := wellMapped_fresh
  obtain ⟨r, hr, hok⟩ :=
    exists_ok_of_outcome (getSystemResourcesImpl_refines hs) systemOutcome_sample
  obtain ⟨r₁, hr₁, hok₁⟩ := exists_ok_of_outcome (getCpuImpl_refines hs) cpuOutcome_sample
  obtain ⟨r₂, hr₂, hok₂⟩ := exists_ok_of_outcome (getRamImpl_refines hs) ramOutcome_sample
  exact ⟨r, r₁, r₂, hr, hr₁, hr₂, replies_agree .x86 sampleHost sampleHost sampleHost _ _ _
    _ _ _ hs hs hs rfl rfl r r₁ r₂ hr hr₁ hr₂ hok hok₁ hok₂⟩

/-! ## Times -/

/-- The words of a line. -/
def words (line : List UInt8) : List (List UInt8) := (line.splitOn 32).filter (· ≠ [])

/-- The text has a line that begins with `cpu ` and these eight counters. -/
def HasCounters (text : List UInt8) (counters : Vector ℕ 8) : Prop :=
  ∃ line ∈ text.splitOn 10, ascii "cpu " <+: line ∧
    ascii "cpu" :: counters.toList.map Scanf.digits <+: words line

/-- The message has the sum of the counters, and that of the counters for idle and iowait. -/
def CpuMessage.TimesOf (msg : CpuMessage) (counters : Vector ℕ 8) : Prop :=
  msg.totalTime.toNat = counters.toList.sum ∧ msg.idleTime.toNat = counters[3] + counters[4]

/-- No collector sets the two times. -/
theorem CpuReplyOf.timesOf_iff {reply : Reply} (hreply : CpuReplyOf arch h reply)
    (counters : Vector ℕ 8) :
    ∃ msg, reply.cpu = some msg ∧ (msg.TimesOf counters ↔ counters.toList.sum = 0) := by
  obtain ⟨cpu, msg, hcpu, hmsg, hreply⟩ := hreply
  obtain ⟨htotal, hidle, -⟩ := cpuOf_eq_some hcpu
  obtain ⟨hmsgTotal, hmsgIdle⟩ := cpuMessageOf_eq_some hmsg
  refine ⟨msg, hreply, ?_⟩
  rw [CpuMessage.TimesOf, hmsgTotal, hmsgIdle, htotal, hidle]
  constructor
  · rintro ⟨hsum, -⟩
    exact hsum.symm
  · intro hsum
    have hzero := List.sum_eq_zero_iff.mp hsum
    have h3 : counters[3] = 0 := hzero _ (by simp)
    have h4 : counters[4] = 0 := hzero _ (by simp)
    rw [hsum, h3, h4]
    exact ⟨rfl, rfl⟩

/-- The times of an OK reply are those of eight counters, such as the ones of `/proc/stat`, iff all
eight are zero: the file is not looked at. -/
theorem cpuTimes_iff (arch : Arch) (h : Host) (ctx : ServerContext) (s : Proc) (hs : s.WellMapped)
    (counters : Vector ℕ 8) :
    (∀ r, getCpuImpl arch h ctx s = .ok r → r.1.status.code = .ok →
      ∃ msg, r.1.reply.cpu = some msg ∧ (msg.TimesOf counters ↔ counters.toList.sum = 0)) ∧
    ∀ r, getSystemResourcesImpl arch h ctx s = .ok r → r.1.status.code = .ok →
      ∃ msg, r.1.reply.cpu = some msg ∧ (msg.TimesOf counters ↔ counters.toList.sum = 0) :=
  ⟨fun _ hr hok => (getCpuImpl_ok hs hr hok).timesOf_iff counters,
    fun _ hr hok => (getSystemResourcesImpl_ok hs hr hok).1.timesOf_iff counters⟩

/-- The counters of the sample host. -/
def sampleCounters : Vector ℕ 8 := #v[100, 0, 50, 800, 20, 0, 5, 0]

theorem hasCounters_sample :
    HasCounters (ascii "cpu  100 0 50 800 20 0 5 0\n") sampleCounters :=
  ⟨ascii "cpu  100 0 50 800 20 0 5 0", by decide +kernel, by decide +kernel, by decide +kernel⟩

theorem cpuTimes_iff_sample : ∃ r, getCpuImpl .x86 sampleHost sampleContext Proc.fresh = .ok r ∧
    ∃ msg, r.1.reply.cpu = some msg ∧
      (msg.TimesOf sampleCounters ↔ sampleCounters.toList.sum = 0) := by
  obtain ⟨r, hr, hok⟩ :=
    exists_ok_of_outcome (getCpuImpl_refines wellMapped_fresh) cpuOutcome_sample
  exact ⟨r, hr, (cpuTimes_iff .x86 sampleHost sampleContext Proc.fresh wellMapped_fresh
    sampleCounters).1 r hr hok⟩

/-- The sample reply has no times, while `/proc/stat` has some. -/
theorem not_cpuTimes : ¬ ∀ (arch : Arch) (h : Host) (ctx : ServerContext) (s : Proc)
    (text : List UInt8) (counters : Vector ℕ 8), s.WellMapped → h.file .procStat = some text →
      HasCounters text counters → counters.toList.sum < 2 ^ 64 → ∀ r,
        getCpuImpl arch h ctx s = .ok r → r.1.status.code = .ok →
          ∃ msg, r.1.reply.cpu = some msg ∧ msg.TimesOf counters := by
  intro hall
  obtain ⟨r, hr, hok⟩ :=
    exists_ok_of_outcome (getCpuImpl_refines wellMapped_fresh) cpuOutcome_sample
  obtain ⟨msg, hmsg, htimes⟩ := hall .x86 sampleHost sampleContext Proc.fresh _ sampleCounters
    wellMapped_fresh rfl hasCounters_sample (by decide) r hr hok
  obtain ⟨msg', hmsg', hiff⟩ := (getCpuImpl_ok wellMapped_fresh hr hok).timesOf_iff sampleCounters
  obtain rfl : msg = msg' := by rwa [hmsg, Option.some.injEq] at hmsg'
  exact absurd (hiff.mp htimes) (by decide)

/-! ## Sizes -/

/-- A line that gives a number of kB for a key. -/
def KbLine (key : String) (n : ℕ) (line : List UInt8) : Prop :=
  ∃ blanks eol, (∀ b ∈ blanks, b = 32) ∧ (eol = [] ∨ eol = [10]) ∧
    line = ascii key ++ 58 :: (blanks ++ Scanf.digits n ++ ascii " kB" ++ eol)

/-- Exactly one line begins with the key and a colon, and it gives `n` kB. -/
def OnlyKbLine (key : String) (n : ℕ) (text : List UInt8) : Prop :=
  ∃ line, (Stream.lines text).filter ((ascii key ++ [58]).isPrefixOf ·) = [line] ∧
    KbLine key n line

/-- Every line fits the reader's buffer, and none begins with the key but without a colon. -/
def PlainLines (key : String) (text : List UInt8) : Prop :=
  ∀ line ∈ Stream.lines text, line.length ≤ buffSmall - 1 ∧
    ((ascii key).isPrefixOf line → (ascii key ++ [58]).isPrefixOf line)

/-- The value of a line in kB is its number and a blank. -/
theorem lineValue_kbLine {key : String} {n : ℕ} {line : List UInt8} (hkey : 58 ∉ ascii key)
    (hzero : 0 ∉ ascii key) (hline : KbLine key n line) :
    lineValue [32] [107, 10] key line = some (Scanf.digits n ++ [32]) := by
  obtain ⟨blanks, eol, hblanks, -, rfl⟩ := hline
  exact lineValue_size hkey hzero hblanks (Scanf.digits_ne_nil n)
    fun c hc => Scanf.isDigit_of_mem_digits hc

/-- On plain lines the number that is read for the key is the one of its only line. -/
theorem lastNumber_eq {key : String} {n : ℕ} {text : List UInt8} (hkey : 58 ∉ ascii key)
    (hzero : 0 ∉ ascii key) (honly : OnlyKbLine key n text) (hplain : PlainLines key text) :
    lastNumber key text = UInt64.ofNat n := by
  obtain ⟨line, hfilter, hline⟩ := honly
  have hchunks : Stream.chunks buffSmall text = Stream.lines text :=
    Stream.chunks_eq_lines (by decide) fun line hline => (hplain line hline).1
  have hvalues : meminfoValues key text = [Scanf.digits n ++ [32]] := by
    calc meminfoValues key text
        = (Stream.lines text).filterMap (lineValue [32] [107, 10] key) := by
          rw [meminfoValues, hchunks]
      _ = ((Stream.lines text).filter ((ascii key ++ [58]).isPrefixOf ·)).filterMap
            (lineValue [32] [107, 10] key) := by
          rw [List.filterMap_filter]
          refine List.filterMap_congr fun line' hline' => ?_
          split
          · rfl
          · next hnot =>
            exact lineValue_of_not_prefix fun hpre => hnot ((hplain line' hline').2 hpre)
      _ = [Scanf.digits n ++ [32]] := by
          rw [hfilter, List.filterMap_cons, lineValue_kbLine hkey hzero hline]
          rfl
  rw [lastNumber, hvalues, List.getLast?_singleton, Option.getD_some]
  exact parseU64_digits (by simp) (by simp [isDigit])

/-- The message has the two sizes in bytes. -/
def MemoryMessage.InBytes (msg : MemoryMessage) (total free : ℕ) : Prop :=
  msg.total.toNat = 1024 * total ∧ msg.free.toNat = 1024 * free

/-- A memory message is in bytes iff the file gives the numbers of bytes, which for a plain file is
to give none. -/
theorem MemoryReplyOf.inBytes_iff {reply : Reply} (hreply : MemoryReplyOf h reply)
    {text : List UInt8} {total free : ℕ} (hfile : h.file .procMeminfo = some text)
    (htotal : OnlyKbLine "MemTotal" total text) (hfree : OnlyKbLine "MemFree" free text)
    (htotalLt : 1024 * total < 2 ^ 64) (hfreeLt : 1024 * free < 2 ^ 64) :
    ∃ msg, reply.memory = some msg ∧
      (msg.InBytes total free ↔ (lastNumber "MemTotal" text).toNat = 1024 * total ∧
        (lastNumber "MemFree" text).toNat = 1024 * free) ∧
      (PlainLines "MemTotal" text → PlainLines "MemFree" text →
        (msg.InBytes total free ↔ total = 0 ∧ free = 0)) := by
  obtain ⟨text', hfile', hmemory⟩ := hreply
  obtain rfl : text = text' := by rwa [hfile, Option.some.injEq] at hfile'
  refine ⟨_, hmemory, Iff.rfl, fun hplainTotal hplainFree => ?_⟩
  rw [MemoryMessage.InBytes, setMemory, ramOf,
    lastNumber_eq (by decide) (by decide) htotal hplainTotal,
    lastNumber_eq (by decide) (by decide) hfree hplainFree]
  rw [UInt64.toNat_ofNat', UInt64.toNat_ofNat', Nat.mod_eq_of_lt (by omega),
    Nat.mod_eq_of_lt (by omega)]
  omega

/-- The sizes of an OK reply are in bytes iff the file gives the numbers of bytes; for a plain file,
iff both are zero. -/
theorem memoryBytes_iff (arch : Arch) (h : Host) (ctx : ServerContext) (s : Proc)
    (hs : s.WellMapped) (text : List UInt8) (total free : ℕ)
    (hfile : h.file .procMeminfo = some text) (htotal : OnlyKbLine "MemTotal" total text)
    (hfree : OnlyKbLine "MemFree" free text) (htotalLt : 1024 * total < 2 ^ 64)
    (hfreeLt : 1024 * free < 2 ^ 64) (r : Response × Proc) (hok : r.1.status.code = .ok)
    (hr : getRamImpl h ctx s = .ok r ∨ getSystemResourcesImpl arch h ctx s = .ok r) :
    ∃ msg, r.1.reply.memory = some msg ∧
      (msg.InBytes total free ↔ (lastNumber "MemTotal" text).toNat = 1024 * total ∧
        (lastNumber "MemFree" text).toNat = 1024 * free) ∧
      (PlainLines "MemTotal" text → PlainLines "MemFree" text →
        (msg.InBytes total free ↔ total = 0 ∧ free = 0)) := by
  have hreply : MemoryReplyOf h r.1.reply := by
    rcases hr with hr | hr
    · exact getRamImpl_ok hs hr hok
    · exact (getSystemResourcesImpl_ok hs hr hok).2
  exact hreply.inBytes_iff hfile htotal hfree htotalLt hfreeLt

theorem onlyKbLine_sample :
    OnlyKbLine "MemTotal" 16384 (ascii "MemTotal:       16384 kB\nMemFree:         8192 kB\n") ∧
    OnlyKbLine "MemFree" 8192 (ascii "MemTotal:       16384 kB\nMemFree:         8192 kB\n") :=
  ⟨⟨ascii "MemTotal:       16384 kB\n", by decide +kernel, List.replicate 7 32, [10],
      fun _ hb => List.eq_of_mem_replicate hb, .inr rfl, by decide +kernel⟩,
    ⟨ascii "MemFree:         8192 kB\n", by decide +kernel, List.replicate 9 32, [10],
      fun _ hb => List.eq_of_mem_replicate hb, .inr rfl, by decide +kernel⟩⟩

theorem plainLines_sample :
    PlainLines "MemTotal" (ascii "MemTotal:       16384 kB\nMemFree:         8192 kB\n") ∧
    PlainLines "MemFree" (ascii "MemTotal:       16384 kB\nMemFree:         8192 kB\n") := by
  unfold PlainLines
  constructor <;> decide +kernel

theorem memoryBytes_iff_sample : ∃ r,
    getRamImpl sampleHost sampleContext Proc.fresh = .ok r ∧
    ∃ msg, r.1.reply.memory = some msg ∧ (msg.InBytes 16384 8192 ↔ 16384 = 0 ∧ 8192 = 0) := by
  obtain ⟨r, hr, hok⟩ :=
    exists_ok_of_outcome (getRamImpl_refines wellMapped_fresh) ramOutcome_sample
  obtain ⟨msg, hmsg, -, hiff⟩ := memoryBytes_iff .x86 sampleHost sampleContext Proc.fresh
    wellMapped_fresh _ 16384 8192 rfl onlyKbLine_sample.1 onlyKbLine_sample.2 (by decide)
    (by decide) r hok (.inl hr)
  exact ⟨r, hr, msg, hmsg, hiff plainLines_sample.1 plainLines_sample.2⟩

/-- The sample reply has the numbers of kB. -/
theorem not_memoryBytes : ¬ ∀ (h : Host) (ctx : ServerContext) (s : Proc) (text : List UInt8)
    (total free : ℕ), s.WellMapped → h.file .procMeminfo = some text →
      OnlyKbLine "MemTotal" total text → OnlyKbLine "MemFree" free text →
      1024 * total < 2 ^ 64 → 1024 * free < 2 ^ 64 → ∀ r, getRamImpl h ctx s = .ok r →
        r.1.status.code = .ok → ∃ msg, r.1.reply.memory = some msg ∧ msg.InBytes total free := by
  intro hall
  obtain ⟨r, hr, hok⟩ :=
    exists_ok_of_outcome (getRamImpl_refines wellMapped_fresh) ramOutcome_sample
  obtain ⟨msg, hmsg, hbytes⟩ := hall sampleHost sampleContext Proc.fresh _ 16384 8192
    wellMapped_fresh rfl onlyKbLine_sample.1 onlyKbLine_sample.2 (by decide) (by decide) r hr hok
  obtain ⟨msg', hmsg', -, hiff⟩ := (getRamImpl_ok wellMapped_fresh hr hok).inBytes_iff rfl
    onlyKbLine_sample.1 onlyKbLine_sample.2 (by decide) (by decide)
  obtain rfl : msg = msg' := by rwa [hmsg, Option.some.injEq] at hmsg'
  exact absurd ((hiff plainLines_sample.1 plainLines_sample.2).mp hbytes).1 (by decide)

end AgentResources
