import AgentResources.Grpc.CallsInFlight
import AgentResources.Grpc.Failures
import AgentResources.Libres.CpuText
import AgentResources.Libres.MemInfo

/-!
# The service

What the agent answers about a machine. A `Machine` is its processors and its memory, as they are
written to the files of `/proc` and `/sys` (`Machine.Shown`). The answer to a call is then a
function of the machine and of the clock (`Machine.answer`): a call that was cancelled or that runs
out of time carries no data, and every other one carries all of the data of its method.

## Main results

* `Machine.reply_eq`: the collectors, the handlers and the files make this answer;
* `machine_served`: in every order of steps of calls that run at the same time, each is given it.
-/

namespace AgentResources

variable {h : Host} {cpu : SysCpu} {vendor model frequency : List UInt8}

/-! ## A machine and its files -/

/-- The processors of a machine. -/
inductive Processors
  /-- The lines of `/proc/cpuinfo`. -/
  | x86 (lines : List CpuinfoLine)
  /-- The enabled CPUs, the model, and the frequency of the last CPU. -/
  | arm (enabled : CpuList) (model : List UInt8) (frequency : ℕ)

namespace Processors

/-- The architecture of the processors. -/
def arch : Processors → Arch
  | x86 _ => .x86
  | arm _ _ _ => .arm

/-- The files say what the processors are. -/
def WrittenTo (h : Host) : Processors → Prop
  | x86 lines => h.file .procCpuinfo = some (cpuinfoText lines) ∧ ∀ line ∈ lines, line.Plain
  | arm enabled model frequency => ArmFiles h enabled model frequency

/-- The message about the processors. No method reads their times, and on x86 none finds a core. -/
def message : Processors → CpuMessage
  | x86 lines =>
    { vendor := overwrite (cpuinfoValues .vendorId lines)
      model := overwrite (cpuinfoValues .modelName lines)
      frequency := overwrite (cpuinfoValues .cpuMHz lines)
      totalTime := 0
      idleTime := 0
      cores := 0 }
  | arm enabled model frequency =>
    { vendor := []
      model
      frequency := Scanf.digits frequency
      totalTime := 0
      idleTime := 0
      cores := UInt32.ofNat enabled.greatest }

end Processors

/-- A machine: its processors, and the kB of its memory and of what is free of it. -/
structure Machine where
  processors : Processors
  total : ℕ
  free : ℕ

namespace Machine

/-- The message about the memory. -/
def memory (m : Machine) : MemoryMessage := ⟨UInt64.ofNat m.total, UInt64.ofNat m.free⟩

/-- `/proc/meminfo` gives the two sizes, each on one line. -/
def MemoryWrittenTo (m : Machine) (h : Host) : Prop :=
  ∃ text, h.file .procMeminfo = some text ∧ Stream.ShortLines buffSmall text ∧
    OnlySizeLine "MemTotal" m.total text ∧ OnlySizeLine "MemFree" m.free text

/-- The files say what the machine is, and those of the disk and of the device can be read. -/
structure Shown (m : Machine) (h : Host) : Prop where
  processors : m.processors.WrittenTo h
  memory : m.MemoryWrittenTo h
  partitions : h.file .procPartitions ≠ none
  uptime : h.file .osRelease ≠ none → UptimeReadable h

/-- A call that is made to the machine. -/
def Runs (m : Machine) : Rpc → Prop
  | .getSystemResources arch h _ => arch = m.processors.arch ∧ m.Shown h
  | .getCpu arch h _ => arch = m.processors.arch ∧ m.Shown h
  | .getMemory h _ => m.Shown h

end Machine

/-- The answer of a method that looks at the clock `checks` times, first of all and then after each
collector, if its collectors return `codes` and it would reply with `reply`. -/
def answerAt (checks : ℕ) (codes : List ℤ) (reply : Reply) (h : Host) (ctx : ServerContext) :
    Response :=
  if ctx.isCancelled then cancelledResponse
  else
    match (List.range checks).find? fun i => ctx.deadline < h.now i with
    | some i => deadlineResponse (codes.take i)
    | none => ⟨⟨.ok, ""⟩, reply, codes⟩

/-- The answer of the machine to a call. -/
def Machine.answer (m : Machine) : Rpc → Response
  | .getSystemResources _ h ctx => answerAt 5 [errOk, errOk, errOk, deviceCode h]
    ⟨some m.processors.message, some m.memory⟩ h ctx
  | .getCpu _ h ctx => answerAt 1 [errOk] ⟨some m.processors.message, none⟩ h ctx
  | .getMemory h ctx => answerAt 1 [errOk] ⟨none, some m.memory⟩ h ctx

/-! ## What the collectors make of the files -/

/-- The message has the strings of the struct. -/
theorem SysCpu.Holds.cpuMessageOf_eq (hcpu : cpu.Holds vendor model frequency) :
    cpuMessageOf cpu =
      some ⟨vendor, model, frequency, cpu.totalTime, cpu.idleTime, cpu.cores⟩ := by
  simp only [cpuMessageOf, setCpu, setString, hcpu.vendor_eq, hcpu.model_eq, hcpu.frequency_eq]
  rfl

theorem cpuOf_of_cpuRead {arch : Arch} (hread : cpuRead arch h SysCpu.zero = .ok (errOk, cpu)) :
    cpuOf arch h = some cpu := by
  rw [cpuOf, hread]
  rfl

/-- The collector of the processors fills their message. -/
theorem Processors.WrittenTo.exists_cpuOf {p : Processors} (hp : p.WrittenTo h) :
    ∃ cpu, cpuOf p.arch h = some cpu ∧ cpuMessageOf cpu = some p.message := by
  cases p with
  | x86 lines =>
    obtain ⟨hfile, hlines⟩ := hp
    obtain ⟨cpu, hread, hholds, htotal, hidle, hcores⟩ := cpuRead_lines hfile hlines
    refine ⟨cpu, cpuOf_of_cpuRead hread, ?_⟩
    rw [hholds.cpuMessageOf_eq, htotal, hidle, hcores]
    rfl
  | arm enabled model frequency =>
    obtain ⟨cpu, hread, hholds, htotal, hidle, hcores⟩ := ArmFiles.cpuRead hp
    refine ⟨cpu, cpuOf_of_cpuRead hread, ?_⟩
    rw [hholds.cpuMessageOf_eq, htotal, hidle, hcores]
    rfl

/-- The collector of the memory finds the two sizes. -/
theorem Machine.MemoryWrittenTo.memoryFound_eq {m : Machine} (hm : m.MemoryWrittenTo h) :
    ∃ memory, memoryFound h = some memory ∧ setMemory memory = m.memory := by
  obtain ⟨text, hfile, hshort, htotal, hfree⟩ := hm
  obtain ⟨hvalues, hram⟩ := htotal.ramOf_eq hfree hshort
  refine ⟨ramOf text, ?_, ?_⟩
  · rw [memoryFound, hfile, Option.bind_eq_bind, Option.bind_some, guard, if_pos hvalues]
    rfl
  · rw [hram]
    rfl

/-- The partitions are read from their file. -/
theorem diskCodeOf_of_file (hfile : h.file .procPartitions ≠ none) :
    diskCodeOf h = some errOk := by
  obtain ⟨text, htext⟩ := Option.ne_none_iff_exists'.mp hfile
  rw [diskCodeOf, htext, Option.map_some]

/-- The device is read with the uptime. -/
theorem deviceCodeOf_of_file (huptime : h.file .osRelease ≠ none → UptimeReadable h) :
    deviceCodeOf h = some (deviceCode h) := by
  obtain ⟨code, hcode⟩ := Option.isSome_iff_exists.mp (deviceCodeOf_isSome.mpr huptime)
  rw [hcode, deviceCodeOf_eq_some hcode, deviceCode]

/-! ## The answers -/

/-- A method with one collector looks at the clock before it. -/
theorem answerAt_one (codes : List ℤ) (reply : Reply) (ctx : ServerContext) :
    answerAt 1 codes reply h ctx =
      if ctx.isCancelled then cancelledResponse
      else if ctx.deadline < h.now 0 then deadlineResponse []
      else ⟨⟨.ok, ""⟩, reply, codes⟩ := by
  rw [answerAt, List.range_one, List.find?_singleton]
  split
  · rfl
  · by_cases hlate : ctx.deadline < h.now 0
    · simp [hlate]
    · simp [hlate]

/-- What the code makes of a machine's files is the answer of the machine. -/
theorem Machine.reply_eq (m : Machine) {c : Rpc} (hc : m.Runs c) : c.reply = some (m.answer c) := by
  cases c with
  | getSystemResources arch h ctx =>
    obtain ⟨rfl, hshown⟩ := hc
    obtain ⟨cpu, hcpu, hmsg⟩ := hshown.processors.exists_cpuOf
    obtain ⟨memory, hmemory, hset⟩ := hshown.memory.memoryFound_eq
    have hdisk := diskCodeOf_of_file hshown.partitions
    have hdevice := deviceCodeOf_of_file hshown.uptime
    have hrange : List.range 5 = [0, 1, 2, 3, 4] := rfl
    simp only [Rpc.reply, Rpc.replyWith, Rpc.host, systemReply, hcpu, hmsg, hmemory, hset, hdisk,
      hdevice, Option.bind_eq_bind, Option.bind_some, Option.pure_def, Machine.answer, answerAt,
      hrange, List.find?_cons, List.find?_nil]
    by_cases hcancelled : ctx.isCancelled
    · rw [if_pos hcancelled, if_pos hcancelled]
    rw [if_neg hcancelled, if_neg hcancelled]
    -- the first reading after the deadline decides
    by_cases h0 : ctx.deadline < h.now 0
    · simp [h0]
    by_cases h1 : ctx.deadline < h.now 1
    · simp [h0, h1]
    by_cases h2 : ctx.deadline < h.now 2
    · simp [h0, h1, h2]
    by_cases h3 : ctx.deadline < h.now 3
    · simp [h0, h1, h2, h3]
    by_cases h4 : ctx.deadline < h.now 4
    · simp [h0, h1, h2, h3, h4]
    · simp [h0, h1, h2, h3, h4]
  | getCpu arch h ctx =>
    obtain ⟨rfl, hshown⟩ := hc
    obtain ⟨cpu, hcpu, hmsg⟩ := hshown.processors.exists_cpuOf
    simp only [Rpc.reply, Rpc.replyWith, cpuReply, hcpu, hmsg, Option.bind_eq_bind,
      Option.bind_some, Option.pure_def, Machine.answer, answerAt_one, apply_ite some]
  | getMemory h ctx =>
    have hshown : m.Shown h := hc
    obtain ⟨memory, hmemory, hset⟩ := hshown.memory.memoryFound_eq
    simp only [Rpc.reply, Rpc.replyWith, Rpc.host, ramReply, hmemory, hset, Option.bind_eq_bind,
      Option.bind_some, Option.pure_def, Machine.answer, answerAt_one, apply_ite some]

/-! ## Calls in flight -/

variable {s₀ : Proc} {events later : List (PoolEvent Rpc)} {p : Pool Proc Halt Response Rpc}

/-- Calls that are made to one machine while the kernel grants memory: in every order of their steps
each is answered as the machine would answer it alone, after twelve turns at the latest, and none
stops the agent. -/
theorem machine_served (m : Machine) (hs : s₀.Tidy)
    (h : Pool.Reaches Rpc.thread Rpc.Grants s₀ (events ++ later) p)
    (hruns : ∀ x ∈ p.threads, m.Runs x.1) :
    (∀ (i : ℕ) (c : Rpc) (r : Response), p.threads[i]? = some (c, .done r) → r = m.answer c) ∧
    (∀ i < events.countP PoolEvent.isStart, 12 ≤ later.countP (PoolEvent.isTurn i) →
      ∃ c, p.threads[i]? = some (c, .done (m.answer c))) ∧
    ∀ event, (∀ i x, event = .advance i → p.threads[i]? = some x → x.1.Grants p.state) →
      ∃ p', p.step Rpc.thread event = .ok p' := by
  obtain ⟨own, hown⟩ := callsOwned (fun c => c.reply = none) hs (fun _ _ hE => .inl hE)
    (fun _ hc => hc) h
  have hanswer : ∀ (i : ℕ) (c : Rpc) (r : Response), p.threads[i]? = some (c, .done r) →
      r = m.answer c := by
    intro i c r hdone
    have hreply := (hown.of_done hdone).1
    rw [m.reply_eq (hruns _ (List.mem_of_getElem? hdone))] at hreply
    exact (Option.some.inj hreply).symm
  refine ⟨hanswer, fun i hstart hturns => ?_, fun event hgrants => ?_⟩
  · obtain ⟨c, r, hdone⟩ := h.exists_done Rpc.thread_within hstart hturns
    obtain rfl := hanswer i c r hdone
    exact ⟨c, hdone⟩
  · cases hstep : p.step Rpc.thread event with
    | ok p' => exact ⟨p', rfl⟩
    | error e =>
      -- only a call without a reply could have stopped the agent
      obtain ⟨i, x, -, hx, hnone⟩ := hown.bad_of_error hgrants hstep
      rw [m.reply_eq (hruns x (List.mem_of_getElem? hx))] at hnone
      cases hnone

/-- The machine of the sample host. -/
def sampleMachine : Machine where
  processors := .x86 [.value .vendorId (ascii "GenuineIntel"), .value .modelName (ascii "Xeon"),
    .value .cpuMHz (ascii "2400")]
  total := 16384
  free := 8192

/-- Its files. -/
theorem shown_sample : sampleMachine.Shown lateHost where
  processors := ⟨by decide +kernel, by decide +kernel⟩
  memory := by
    refine ⟨_, rfl, by unfold Stream.ShortLines; decide +kernel,
      ⟨[], ascii "MemTotal:       16384 kB\n", [ascii "MemFree:         8192 kB\n"],
        by decide +kernel, ⟨List.replicate 7 32, ascii "16384", [10], ?_⟩, by decide +kernel⟩,
      ⟨[ascii "MemTotal:       16384 kB\n"], ascii "MemFree:         8192 kB\n", [],
        by decide +kernel, ⟨List.replicate 9 32, ascii "8192", [10], ?_⟩, by decide +kernel⟩⟩
    · decide +kernel
    · decide +kernel
  partitions := by decide
  uptime := fun _ => ⟨_, rfl, by decide +kernel⟩

/-/-- The two calls are made to it. -/
theorem runs_sample {t t' : Thread Proc Halt Response} :
    ∀ x ∈ [(lateRpc, t), (sampleRpc, t')], sampleMachine.Runs x.1 := by
  have hshown : sampleMachine.Shown sampleHost :=
    ⟨shown_sample.processors, shown_sample.memory, shown_sample.partitions, shown_sample.uptime⟩
  rw [List.forall_mem_cons, List.forall_mem_singleton]
  exact ⟨⟨rfl, shown_sample⟩, hshown⟩

/-- The two calls are made in turn: one runs out of time, and the other one has the sizes. After two
actions of each the memory can be read. -/
theorem machine_served_sample :
    (∃ p, Pool.Reaches Rpc.thread Rpc.Grants .onePage (sampleStarts ++ sampleTurns 12) p ∧
      p.threads[0]? = some (lateRpc, .done (deadlineResponse [errOk])) ∧
      p.threads[1]? = some (sampleRpc, .done ⟨⟨.ok, ""⟩, ⟨none, some ⟨16384, 8192⟩⟩, [errOk]⟩)) ∧
    ∃ p p', Pool.Reaches Rpc.thread Rpc.Grants .onePage (sampleStarts ++ sampleTurns 2) p ∧
      p.step Rpc.thread (.advance 1) = .ok p' := by
  have hruns : ∀ {p : Pool Proc Halt Response Rpc} {t t'},
      p.threads = [(lateRpc, t), (sampleRpc, t')] → ∀ x ∈ p.threads, sampleMachine.Runs x.1 :=
    fun hthreads => hthreads ▸ runs_sample
  constructor
  · obtain ⟨p, r, r', hreach, hthreads, -⟩ := exists_reaches_sample
    have hserved := (machine_served sampleMachine Proc.tidy_onePage hreach (hruns hthreads)).1
    refine ⟨p, hreach, ?_, ?_⟩
    · obtain rfl := hserved 0 lateRpc r (by rw [hthreads]; rfl)
      rw [hthreads]
      rfl
    · obtain rfl := hserved 1 sampleRpc r' (by rw [hthreads]; rfl)
      rw [hthreads]
      rfl
  · obtain ⟨p, t, t', hreach, hthreads, -, -, hgrants⟩ := exists_reaches_midway
    obtain ⟨p', hstep⟩ := (machine_served sampleMachine Proc.tidy_onePage hreach
      (hruns hthreads)).2.2 _ hgrants
    exact ⟨p, p', hreach, hstep⟩

end AgentResources
