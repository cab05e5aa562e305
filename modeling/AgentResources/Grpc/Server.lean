import AgentResources.Foundations.MappedParts
import AgentResources.Grpc.HandlerOutcome

/-!
# Calls in flight

`server.cc` registers the three methods of `ResourcesServiceImpl` with a server that runs calls at
the same time, in one address space. A call is here a thread: every function its handler calls is
one action, and between two of them other calls may take theirs. Run alone, the thread of a call is
its handler (`Rpc.run_thread`).

What a call knows about memory is about its own arena only, so in whatever order the calls take
their actions, each is answered as if it were alone.

## Main definitions

* `Rpc`, `Rpc.handle`, `Rpc.thread`: a call, its handler, and the handler as a thread;
* `Rpc.reply`: what the files and the clock say the answer is.
-/

namespace AgentResources

/-- A call of a method of `ResourcesServiceImpl`, with the files and clock readings it finds. -/
inductive Rpc
  | getSystemResources (arch : Arch) (h : Host) (ctx : ServerContext)
  | getCpu (arch : Arch) (h : Host) (ctx : ServerContext)
  | getMemory (h : Host) (ctx : ServerContext)

/-- The methods `GetSystemResources`, `GetCpu` and `GetMemory`. -/
def Rpc.handle : Rpc → Proc → Except Halt (Response × Proc)
  | .getSystemResources arch h ctx => getSystemResourcesImpl arch h ctx
  | .getCpu arch h ctx => getCpuImpl arch h ctx
  | .getMemory h ctx => getRamImpl h ctx

/-- `get_system_resources_impl`, one action after the other. -/
def systemThread (arch : Arch) (h : Host) (ctx : ServerContext) : Thread Proc Halt Response :=
  if ctx.isCancelled then .done cancelledResponse
  else if ctx.deadline < h.now 0 then .done (deadlineResponse [])
  else do
    let tempArena ← .call (arenaCreate h.toKernel (MiB 8))
    let internalCpu ← .atomic (cpuCreate tempArena)
    let internalRam ← .atomic (ramCreate tempArena)
    let internalDisk ← .atomic (diskCreate tempArena)
    let internalDevice ← .atomic (deviceCreate tempArena)
    let cpuCode ← .atomic (onStruct (cpuRead arch h) internalCpu)
    if ctx.deadline < h.now 1 then return deadlineResponse [cpuCode]
    let ramCode ← .atomic (sysRamRead h internalRam)
    if ctx.deadline < h.now 2 then return deadlineResponse [cpuCode, ramCode]
    let diskCode ← .atomic (diskRead h internalDisk tempArena)
    if ctx.deadline < h.now 3 then return deadlineResponse [cpuCode, ramCode, diskCode]
    let deviceCode ← .atomic (onStruct (deviceRead h) internalDevice)
    let codes := [cpuCode, ramCode, diskCode, deviceCode]
    if ctx.deadline < h.now 4 then return deadlineResponse codes
    let cpuMsg ← .atomic fun s => (·, s) <$> setCpu (s.mem.loadAs SysCpu internalCpu)
    let ramMsg ← .call fun s => (setMemory (s.mem.loadAs SysMemory internalRam), s)
    Thread.call fun s => ((), arenaDestroy tempArena s)
    return ⟨⟨.ok, ""⟩, ⟨some cpuMsg, some ramMsg⟩, codes⟩

/-- `get_cpu_impl`, one action after the other. -/
def cpuThread (arch : Arch) (h : Host) (ctx : ServerContext) : Thread Proc Halt Response :=
  if ctx.isCancelled then .done cancelledResponse
  else if ctx.deadline < h.now 0 then .done (deadlineResponse [])
  else do
    let tempArena ← .call (arenaCreate h.toKernel (MiB 8))
    let internalCpu ← .atomic (cpuCreate tempArena)
    let cpuCode ← .atomic (onStruct (cpuRead arch h) internalCpu)
    let cpuMsg ← .atomic fun s => (·, s) <$> setCpu (s.mem.loadAs SysCpu internalCpu)
    Thread.call fun s => ((), arenaDestroy tempArena s)
    return ⟨⟨.ok, ""⟩, ⟨some cpuMsg, none⟩, [cpuCode]⟩

/-- `get_ram_impl`, one action after the other. -/
def ramThread (h : Host) (ctx : ServerContext) : Thread Proc Halt Response :=
  if ctx.isCancelled then .done cancelledResponse
  else if ctx.deadline < h.now 0 then .done (deadlineResponse [])
  else do
    let tempArena ← .call (arenaCreate h.toKernel (MiB 8))
    let internalRam ← .atomic (ramCreate tempArena)
    let ramCode ← .atomic (sysRamRead h internalRam)
    let ramMsg ← .call fun s => (setMemory (s.mem.loadAs SysMemory internalRam), s)
    Thread.call fun s => ((), arenaDestroy tempArena s)
    return ⟨⟨.ok, ""⟩, ⟨none, some ramMsg⟩, [ramCode]⟩

/-- The thread that answers a call. -/
def Rpc.thread : Rpc → Thread Proc Halt Response
  | .getSystemResources arch h ctx => systemThread arch h ctx
  | .getCpu arch h ctx => cpuThread arch h ctx
  | .getMemory h ctx => ramThread h ctx

variable {arch : Arch} {h : Host} {ctx : ServerContext} {s s' : Proc} {a n : ℕ}
  {cpu : SysCpu} {memory : SysMemory}

/-! ## Alone -/

/-- Filling the message is the last action that can fail. -/
theorem map_setCpu_bind {α : Type} (cpu : SysCpu) (s : Proc)
    (f : CpuMessage × Proc → Except Halt α) :
    ((·, s) <$> setCpu cpu) >>= f = setCpu cpu >>= fun msg => f (msg, s) := by
  cases setCpu cpu <;> rfl

/-- Alone, the thread of a call is its handler. -/
theorem Rpc.run_thread (c : Rpc) (s : Proc) : c.thread.run s = c.handle s := by
  cases c with
  | getSystemResources arch h ctx =>
    rw [Rpc.thread, Rpc.handle, systemThread, getSystemResourcesImpl]
    split
    · rfl
    split
    · rfl
    simp only [Thread.call_bind, Thread.atomic_bind, Thread.run_step, Except.ok_bind]
    -- the structs are handed out
    refine bind_congr fun r => bind_congr fun r => bind_congr fun r => bind_congr fun r => ?_
    -- a check of the clock is made in the same place, and after the collector both go on alike
    refine bind_congr fun r => ?_
    split
    · rfl
    refine bind_congr fun r => ?_
    split
    · rfl
    refine bind_congr fun r => ?_
    split
    · rfl
    refine bind_congr fun r => ?_
    split
    · rfl
    exact map_setCpu_bind _ _ _
  | getCpu arch h ctx =>
    rw [Rpc.thread, Rpc.handle, cpuThread, getCpuImpl]
    split
    · rfl
    split
    · rfl
    simp only [Thread.call_bind, Thread.atomic_bind, Thread.run_step, Except.ok_bind]
    exact bind_congr fun r => bind_congr fun r => map_setCpu_bind _ _ _
  | getMemory h ctx =>
    rw [Rpc.thread, Rpc.handle, ramThread, getRamImpl]
    split
    · rfl
    split
    · rfl
    rfl

/-! ## What is answered -/

/-- The struct `sys_ram_read` fills, if its scratch arena is granted. -/
def memoryFound (h : Host) : Option SysMemory := do
  let text ← h.file .procMeminfo
  guard (meminfoValues "MemTotal" text ≠ [] ∧ meminfoValues "MemFree" text ≠ [] ∧
    totalLength (meminfoValues "MemTotal" text) + totalLength (meminfoValues "MemFree" text) ≤ 8192)
  return ramOf text

/-- The answer to `GetSystemResources`, if `sys_ram_read` fills in `ram`. -/
def systemReply (arch : Arch) (h : Host) (ctx : ServerContext) (ram : Option SysMemory) :
    Option Response :=
  if ctx.isCancelled then some cancelledResponse
  else if ctx.deadline < h.now 0 then some (deadlineResponse [])
  else do
    let cpu ← cpuOf arch h
    if ctx.deadline < h.now 1 then return deadlineResponse [errOk]
    let memory ← ram
    if ctx.deadline < h.now 2 then return deadlineResponse [errOk, errOk]
    let diskCode ← diskCodeOf h
    if ctx.deadline < h.now 3 then return deadlineResponse [errOk, errOk, diskCode]
    let deviceCode ← deviceCodeOf h
    let codes := [errOk, errOk, diskCode, deviceCode]
    if ctx.deadline < h.now 4 then return deadlineResponse codes
    let msg ← cpuMessageOf cpu
    return ⟨⟨.ok, ""⟩, ⟨some msg, some (setMemory memory)⟩, codes⟩

/-- The answer to `GetCpu`. -/
def cpuReply (arch : Arch) (h : Host) (ctx : ServerContext) : Option Response :=
  if ctx.isCancelled then some cancelledResponse
  else if ctx.deadline < h.now 0 then some (deadlineResponse [])
  else do
    let cpu ← cpuOf arch h
    let msg ← cpuMessageOf cpu
    return ⟨⟨.ok, ""⟩, ⟨some msg, none⟩, [errOk]⟩

/-- The answer to `GetMemory`, if `sys_ram_read` fills in `ram`. -/
def ramReply (h : Host) (ctx : ServerContext) (ram : Option SysMemory) : Option Response :=
  if ctx.isCancelled then some cancelledResponse
  else if ctx.deadline < h.now 0 then some (deadlineResponse [])
  else do
    let memory ← ram
    return ⟨⟨.ok, ""⟩, ⟨none, some (setMemory memory)⟩, [errOk]⟩

/-- The answer to a call, if `sys_ram_read` fills in `ram`. -/
def Rpc.replyWith : Rpc → Option SysMemory → Option Response
  | .getSystemResources arch h ctx, ram => systemReply arch h ctx ram
  | .getCpu arch h ctx, _ => cpuReply arch h ctx
  | .getMemory h ctx, ram => ramReply h ctx ram

/-- The host of a call. -/
def Rpc.host : Rpc → Host
  | .getSystemResources _ h _ => h
  | .getCpu _ h _ => h
  | .getMemory h _ => h

/-- The answer to a call on a machine that grants memory. -/
def Rpc.reply (c : Rpc) : Option Response := c.replyWith (memoryFound c.host)

/-- The outcome of a handler, with the mappings it leaves. -/
def Rpc.outcome : Rpc → List Mapping → Option Outcome
  | .getSystemResources arch h ctx => systemOutcome arch h ctx
  | .getCpu arch h ctx => cpuOutcome arch h ctx
  | .getMemory h ctx => ramOutcome h ctx

theorem Rpc.handle_refines (c : Rpc) (hs : s.WellMapped) :
    Except.Refines Shows (c.handle s) (c.outcome s.maps) := by
  cases c with
  | getSystemResources arch h ctx => exact getSystemResourcesImpl_refines hs
  | getCpu arch h ctx => exact getCpuImpl_refines hs
  | getMemory h ctx => exact getRamImpl_refines hs

theorem memoryOf_eq (maps : List Mapping) :
    memoryOf h maps = (h.mmap maps (mappingLen (KiB 8))).bind fun _ => memoryFound h := by
  unfold memoryOf memoryFound
  cases h.file .procMeminfo with
  | none => cases h.mmap maps (mappingLen (KiB 8)) <;> rfl
  | some text => rfl

/-- The kernel of a call grants it an arena, and then the scratch arena of `sys_ram_read`. -/
def Rpc.Granted (c : Rpc) (maps : List Mapping) : Prop :=
  ∃ mapped, mapArena c.host.toKernel (MiB 8) maps = some mapped ∧
    (c.host.mmap mapped (mappingLen (KiB 8))).isSome

/-- With an arena, a handler answers what the files say. -/
theorem Rpc.map_outcome (c : Rpc) {maps mapped : List Mapping}
    (hmapped : mapArena c.host.toKernel (MiB 8) maps = some mapped) :
    (c.outcome maps).map (·.1) = c.replyWith (memoryOf c.host mapped) := by
  cases c with
  | getSystemResources arch h ctx =>
    simp only [Rpc.host] at hmapped
    simp only [Rpc.outcome, systemOutcome, hmapped, Rpc.replyWith, systemReply, Rpc.host,
      apply_ite (Option.map Prod.fst), Option.bind_eq_bind, Option.map_bind, Function.comp_def,
      Option.map_some, Option.bind_some, Option.pure_def]
  | getCpu arch h ctx =>
    simp only [Rpc.host] at hmapped
    simp only [Rpc.outcome, cpuOutcome, hmapped, Rpc.replyWith, cpuReply,
      apply_ite (Option.map Prod.fst), Option.bind_eq_bind, Option.map_bind, Function.comp_def,
      Option.map_some, Option.bind_some, Option.pure_def]
  | getMemory h ctx =>
    simp only [Rpc.host] at hmapped
    simp only [Rpc.outcome, ramOutcome, hmapped, Rpc.replyWith, ramReply, Rpc.host,
      apply_ite (Option.map Prod.fst), Option.bind_eq_bind, Option.map_bind, Function.comp_def,
      Option.map_some, Option.bind_some, Option.pure_def]

/-- A handler that has no arena answers only what it would have answered anyway. -/
theorem Rpc.replyWith_of_none (c : Rpc) {maps : List Mapping} {o : Outcome}
    (hnone : mapArena c.host.toKernel (MiB 8) maps = none) (ho : c.outcome maps = some o)
    (ram : Option SysMemory) : c.replyWith ram = some o.1 := by
  have hearly : ∀ {h : Host} {ctx : ServerContext} {x : Option Outcome} {y : Option Response},
      x = none → (if ctx.isCancelled then some (cancelledResponse, maps)
        else if ctx.deadline < h.now 0 then some (deadlineResponse [], maps) else x) = some o →
      (if ctx.isCancelled then some cancelledResponse
        else if ctx.deadline < h.now 0 then some (deadlineResponse []) else y) = some o.1 := by
    intro h ctx x y hx ho
    split at ho
    · cases ho
      rw [if_pos ‹_›]
    · rw [if_neg ‹_›]
      split at ho
      · cases ho
        rw [if_pos ‹_›]
      · rw [hx] at ho
        cases ho
  -- a refused arena settles the reply before any file is read
  cases c with
  | getSystemResources arch h ctx =>
    refine hearly ?_ ho
    rw [show mapArena h.toKernel (MiB 8) maps = none from hnone]
    rfl
  | getCpu arch h ctx =>
    refine hearly ?_ ho
    rw [show mapArena h.toKernel (MiB 8) maps = none from hnone]
    rfl
  | getMemory h ctx =>
    refine hearly ?_ ho
    rw [show mapArena h.toKernel (MiB 8) maps = none from hnone]
    rfl

/-- An answer that is given without the memory is the same with it. -/
theorem Rpc.replyWith_mono (c : Rpc) {r : Response} (hr : c.replyWith none = some r)
    (ram : Option SysMemory) : c.replyWith ram = some r := by
  cases c with
  | getSystemResources arch h ctx =>
    simp only [Rpc.replyWith, systemReply] at hr ⊢
    split at hr
    · rwa [if_pos ‹_›]
    rw [if_neg ‹_›]
    split at hr
    · rwa [if_pos ‹_›]
    rw [if_neg ‹_›]
    obtain ⟨cpu, hcpu, hr⟩ := Option.bind_eq_some_iff.mp hr
    -- without the memory the deadline has passed before it was needed
    split at hr
    · rw [hcpu, Option.bind_eq_bind, Option.bind_some, if_pos ‹_›]
      exact hr
    · cases hr
  | getCpu arch h ctx => exact hr
  | getMemory h ctx =>
    simp only [Rpc.replyWith, ramReply] at hr ⊢
    split at hr
    · rwa [if_pos ‹_›]
    rw [if_neg ‹_›]
    split at hr
    · rwa [if_pos ‹_›]
    · cases hr

/-- What a handler answers does not depend on the mappings it finds. -/
theorem Rpc.reply_of_outcome (c : Rpc) {maps : List Mapping} {o : Outcome}
    (ho : c.outcome maps = some o) : c.reply = some o.1 := by
  cases hmapped : mapArena c.host.toKernel (MiB 8) maps with
  | none => exact c.replyWith_of_none hmapped ho _
  | some mapped =>
    have hr := c.map_outcome hmapped
    rw [ho, Option.map_some, memoryOf_eq] at hr
    cases hscratch : c.host.mmap mapped (mappingLen (KiB 8)) with
    | none =>
      rw [hscratch] at hr
      exact c.replyWith_mono hr.symm _
    | some a =>
      rw [hscratch] at hr
      exact hr.symm

/-- On a machine that grants memory a handler answers. -/
theorem Rpc.outcome_of_granted (c : Rpc) {maps : List Mapping} (hgrant : c.Granted maps) :
    (c.outcome maps).map (·.1) = c.reply := by
  obtain ⟨mapped, hmapped, hscratch⟩ := hgrant
  obtain ⟨a, ha⟩ := Option.isSome_iff_exists.mp hscratch
  rw [c.map_outcome hmapped, memoryOf_eq, ha, Option.bind_some, Rpc.reply]

end AgentResources
