import AgentResources.Libres.Cpu
import AgentResources.Libres.Device
import AgentResources.Libres.Disk
import AgentResources.Libres.Ram

/-!
# The resource handlers

`get_system_resources_impl`, `get_cpu_impl` and `get_ram_impl` of `resource_handler.cc`. A handler
takes a fresh arena for the structs, runs its collectors on them and copies the structs into the
reply. The codes of the collectors are not looked at by the source; here they are kept beside the
reply, so that one can ask what they were.
-/

namespace AgentResources

/-- The status codes the handlers return. -/
inductive StatusCode
  | ok
  | cancelled
  | deadlineExceeded
  deriving DecidableEq

/-- `grpc::Status` -/
structure Status where
  code : StatusCode
  message : String
  deriving DecidableEq

/-- `grpc::ServerContext` -/
structure ServerContext where
  isCancelled : Bool
  deadline : ℤ
  deriving DecidableEq

/-- The message `Cpu` -/
structure CpuMessage where
  vendor : List UInt8
  model : List UInt8
  frequency : List UInt8
  totalTime : UInt64
  idleTime : UInt64
  cores : UInt32
  deriving DecidableEq

/-- The message `Memory` -/
structure MemoryMessage where
  total : UInt64
  free : UInt64
  deriving DecidableEq

/-- The fields the handlers set in their replies. -/
structure Reply where
  cpu : Option CpuMessage
  memory : Option MemoryMessage
  deriving DecidableEq

/-- What a handler that returns has produced: its status, the reply, and the codes of the
collectors it ran. -/
structure Response where
  status : Status
  reply : Reply
  codes : List ℤ
  deriving DecidableEq

/-- The reply before anything is set. -/
def Reply.empty : Reply := ⟨none, none⟩

/-- The answer to a call that was cancelled. -/
def cancelledResponse : Response :=
  ⟨⟨.cancelled, "request cancelled"⟩, .empty, []⟩

/-- The answer after the deadline, when the collectors so far returned `codes`. -/
def deadlineResponse (codes : List ℤ) : Response :=
  ⟨⟨.deadlineExceeded, "deadline exceeded"⟩, .empty, codes⟩

/-- Run a reader on the struct at `p`. A null pointer fails its first assertion. -/
def onStruct {α : Type} [Layout α] (reader : α → Except Halt (ℤ × α)) (p : ℕ) (s : Proc) :
    Except Halt (ℤ × Proc) :=
  if p = NULL then .error .assertFailed
  else do
    let (code, v) ← reader (s.mem.loadAs α p)
    return (code, s.withMem (s.mem.storeAs p v))

/-- Set a string of a message from a field: a field without a terminator is read past its end. -/
def setString {n : ℕ} (field : Vector UInt8 n) : Except Halt (List UInt8) :=
  match fieldString field with
  | none => .error (.undefined .overread)
  | some str => .ok str

/-- Fill the message from the struct. -/
def setCpu (cpu : SysCpu) : Except Halt CpuMessage := do
  let vendor ← setString cpu.vendor
  let model ← setString cpu.model
  let frequency ← setString cpu.frequency
  return { vendor, model, frequency, totalTime := cpu.totalTime, idleTime := cpu.idleTime,
           cores := cpu.cores }

/-- Fill the message from the struct. -/
def setMemory (memory : SysMemory) : MemoryMessage := ⟨memory.total, memory.free⟩

/-- `get_system_resources_impl` -/
def getSystemResourcesImpl (arch : Arch) (h : Host) (ctx : ServerContext) (s : Proc) :
    Except Halt (Response × Proc) :=
  if ctx.isCancelled then .ok (cancelledResponse, s)
  else if ctx.deadline < h.now 0 then .ok (deadlineResponse [], s)
  else do
    let (tempArena, s) := arenaCreate h.toKernel (MiB 8) s
    let (internalCpu, s) ← cpuCreate tempArena s
    let (internalRam, s) ← ramCreate tempArena s
    let (internalDisk, s) ← diskCreate tempArena s
    let (internalDevice, s) ← deviceCreate tempArena s
    let (cpuCode, s) ← onStruct (cpuRead arch h) internalCpu s
    if ctx.deadline < h.now 1 then return (deadlineResponse [cpuCode], s)
    let (ramCode, s) ← sysRamRead h internalRam s
    if ctx.deadline < h.now 2 then return (deadlineResponse [cpuCode, ramCode], s)
    let (diskCode, s) ← diskRead h internalDisk tempArena s
    if ctx.deadline < h.now 3 then return (deadlineResponse [cpuCode, ramCode, diskCode], s)
    let (deviceCode, s) ← onStruct (deviceRead h) internalDevice s
    let codes := [cpuCode, ramCode, diskCode, deviceCode]
    if ctx.deadline < h.now 4 then return (deadlineResponse codes, s)
    let cpuMsg ← setCpu (s.mem.loadAs SysCpu internalCpu)
    let ramMsg := setMemory (s.mem.loadAs SysMemory internalRam)
    return (⟨⟨.ok, ""⟩, ⟨some cpuMsg, some ramMsg⟩, codes⟩, arenaDestroy tempArena s)

/-- `get_cpu_impl` -/
def getCpuImpl (arch : Arch) (h : Host) (ctx : ServerContext) (s : Proc) :
    Except Halt (Response × Proc) :=
  if ctx.isCancelled then .ok (cancelledResponse, s)
  else if ctx.deadline < h.now 0 then .ok (deadlineResponse [], s)
  else do
    let (tempArena, s) := arenaCreate h.toKernel (MiB 8) s
    let (internalCpu, s) ← cpuCreate tempArena s
    let (cpuCode, s) ← onStruct (cpuRead arch h) internalCpu s
    let cpuMsg ← setCpu (s.mem.loadAs SysCpu internalCpu)
    return (⟨⟨.ok, ""⟩, ⟨some cpuMsg, none⟩, [cpuCode]⟩, arenaDestroy tempArena s)

/-- `get_ram_impl` -/
def getRamImpl (h : Host) (ctx : ServerContext) (s : Proc) : Except Halt (Response × Proc) :=
  if ctx.isCancelled then .ok (cancelledResponse, s)
  else if ctx.deadline < h.now 0 then .ok (deadlineResponse [], s)
  else do
    let (tempArena, s) := arenaCreate h.toKernel (MiB 8) s
    let (internalRam, s) ← ramCreate tempArena s
    let (ramCode, s) ← sysRamRead h internalRam s
    let ramMsg := setMemory (s.mem.loadAs SysMemory internalRam)
    return (⟨⟨.ok, ""⟩, ⟨none, some ramMsg⟩, [ramCode]⟩, arenaDestroy tempArena s)

end AgentResources
