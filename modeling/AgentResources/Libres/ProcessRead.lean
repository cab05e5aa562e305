import AgentResources.Base.Host
import AgentResources.Base.Parse
import AgentResources.Foundations.Stream

/-!
# Reading the status of a process

`process_read` of `resources.cc`, on the struct as a record.
-/

namespace AgentResources

/-- `sys_proc_state` -/
inductive SysProcState
  | undefined
  | running
  | sleeping
  | diskSleeping
  | stopped
  | tracingStopped
  | zombie
  | dead
  | idle
  deriving DecidableEq

/-- `struct sys_process` -/
structure SysProc where
  name : Vector UInt8 16
  numThreads : Int8
  stime : UInt64
  utime : UInt64
  pid : Int32
  state : SysProcState
  deriving DecidableEq

/-- The state of the first upper-case letter or `t` of a `State:` line. -/
def procState (val : List UInt8) : SysProcState :=
  match val.find? fun c => (65 ≤ c && c ≤ 90) || c == 116 with
  | some 82 => .running
  | some 83 => .sleeping
  | some 68 => .diskSleeping
  -- `T`: the source stores `proc_sleeping` here
  | some 84 => .sleeping
  | some 116 => .tracingStopped
  | some 90 => .zombie
  | some 88 => .dead
  | some 73 => .idle
  | _ => .undefined

/-- The name field after a line: a `Name:` line is copied in and terminated. -/
def statusName (name : Vector UInt8 16) (buf value : List UInt8) :
    Except Halt (Vector UInt8 16) :=
  if (ascii "Name:").isPrefixOf buf then copyString name value else .ok name

/-- What `process_read` does with a chunk of `/proc/<pid>/status`. -/
def statusLine (out : SysProc) (chunk : List UInt8) : Except Halt SysProc :=
  let buf := cstr chunk
  match afterColon [32, 9] buf with
  | none => .ok out
  | some val => do
    let value := spanUntil [10] val
    let name ← statusName out.name buf value
    let state := if (ascii "State:").isPrefixOf buf then procState val else out.state
    -- `sizeof(val)` is the size of a pointer
    let numThreads := if (ascii "Threads:").isPrefixOf buf
      then (parseU64 (val ++ [0]) 8).toUInt8.toInt8 else out.numThreads
    return { out with name, state, numThreads }

/-- `process_read` -/
def processRead (h : Host) (pid : Int32) (out : SysProc) : Except Halt (ℤ × SysProc) :=
  match h.file (.procStatus pid) with
  | none => .ok (errIo, out)
  | some text => do
    let out ← (Stream.chunks buffLarge text).foldlM statusLine { out with pid }
    if h.fclose (.procStatus pid) ≠ 0 then return (errIo, out)
    return (errOk, out)

end AgentResources
