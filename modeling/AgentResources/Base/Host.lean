import AgentResources.Foundations.CString

/-!
# The host of a call

What a call of the agent depends on besides its arguments: the kernel that maps memory, the files
it may open and the clock. Every function opens a path at most once in a call, so a path stands for
what opening it then gives: nothing, or the bytes the stream delivers up to its end or to an error.

The constants are those of `base.h`.
-/

namespace AgentResources

def errOk : ℤ := 0
def errIo : ℤ := 1
def errInvalid : ℤ := 4

def buffSmall : ℕ := 128
def buffDefault : ℕ := 256
def buffLarge : ℕ := 512

/-- The architecture the agent is compiled for. -/
inductive Arch
  /-- `__arm__` or `__aarch64__`. -/
  | arm
  /-- `__i386__` or `__x86_64__`. -/
  | x86
  deriving DecidableEq

/-- The files the modelled functions open. -/
inductive Path
  /-- `/proc/cpuinfo` -/
  | procCpuinfo
  /-- `/proc/stat` -/
  | procStat
  /-- `/proc/meminfo` -/
  | procMeminfo
  /-- `/proc/partitions` -/
  | procPartitions
  /-- `/proc/uptime` -/
  | procUptime
  /-- `/etc/os-release` -/
  | osRelease
  /-- `/proc/device-tree/model` -/
  | deviceTreeModel
  /-- `/sys/devices/system/cpu/enabled` -/
  | cpuEnabled
  /-- `/sys/devices/system/cpu/cpu%d/cpufreq/scaling_cur_freq` -/
  | scalingCurFreq (cpu : ℤ)
  /-- `/proc/%d/status` -/
  | procStatus (pid : Int32)
  /-- `/etc/tcp` -/
  | etcTcp
  /-- `/etc/tcp6` -/
  | etcTcp6
  deriving DecidableEq

/-- The outside of a call. -/
structure Host extends Kernel where
  /-- What opening a file gives. -/
  file : Path → Option (List UInt8)
  /-- What closing a stream returns. -/
  fclose : Path → ℤ
  /-- The readings of the clock, in order. -/
  now : ℕ → ℤ

/-- A host where every file but `/proc/uptime` has this text. -/
def hostOf (text : List UInt8) : Host :=
  { Kernel.above with
    file := fun
      | .procUptime => some (ascii "100.00 200.00\n")
      | _ => some text
    fclose := fun _ => 0
    now := fun _ => 0 }

end AgentResources
