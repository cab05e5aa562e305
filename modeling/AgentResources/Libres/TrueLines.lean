import AgentResources.Foundations.LineScan
import AgentResources.Libres.Cpu
import AgentResources.Libres.Device
import AgentResources.Libres.Disk
import AgentResources.Libres.ProcessRead
import AgentResources.Libres.Ram

/-!
# The readers and the lines of their files

Five readers of `resources.cc` go through a file with `fgets`, and look for their entries in every
chunk. Each is compared here with the reader of the file's lines (`cpuReadAmd64Lines` and so on):
the two agree, and take every entry from the same place, iff each line is taken whole
(`readers_fromLines_iff`).

What a reader takes from a chunk is a list of entries, and the chunk has no other effect on it:
`amd64Line_eq`, `meminfoEntries_foldlM`, `statusLine_eq` and `osReleaseLine_eq`.
-/

namespace AgentResources

/-! ## Reading by lines -/

/-- `cpu_read_amd64` on the lines of the file. -/
def cpuReadAmd64Lines (h : Host) (out : SysCpu) : Except Halt (ℤ × SysCpu) :=
  match h.file .procCpuinfo with
  | none => .error .assertFailed
  | some text => do
    let out ← (Stream.lines text).foldlM amd64Line out
    return (errOk, out)

/-- `sys_ram_read` on the lines of the file. -/
def sysRamReadLines (h : Host) (out : ℕ) (s : Proc) : Except Halt (ℤ × Proc) :=
  if out = NULL then .error .assertFailed
  else
    match h.file .procMeminfo with
    | none => .error .assertFailed
    | some text => do
      let (tempArena, s) := arenaCreate h.toKernel (KiB 8) s
      let l ← (Stream.lines text).foldlM (meminfoLine tempArena) ⟨s, none, none⟩
      ramFinish tempArena out l

/-- `disk_read` on the lines of the file. -/
def diskReadLines (h : Host) (out arena : ℕ) (s : Proc) : Except Halt (ℤ × Proc) :=
  if out = NULL then .error .assertFailed
  else
    match h.file .procPartitions with
    | none => .error .assertFailed
    | some text => do
      let s ← ((Stream.lines text).filterMap partitionLine).foldlM
        (fun s p => diskPushPartition out p arena s) s
      return (errOk, s)

/-- `process_read` on the lines of the file. -/
def processReadLines (h : Host) (pid : Int32) (out : SysProc) : Except Halt (ℤ × SysProc) :=
  match h.file (.procStatus pid) with
  | none => .ok (errIo, out)
  | some text => do
    let out ← (Stream.lines text).foldlM statusLine { out with pid }
    if h.fclose (.procStatus pid) ≠ 0 then return (errIo, out)
    return (errOk, out)

/-- `device_read` on the lines of the file. -/
def deviceReadLines (h : Host) (out : SysDevice) : Except Halt (ℤ × SysDevice) :=
  match h.file .osRelease with
  | none => .ok (errIo, out)
  | some text => do
    let out ← (Stream.lines text).foldlM osReleaseLine out
    let (_, out) ← deviceUpTime h out
    return (errOk, out)

/-! ## What is taken from a chunk -/

variable {chunk : List UInt8}

/-- What `cpu_read_amd64` takes from a chunk. -/
inductive CpuinfoEntry
  | vendor (value : List UInt8)
  | model (value : List UInt8)
  | frequency (value : List UInt8)
  | cores (n : UInt32)
  deriving DecidableEq

/-- Store an entry in the struct. -/
def CpuinfoEntry.store (out : SysCpu) : CpuinfoEntry → Except Halt SysCpu
  | .vendor value => do return { out with vendor := ← copyInto out.vendor value }
  | .model value => do return { out with model := ← copyInto out.model value }
  | .frequency value => do return { out with frequency := ← copyInto out.frequency value }
  | .cores n => .ok { out with cores := n }

/-- The entries of a chunk of `/proc/cpuinfo`. -/
def cpuinfoEntries (chunk : List UInt8) : List CpuinfoEntry :=
  ((lineValue [32] [10] "vendor_id" chunk).map .vendor).toList ++
    ((lineValue [32] [10] "model name" chunk).map .model).toList ++
    ((lineValue [32] [10] "cpu MHz" chunk).map .frequency).toList ++
    if (ascii "cpu cores").isPrefixOf (cstr chunk) ∧ (afterColon [32] (cstr chunk)).isSome
    then [.cores (parseU64 (cstr chunk ++ [0]) buffLarge).toUInt32] else []

/-- Storing the value a chunk may have for a key is copying it if the chunk begins with the key. -/
theorem foldlM_store_lineValue {m : ℕ} {key : String} {val : List UInt8}
    (hval : afterColon [32] (cstr chunk) = some val) {entry : List UInt8 → CpuinfoEntry}
    {out : SysCpu} {field : Vector UInt8 m} (set : Vector UInt8 m → SysCpu)
    (hstore : ∀ value, (entry value).store out = copyInto field value >>= fun f => .ok (set f))
    (hset : set field = out) :
    ((lineValue [32] [10] key chunk).map entry).toList.foldlM CpuinfoEntry.store out =
      copyValue key (cstr chunk) (spanUntil [10] val) field >>= fun f => .ok (set f) := by
  rw [Except.foldlM_toList, lineValue, hval, copyValue]
  split
  · exact hstore _
  · rw [Except.ok_bind, hset]
    rfl

theorem amd64Line_eq (out : SysCpu) (chunk : List UInt8) :
    amd64Line out chunk = (cpuinfoEntries chunk).foldlM CpuinfoEntry.store out := by
  cases hval : afterColon [32] (cstr chunk) with
  | none =>
    simp [amd64Line, cpuinfoEntries, lineValue, hval]
    rfl
  | some val =>
    simp only [amd64Line, cpuinfoEntries, hval, List.foldlM_append, bind_assoc]
    -- the three strings in turn, then the count
    rw [foldlM_store_lineValue hval (fun f => { out with vendor := f }) (fun _ => rfl) rfl,
      bind_assoc]
    refine bind_congr fun vendor => ?_
    rw [Except.ok_bind, foldlM_store_lineValue hval
      (fun f => { out with vendor := vendor, model := f }) (fun _ => rfl) rfl, bind_assoc]
    refine bind_congr fun model => ?_
    rw [Except.ok_bind, foldlM_store_lineValue hval
      (fun f => { out with vendor := vendor, model := model, frequency := f }) (fun _ => rfl) rfl,
      bind_assoc]
    refine bind_congr fun frequency => ?_
    rw [Except.ok_bind, Except.foldlM_ite]
    by_cases hcores : (ascii "cpu cores").isPrefixOf (cstr chunk)
    · rw [if_pos hcores, if_pos ⟨hcores, rfl⟩]
      rfl
    · rw [if_neg hcores, if_neg fun h => hcores h.1]
      rfl

/-- What `sys_ram_read` takes from a chunk. -/
inductive MeminfoEntry
  | total (value : List UInt8)
  | free (value : List UInt8)
  deriving DecidableEq

/-- Store an entry in the locals. -/
def MeminfoEntry.store (tempArena : ℕ) (l : RamLocals) : MeminfoEntry → Except Halt RamLocals
  | .total value => setTotal tempArena value l
  | .free value => setFree tempArena value l

/-- The entries of a chunk of `/proc/meminfo`. -/
def meminfoEntries (chunk : List UInt8) : List MeminfoEntry :=
  ((lineValue [32] [107, 10] "MemTotal" chunk).map .total).toList ++
    ((lineValue [32] [107, 10] "MemFree" chunk).map .free).toList

theorem meminfoEntries_foldlM (tempArena : ℕ) (l : RamLocals) (chunk : List UInt8) :
    meminfoLine tempArena l chunk =
      (meminfoEntries chunk).foldlM (MeminfoEntry.store tempArena) l := by
  have helim : ∀ (entry : List UInt8 → MeminfoEntry) (v : Option (List UInt8)) (l : RamLocals),
      (v.map entry).toList.foldlM (MeminfoEntry.store tempArena) l =
        v.elim (.ok l) fun value => (entry value).store tempArena l := by
    intro entry v l
    rw [Except.foldlM_toList]
    cases v <;> rfl
  rw [meminfoLine_eq, meminfoEntries, List.foldlM_append, helim]
  exact bind_congr fun l' => (helim .free _ l').symm

/-- What `process_read` takes from a chunk. -/
inductive StatusEntry
  | name (value : List UInt8)
  | state (s : SysProcState)
  | threads (n : Int8)
  deriving DecidableEq

/-- Store an entry in the struct. -/
def StatusEntry.store (out : SysProc) : StatusEntry → Except Halt SysProc
  | .name value => do return { out with name := ← copyString out.name value }
  | .state s => .ok { out with state := s }
  | .threads n => .ok { out with numThreads := n }

/-- The entries of a chunk of `/proc/<pid>/status`. -/
def statusEntries (chunk : List UInt8) : List StatusEntry :=
  match afterColon [32, 9] (cstr chunk) with
  | none => []
  | some val =>
    (if (ascii "Name:").isPrefixOf (cstr chunk) then [.name (spanUntil [10] val)] else []) ++
      (if (ascii "State:").isPrefixOf (cstr chunk) then [.state (procState val)] else []) ++
      if (ascii "Threads:").isPrefixOf (cstr chunk)
      then [.threads (parseU64 (val ++ [0]) 8).toUInt8.toInt8] else []

theorem statusLine_eq (out : SysProc) (chunk : List UInt8) :
    statusLine out chunk = (statusEntries chunk).foldlM StatusEntry.store out := by
  cases hval : afterColon [32, 9] (cstr chunk) with
  | none =>
    simp only [statusLine, statusEntries, hval]
    rfl
  | some val =>
    simp only [statusLine, statusEntries, hval, List.foldlM_append, Except.foldlM_ite, bind_assoc]
    have hname : (if (ascii "Name:").isPrefixOf (cstr chunk)
        then StatusEntry.store out (.name (spanUntil [10] val)) else .ok out) =
        statusName out.name (cstr chunk) (spanUntil [10] val) >>= fun name =>
          .ok { out with name } := by
      unfold statusName
      split <;> rfl
    rw [hname, bind_assoc]
    refine bind_congr fun name => ?_
    -- the other two are not copied, so they cannot fail
    rw [Except.ok_bind]
    by_cases hstate : (ascii "State:").isPrefixOf (cstr chunk)
    · rw [if_pos hstate, if_pos hstate]
      split <;> rfl
    · rw [if_neg hstate, if_neg hstate]
      split <;> rfl

/-- The names of a chunk of `/etc/os-release` that fit the field. -/
def osReleaseEntries (chunk : List UInt8) : List (List UInt8) :=
  ((quotedName chunk).filter fun name => name.length < 256).toList

/-- Store a name in the struct. -/
def storeOsVersion (out : SysDevice) (name : List UInt8) : Except Halt SysDevice := do
  return { out with osVersion := ← copyString out.osVersion name }

theorem osReleaseLine_eq (out : SysDevice) (chunk : List UInt8) :
    osReleaseLine out chunk = (osReleaseEntries chunk).foldlM storeOsVersion out := by
  unfold osReleaseLine osReleaseEntries
  cases quotedName chunk with
  | none => rfl
  | some name =>
    by_cases hlt : name.length < 256
    · simp only [Option.filter, decide_true, Option.toList_some, List.foldlM_cons,
        List.foldlM_nil, hlt, if_true, bind_pure]
      rfl
    · simp only [Option.filter, hlt, decide_false, Bool.false_eq_true, if_false]
      rfl

/-- The partition of a chunk, as a list. -/
def partitionEntries (chunk : List UInt8) : List SysPartition := (partitionLine chunk).toList

/-! ## When the readers read lines -/

/-- A reader of `text` in chunks of a buffer of `size` bytes reads the lines: it takes the same
entries from the same places of the file, and its result is that of reading the lines. -/
def FromLines {β ρ : Type} (size : ℕ) (f : List UInt8 → List β) (text : List UInt8)
    (result ofLines : ρ) : Prop :=
  Stream.scan f 0 (Stream.chunks size text) = Stream.scan f 0 (Stream.lines text) ∧
    result = ofLines

/-- A reader whose result depends only on the entries it takes reads the lines iff each is taken
whole. -/
theorem fromLines_iff {β ρ : Type} {size : ℕ} {f : List UInt8 → List β} {text : List UInt8}
    {result ofLines : ρ} (hsize : 2 ≤ size)
    (hresult : (Stream.chunks size text).flatMap f = (Stream.lines text).flatMap f →
      result = ofLines) :
    FromLines size f text result ofLines ↔
      ∀ line ∈ Stream.lines text, Stream.TakenWhole size f line := by
  rw [FromLines, Stream.scan_chunks_eq_iff hsize, and_iff_left_iff_imp]
  intro hwhole
  -- the same entries from the same places are the same entries
  have hscan := (Stream.scan_chunks_eq_iff hsize 0).mpr hwhole
  apply hresult
  rw [← Stream.map_snd_scan 0, hscan, Stream.map_snd_scan]

/-- A loop whose body stores the entries of each chunk stores the entries of all of them. -/
theorem foldlM_eq_foldlM_flatMap {β σ : Type} {f : List UInt8 → List β}
    {step : σ → List UInt8 → Except Halt σ} {store : σ → β → Except Halt σ}
    (hstep : ∀ s chunk, step s chunk = (f chunk).foldlM store s) (chunks : List (List UInt8))
    (s : σ) : chunks.foldlM step s = (chunks.flatMap f).foldlM store s := by
  induction chunks generalizing s with
  | nil => rfl
  | cons chunk chunks ih =>
    rw [List.foldlM_cons, List.flatMap_cons, List.foldlM_append, hstep]
    exact bind_congr fun s' => ih s'

variable {h : Host} {text : List UInt8}

theorem cpuReadAmd64_fromLines_iff (hfile : h.file .procCpuinfo = some text) (out : SysCpu) :
    FromLines buffLarge cpuinfoEntries text (cpuReadAmd64 h out) (cpuReadAmd64Lines h out) ↔
      ∀ line ∈ Stream.lines text, Stream.TakenWhole buffLarge cpuinfoEntries line := by
  refine fromLines_iff (by decide) fun hentries => ?_
  simp only [cpuReadAmd64, cpuReadAmd64Lines, hfile, foldlM_eq_foldlM_flatMap amd64Line_eq,
    hentries]

theorem sysRamRead_fromLines_iff (hfile : h.file .procMeminfo = some text) (out : ℕ) (s : Proc) :
    FromLines buffSmall meminfoEntries text (sysRamRead h out s) (sysRamReadLines h out s) ↔
      ∀ line ∈ Stream.lines text, Stream.TakenWhole buffSmall meminfoEntries line := by
  refine fromLines_iff (by decide) fun hentries => ?_
  have hfold : ∀ (tempArena : ℕ) (l : RamLocals) (chunks : List (List UInt8)),
      chunks.foldlM (meminfoLine tempArena) l =
        (chunks.flatMap meminfoEntries).foldlM (MeminfoEntry.store tempArena) l :=
    fun tempArena l chunks => foldlM_eq_foldlM_flatMap (meminfoEntries_foldlM tempArena) chunks l
  by_cases hnull : out = NULL
  · simp only [sysRamRead, sysRamReadLines, if_pos hnull]
  · rw [sysRamRead_of_file hnull hfile, sysRamReadLines, if_neg hnull, hfile]
    dsimp only
    rw [hfold, hfold, hentries]

theorem diskRead_fromLines_iff (hfile : h.file .procPartitions = some text) (out arena : ℕ)
    (s : Proc) :
    FromLines buffDefault partitionEntries text (diskRead h out arena s)
        (diskReadLines h out arena s) ↔
      ∀ line ∈ Stream.lines text, Stream.TakenWhole buffDefault partitionEntries line := by
  refine fromLines_iff (by decide) fun hentries => ?_
  have hfilter : ∀ chunks : List (List UInt8),
      chunks.filterMap partitionLine = chunks.flatMap partitionEntries :=
    fun chunks => List.filterMap_eq_flatMap_toList partitionLine chunks
  simp only [diskRead, diskReadLines, hfile, hfilter, hentries]

theorem processRead_fromLines_iff {pid : Int32} (hfile : h.file (.procStatus pid) = some text)
    (out : SysProc) :
    FromLines buffLarge statusEntries text (processRead h pid out) (processReadLines h pid out) ↔
      ∀ line ∈ Stream.lines text, Stream.TakenWhole buffLarge statusEntries line := by
  refine fromLines_iff (by decide) fun hentries => ?_
  simp only [processRead, processReadLines, hfile, foldlM_eq_foldlM_flatMap statusLine_eq, hentries]

theorem deviceRead_fromLines_iff (hfile : h.file .osRelease = some text) (out : SysDevice) :
    FromLines buffDefault osReleaseEntries text (deviceRead h out) (deviceReadLines h out) ↔
      ∀ line ∈ Stream.lines text, Stream.TakenWhole buffDefault osReleaseEntries line := by
  refine fromLines_iff (by decide) fun hentries => ?_
  simp only [deviceRead, deviceReadLines, hfile, foldlM_eq_foldlM_flatMap osReleaseLine_eq,
    hentries]

/-- The five readers read the lines of their files. -/
def ReadersFromLines (h : Host) : Prop :=
  (∀ text ∈ h.file .procCpuinfo, ∀ out,
    FromLines buffLarge cpuinfoEntries text (cpuReadAmd64 h out) (cpuReadAmd64Lines h out)) ∧
  (∀ text ∈ h.file .procMeminfo, ∀ out s,
    FromLines buffSmall meminfoEntries text (sysRamRead h out s) (sysRamReadLines h out s)) ∧
  (∀ text ∈ h.file .procPartitions, ∀ out arena s,
    FromLines buffDefault partitionEntries text (diskRead h out arena s)
      (diskReadLines h out arena s)) ∧
  (∀ pid, ∀ text ∈ h.file (.procStatus pid), ∀ out,
    FromLines buffLarge statusEntries text (processRead h pid out) (processReadLines h pid out)) ∧
  ∀ text ∈ h.file .osRelease, ∀ out,
    FromLines buffDefault osReleaseEntries text (deviceRead h out) (deviceReadLines h out)

/-- A reader reads the lines of its file iff each line is taken whole. -/
theorem readers_fromLines_iff (h : Host) :
    (∀ text ∈ h.file .procCpuinfo, ∀ out,
      (FromLines buffLarge cpuinfoEntries text (cpuReadAmd64 h out) (cpuReadAmd64Lines h out) ↔
        ∀ line ∈ Stream.lines text, Stream.TakenWhole buffLarge cpuinfoEntries line)) ∧
    (∀ text ∈ h.file .procMeminfo, ∀ out s,
      (FromLines buffSmall meminfoEntries text (sysRamRead h out s) (sysRamReadLines h out s) ↔
        ∀ line ∈ Stream.lines text, Stream.TakenWhole buffSmall meminfoEntries line)) ∧
    (∀ text ∈ h.file .procPartitions, ∀ out arena s,
      (FromLines buffDefault partitionEntries text (diskRead h out arena s)
          (diskReadLines h out arena s) ↔
        ∀ line ∈ Stream.lines text, Stream.TakenWhole buffDefault partitionEntries line)) ∧
    (∀ pid, ∀ text ∈ h.file (.procStatus pid), ∀ out,
      (FromLines buffLarge statusEntries text (processRead h pid out)
          (processReadLines h pid out) ↔
        ∀ line ∈ Stream.lines text, Stream.TakenWhole buffLarge statusEntries line)) ∧
    ∀ text ∈ h.file .osRelease, ∀ out,
      (FromLines buffDefault osReleaseEntries text (deviceRead h out) (deviceReadLines h out) ↔
        ∀ line ∈ Stream.lines text, Stream.TakenWhole buffDefault osReleaseEntries line) :=
  ⟨fun _ hfile => cpuReadAmd64_fromLines_iff hfile,
    fun _ hfile => sysRamRead_fromLines_iff hfile,
    fun _ hfile => diskRead_fromLines_iff hfile,
    fun _ _ hfile => processRead_fromLines_iff hfile,
    fun _ hfile => deviceRead_fromLines_iff hfile⟩

/-- A line longer than the buffers, with a name behind its first 255 bytes. -/
def longLine : List UInt8 := List.replicate 255 120 ++ ascii "NAME=\"a\"\n"

/-- Only the reader of the names of the system takes something from the middle of the long line. -/
theorem readers_fromLines_iff_longLine :
    let h := hostOf longLine
    let cpu : SysCpu := ⟨0, 0, 0, 0, .replicate _ 0, .replicate _ 0, .replicate _ 0⟩
    let proc : SysProc := ⟨.replicate _ 0, 0, 0, 0, 0, .undefined⟩
    let device : SysDevice := ⟨.replicate _ 0, .replicate _ 0, (0, 0, 0), 0⟩
    FromLines buffLarge cpuinfoEntries longLine (cpuReadAmd64 h cpu) (cpuReadAmd64Lines h cpu) ∧
    FromLines buffSmall meminfoEntries longLine (sysRamRead h 8 Proc.fresh)
      (sysRamReadLines h 8 Proc.fresh) ∧
    FromLines buffDefault partitionEntries longLine (diskRead h 8 4096 Proc.fresh)
      (diskReadLines h 8 4096 Proc.fresh) ∧
    FromLines buffLarge statusEntries longLine (processRead h 1 proc) (processReadLines h 1 proc) ∧
    ¬ FromLines buffDefault osReleaseEntries longLine (deviceRead h device)
      (deviceReadLines h device) := by
  intro h cpu proc device
  obtain ⟨hcpu, hram, hdisk, hproc, hdevice⟩ := readers_fromLines_iff h
  refine ⟨(hcpu longLine rfl cpu).mpr ?_, (hram longLine rfl 8 Proc.fresh).mpr ?_,
    (hdisk longLine rfl 8 4096 Proc.fresh).mpr ?_, (hproc 1 longLine rfl proc).mpr ?_,
    (hdevice longLine rfl device).not.mpr ?_⟩
  · decide +kernel
  · decide +kernel
  · decide +kernel
  · decide +kernel
  · decide +kernel

/-- After 255 bytes of a line, what follows is taken for a line: here a name of the system. -/
theorem not_readers_fromLines : ¬ ∀ h : Host, ReadersFromLines h := by
  intro hall
  obtain ⟨-, -, -, -, hdevice⟩ := hall (hostOf longLine)
  have heq := (hdevice longLine rfl
    ⟨.replicate _ 0, .replicate _ 0, (0, 0, 0), 0⟩).2
  have hname := congrArg (fun r => r.toOption.map fun d => d.2.osVersion[0]) heq
  exact absurd hname (by decide +kernel)

end AgentResources
