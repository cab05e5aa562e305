import AgentResources.Foundations.MappedParts
import AgentResources.Grpc.ResourceHandler
import AgentResources.Libres.CpuReadable

/-!
# What the resource handlers answer

The handlers without their memory. An outcome is the response of a handler that returns and the
mappings it leaves; which one it is depends on the files, the clock and the answers of the kernel
only. The handlers carry these outcomes out (`getSystemResourcesImpl_refines`, `getCpuImpl_refines`,
`getRamImpl_refines`), from any memory.

The structs are the first blocks of a fresh arena, so they are zeroed and lie in a row. `Structs`
says what the first two hold while the collectors run; each collector changes its own struct, and
what reading the partitions allocates lies behind all four. No collector leaves the mapping of the
arena (`Within`).
-/

namespace AgentResources

/-- A response and the mappings that are left. -/
abbrev Outcome := Response × List Mapping

/-- The mappings with a new arena among them, if the kernel grants it. -/
def mapArena (k : Kernel) (capacity : UInt64) (maps : List Mapping) : Option (List Mapping) :=
  (k.mmap maps (mappingLen capacity)).map fun a => ⟨a, a + pageRound (mappingLen capacity)⟩ :: maps

/-- The mapping of an arena of 8 MiB. -/
def requestMapping (a : ℕ) : Mapping := arenaMapping a (MiB 8)

/-- The struct `cpu_read` makes of a zeroed one. -/
def cpuOf (arch : Arch) (h : Host) : Option SysCpu :=
  (cpuRead arch h SysCpu.zero).toOption.map (·.2)

/-- The message filled from a struct. -/
def cpuMessageOf (cpu : SysCpu) : Option CpuMessage := (setCpu cpu).toOption

/-- The struct `sys_ram_read` fills. -/
def memoryOf (h : Host) (maps : List Mapping) : Option SysMemory := do
  let text ← h.file .procMeminfo
  let _ ← h.mmap maps (mappingLen (KiB 8))
  guard (meminfoValues "MemTotal" text ≠ [] ∧ meminfoValues "MemFree" text ≠ [] ∧
    totalLength (meminfoValues "MemTotal" text) + totalLength (meminfoValues "MemFree" text) ≤ 8192)
  return ramOf text

/-- The code `disk_read` returns. -/
def diskCodeOf (h : Host) : Option ℤ := (h.file .procPartitions).map fun _ => errOk

/-- The code `device_read` returns. -/
def deviceCodeOf (h : Host) : Option ℤ :=
  match h.file .osRelease with
  | none => some errIo
  | some _ => do
    let text ← h.file .procUptime
    let _ ← Scanf.scanLd text
    return errOk

/-- The outcome of `get_system_resources_impl`. -/
def systemOutcome (arch : Arch) (h : Host) (ctx : ServerContext) (maps : List Mapping) :
    Option Outcome :=
  if ctx.isCancelled then some (cancelledResponse, maps)
  else if ctx.deadline < h.now 0 then some (deadlineResponse [], maps)
  else do
    let mapped ← mapArena h.toKernel (MiB 8) maps
    let cpu ← cpuOf arch h
    if ctx.deadline < h.now 1 then return (deadlineResponse [errOk], mapped)
    let memory ← memoryOf h mapped
    if ctx.deadline < h.now 2 then return (deadlineResponse [errOk, errOk], mapped)
    let diskCode ← diskCodeOf h
    if ctx.deadline < h.now 3 then return (deadlineResponse [errOk, errOk, diskCode], mapped)
    let deviceCode ← deviceCodeOf h
    let codes := [errOk, errOk, diskCode, deviceCode]
    if ctx.deadline < h.now 4 then return (deadlineResponse codes, mapped)
    let msg ← cpuMessageOf cpu
    return (⟨⟨.ok, ""⟩, ⟨some msg, some (setMemory memory)⟩, codes⟩, maps)

/-- The outcome of `get_cpu_impl`. -/
def cpuOutcome (arch : Arch) (h : Host) (ctx : ServerContext) (maps : List Mapping) :
    Option Outcome :=
  if ctx.isCancelled then some (cancelledResponse, maps)
  else if ctx.deadline < h.now 0 then some (deadlineResponse [], maps)
  else do
    let _ ← mapArena h.toKernel (MiB 8) maps
    let cpu ← cpuOf arch h
    let msg ← cpuMessageOf cpu
    return (⟨⟨.ok, ""⟩, ⟨some msg, none⟩, [errOk]⟩, maps)

/-- The outcome of `get_ram_impl`. -/
def ramOutcome (h : Host) (ctx : ServerContext) (maps : List Mapping) : Option Outcome :=
  if ctx.isCancelled then some (cancelledResponse, maps)
  else if ctx.deadline < h.now 0 then some (deadlineResponse [], maps)
  else do
    let mapped ← mapArena h.toKernel (MiB 8) maps
    let memory ← memoryOf h mapped
    return (⟨⟨.ok, ""⟩, ⟨none, some (setMemory memory)⟩, [errOk]⟩, maps)

/-- The process a handler leaves shows the outcome. -/
def Shows (r : Response × Proc) (o : Outcome) : Prop := r.1 = o.1 ∧ r.2.maps = o.2

variable {arch : Arch} {h : Host} {ctx : ServerContext} {s s' : Proc} {a n : ℕ}
  {maps : List Mapping} {cpu : SysCpu} {memory : SysMemory}

/-! ## What the files give -/

/-- There is a struct of the processors iff their files can be read. -/
theorem cpuOf_isSome : (cpuOf arch h).isSome ↔ CpuReadable arch h := by
  rw [← (cpuRead_returns arch).1, cpuOf]
  cases cpuRead arch h SysCpu.zero <;> simp [Except.toOption]

/-- What the collector of the processors leaves: no times, and strings if the values are short. -/
theorem cpuOf_eq_some (hcpu : cpuOf arch h = some cpu) :
    cpu.totalTime = 0 ∧ cpu.idleTime = 0 ∧ (cpu.Terminated ↔ CpuStrings arch h) := by
  have hread := (cpuRead_returns (h := h) arch).2
  unfold cpuOf at hcpu
  cases hrun : cpuRead arch h SysCpu.zero with
  | error e => simp [hrun, Except.toOption] at hcpu
  | ok r =>
    obtain rfl : r.2 = cpu := by simpa [hrun, Except.toOption] using hcpu
    exact (hread r hrun).2

/-- A message can be filled iff all strings end within their fields. -/
theorem cpuMessageOf_isSome : (cpuMessageOf cpu).isSome ↔ cpu.Terminated := by
  have hset : ∀ {n : ℕ} (field : Vector UInt8 n), (∃ str, setString field = .ok str) ↔
      NulTerminated field := by
    intro n field
    rw [← fieldString_isSome, setString]
    cases fieldString field <;> simp
  simp only [SysCpu.Terminated, ← hset, cpuMessageOf, setCpu]
  cases setString cpu.vendor <;> cases setString cpu.model <;>
    cases setString cpu.frequency <;> simp [Except.toOption, pure, Except.pure]

/-- The message has the times of the struct. -/
theorem cpuMessageOf_eq_some {msg : CpuMessage} (hmsg : cpuMessageOf cpu = some msg) :
    msg.totalTime = cpu.totalTime ∧ msg.idleTime = cpu.idleTime := by
  unfold cpuMessageOf at hmsg
  cases hset : setCpu cpu with
  | error e => simp [hset, Except.toOption] at hmsg
  | ok msg' =>
    obtain rfl : msg' = msg := by simpa [hset, Except.toOption] using hmsg
    simp only [setCpu, Except.bind_eq_ok, pure, Except.pure, Except.ok.injEq] at hset
    obtain ⟨_, -, _, -, _, -, rfl⟩ := hset
    exact ⟨rfl, rfl⟩

/-- There is a struct of the memory iff its file can be read. -/
theorem memoryOf_isSome : (memoryOf h maps).isSome ↔ RamReadable h maps := by
  unfold memoryOf RamReadable
  cases h.file .procMeminfo with
  | none => simp
  | some text =>
    cases h.mmap maps (mappingLen (KiB 8)) with
    | none => simp
    | some a =>
      simp only [Option.bind_eq_bind, Option.bind_some, Option.some.injEq, exists_eq_left',
        Option.isSome_some, true_and]
      unfold guard
      split
      · next hroom => exact iff_of_true rfl hroom
      · next hroom => exact iff_of_false (by simp) hroom

/-- It holds the two numbers of the file. -/
theorem memoryOf_eq_some (hmemory : memoryOf h maps = some memory) :
    ∃ text, h.file .procMeminfo = some text ∧ memory = ramOf text := by
  simp only [memoryOf, Option.bind_eq_bind, Option.bind_eq_some_iff] at hmemory
  obtain ⟨text, hfile, _, -, _, -, hret⟩ := hmemory
  exact ⟨text, hfile, (Option.some.inj hret).symm⟩

/-- The device is read unless the uptime is looked for and cannot be read. -/
theorem deviceCodeOf_isSome :
    (deviceCodeOf h).isSome ↔ (h.file .osRelease ≠ none → UptimeReadable h) := by
  unfold deviceCodeOf UptimeReadable
  cases h.file .osRelease with
  | none => simp
  | some _ =>
    cases h.file .procUptime with
    | none => simp
    | some text => cases hscan : Scanf.scanLd text <;> simp [hscan]

/-- Its collector fails iff there is no `os-release`. -/
theorem deviceCodeOf_eq_some {code : ℤ} (hcode : deviceCodeOf h = some code) :
    code = if h.file .osRelease = none then errIo else errOk := by
  unfold deviceCodeOf at hcode
  cases hfile : h.file .osRelease with
  | none => simpa [hfile, eq_comm] using hcode
  | some _ =>
    simp only [hfile, Option.bind_eq_bind, Option.bind_eq_some_iff] at hcode
    obtain ⟨_, -, _, -, hret⟩ := hcode
    rw [if_neg (by simp)]
    exact (Option.some.inj hret).symm

/-! ## The structs in the arena -/

/-- An arena of which the first `n` bytes are handed out and zeroed. -/
structure FreshArena (a : ℕ) (maps : List Mapping) (n : ℕ) (s : Proc) : Prop where
  arenaAt : ArenaAt a (MiB 8) s
  position_eq : position a s = n
  maps_eq : s.maps = maps
  zeroed : ∀ x ∈ Set.Ico (arenaBase a) (arenaBase a + n), s.mem.byte x = 0

/-- A new arena has handed out nothing. -/
theorem freshArena_create {k : Kernel} (hgrant : k.mmap s.maps (mappingLen (MiB 8)) = some a) :
    ∃ s', arenaCreate k (MiB 8) s = (a, s') ∧
      FreshArena a (requestMapping a :: s.maps) 0 s' := by
  obtain ⟨ha, -, hmaps, -⟩ := arenaCreate_of_granted hgrant
  obtain ⟨hat, hpos⟩ := arenaAt_of_granted hgrant
  refine ⟨_, Prod.ext ha rfl, hat, hpos, hmaps, fun x hx => ?_⟩
  rw [Nat.add_zero, Set.Ico_self] at hx
  exact hx.elim

/-- Another struct is handed out behind those that are there. -/
theorem FreshArena.alloc (hs : FreshArena a maps n s) (size : UInt64)
    (hroom : n + size.toNat ≤ 8388608) :
    ∃ s', arenaAlloc a size s = .ok (arenaBase a + n, s') ∧
      FreshArena a maps (n + size.toNat) s' := by
  have hcap : (MiB 8).toNat = 8388608 := by decide
  have hpos := hs.position_eq
  have hfits : HasRoom a (MiB 8) s size.toNat :=
    hs.arenaAt.hasRoom (by decide) (by rw [hpos, hcap]; exact hroom)
  have halloc := hs.arenaAt.alloc_eq hfits
  rw [hpos] at halloc
  refine ⟨_, halloc, hs.arenaAt.of_allocMem hfits, ?_, ?_, fun x hx => ?_⟩
  · rw [hs.arenaAt.position_allocMem hfits, hpos]
  · rw [Proc.maps_withMem]
    exact hs.maps_eq
  · rw [Proc.mem_withMem]
    rw [Set.mem_Ico] at hx
    by_cases hnew : arenaBase a + n ≤ x
    · refine hs.arenaAt.load_allocMem size ?_
      rw [hpos, Set.mem_Ico]
      omega
    · -- a byte handed out before
      rw [hs.arenaAt.allocMem_eqOn size]
      · exact hs.zeroed x ⟨hx.1, Nat.not_le.mp hnew⟩
      · have hbase := hx.1
        simp only [arenaBase, sizeofMemArena] at hbase hnew
        rw [hpos, Set.compl_union, Set.mem_inter_iff, Set.mem_compl_iff, Set.mem_compl_iff,
          Set.mem_Ico, Set.mem_Ico]
        simp only [arenaBase, sizeofMemArena]
        omega

/-- A struct read from the zeroed part is the zero of its type. -/
theorem FreshArena.loadAs_eq {α : Type} [Layout α] (hs : FreshArena a maps n s) (d : ℕ)
    (hd : d + Layout.size α ≤ n) :
    s.mem.loadAs α (arenaBase a + d) = Layout.decode (List.replicate (Layout.size α) 0) := by
  refine Memory.loadAs_of_zero fun x hx => hs.zeroed x ⟨?_, ?_⟩
  · exact (Nat.le_add_right _ _).trans hx.1
  · calc x < arenaBase a + d + Layout.size α := hx.2
      _ ≤ arenaBase a + n := by omega

/-- A zeroed struct of the processors. -/
theorem decode_zero_sysCpu :
    Layout.decode (α := SysCpu) (List.replicate (Layout.size SysCpu) 0) = SysCpu.zero := by
  decide +kernel

/-- The mapping of the arena has room for more than the structs. -/
theorem arenaBase_lt_top (a : ℕ) : arenaBase a + 704 < a + pageRound (mappingLen (MiB 8)) := by
  have hlen : mappingLen (MiB 8) = 8388640 := by decide
  calc arenaBase a + 704 < a + mappingLen (MiB 8) := by
        rw [hlen, arenaBase, sizeofMemArena]
        omega
    _ ≤ a + pageRound (mappingLen (MiB 8)) := Nat.add_le_add_left (le_pageRound _) a

/-- A range of the structs lies in the mapping of the arena. -/
theorem range_subset_requestMapping {lo n : ℕ} (hlo : a ≤ lo) (hhi : lo + n ≤ arenaBase a + 704) :
    Memory.range lo n ⊆ Set.Ico (requestMapping a).lo (requestMapping a).hi := by
  have htop := arenaBase_lt_top a
  exact Set.Ico_subset_Ico hlo (hhi.trans htop.le)

theorem le_arenaBase (a : ℕ) : a ≤ arenaBase a := Nat.le_add_right _ _

/-- What the collectors keep: a well-formed partition list in the third struct, and what the first
two structs hold. -/
structure Structs (a : ℕ) (cpu : SysCpu) (memory : SysMemory) (s : Proc) : Prop where
  disk : DiskInv a (arenaBase a + 136) (arenaBase a + 704) (MiB 8) s
  cpu_eq : s.mem.loadAs SysCpu (arenaBase a) = cpu
  memory_eq : s.mem.loadAs SysMemory (arenaBase a + 120) = memory

/-- A list is well formed by the header and its struct. -/
theorem DiskInv.of_eqOn {ptr lo : ℕ} {capacity : UInt64} (hinv : DiskInv a ptr lo capacity s)
    (hmapping : arenaMapping a capacity ∈ s'.maps)
    (hheader : Set.EqOn s'.mem.byte s.mem.byte (Memory.range a sizeofMemArena))
    (hdisk : Set.EqOn s'.mem.byte s.mem.byte (Memory.range ptr 24)) :
    DiskInv a ptr lo capacity s' := by
  have hmem := memArena_eq_of_eqOn hheader
  have hpos : position a s' = position a s := by rw [position, position, hmem]
  have hload : s'.mem.loadAs SysDisk ptr = s.mem.loadAs SysDisk ptr :=
    Memory.loadAs_eq_of_eqOn hdisk
  refine ⟨hinv.arenaAt.of_mem_maps hmapping hmem, ?_, ?_, ?_⟩
  · rw [hpos]
    exact hinv.lo_le
  · rw [hload]
    exact hinv.count_le
  · rw [hload, hpos]
    exact hinv.array

/-- The structs are known by the bytes of the arena. -/
theorem Structs.of_eqOn (hs : Structs a cpu memory s) (hmapping : requestMapping a ∈ s'.maps)
    (heq : Set.EqOn s'.mem.byte s.mem.byte (Set.Ico (requestMapping a).lo (requestMapping a).hi)) :
    Structs a cpu memory s' := by
  have hle := le_arenaBase a
  have hsub : ∀ {d k}, d + k ≤ 704 → Memory.range (arenaBase a + d) k ⊆
      Set.Ico (requestMapping a).lo (requestMapping a).hi :=
    fun hd => range_subset_requestMapping (by omega) (by omega)
  refine ⟨hs.disk.of_eqOn hmapping (heq.mono ?_) (heq.mono (hsub (by decide))), ?_, ?_⟩
  · exact range_subset_requestMapping le_rfl (by simp only [arenaBase, sizeofMemArena]; omega)
  · rw [← hs.cpu_eq]
    exact Memory.loadAs_eq_of_eqOn (heq.mono (hsub (d := 0) (by decide)))
  · rw [← hs.memory_eq]
    exact Memory.loadAs_eq_of_eqOn (heq.mono (hsub (by decide)))

/-- The four structs at the start of a fresh arena. -/
theorem FreshArena.structs (hs : FreshArena a maps 704 s) : Structs a SysCpu.zero ⟨0, 0⟩ s := by
  have hcpu : s.mem.loadAs SysCpu (arenaBase a) = SysCpu.zero :=
    (hs.loadAs_eq 0 (by decide)).trans decode_zero_sysCpu
  have hmemory : s.mem.loadAs SysMemory (arenaBase a + 120) = ⟨0, 0⟩ :=
    (hs.loadAs_eq 120 (by decide)).trans (by decide +kernel)
  have hdisk : s.mem.loadAs SysDisk (arenaBase a + 136) = ⟨0, 0, 0⟩ :=
    (hs.loadAs_eq 136 (by decide)).trans (by decide +kernel)
  refine ⟨⟨hs.arenaAt, ?_, ?_, ?_⟩, hcpu, hmemory⟩
  · rw [hs.position_eq]
  · rw [hdisk]
    exact UInt64.le_refl _
  · rw [hdisk]
    exact .inl rfl

/-- The arena of a call whose only struct holds `v`. -/
structure HoldsStruct {α : Type} [Layout α] (a : ℕ) (v : α) (s : Proc) : Prop where
  arenaAt : ArenaAt a (MiB 8) s
  load_eq : s.mem.loadAs α (arenaBase a) = v

/-- The struct is known by the bytes of the arena. -/
theorem HoldsStruct.of_eqOn {α : Type} [Layout α] {v : α} (hs : HoldsStruct a v s)
    (hsize : Layout.size α ≤ 704) (hmapping : requestMapping a ∈ s'.maps)
    (heq : Set.EqOn s'.mem.byte s.mem.byte (Set.Ico (requestMapping a).lo (requestMapping a).hi)) :
    HoldsStruct a v s' := by
  refine ⟨hs.arenaAt.of_mem_maps hmapping (memArena_eq_of_eqOn
    (heq.mono (range_subset_requestMapping le_rfl
      (by simp only [arenaBase, sizeofMemArena]; omega)))), ?_⟩
  rw [← hs.load_eq]
  exact Memory.loadAs_eq_of_eqOn
    (heq.mono (range_subset_requestMapping (le_arenaBase a) (by omega)))

/-- The first struct of a fresh arena is zeroed. -/
theorem FreshArena.holdsStruct_cpu (hs : FreshArena a s.maps 120 s) :
    HoldsStruct a SysCpu.zero s :=
  ⟨hs.arenaAt, (hs.loadAs_eq 0 (by decide)).trans decode_zero_sysCpu⟩

/-! ## The collectors on the structs -/

/-- A collector on a struct in memory is the collector on its value. -/
theorem onStruct_eq {α : Type} [Layout α] {reader : α → Except Halt (ℤ × α)} {p : ℕ}
    (hp : p ≠ NULL) : onStruct reader p s = reader (s.mem.loadAs α p) >>= fun r =>
      .ok (r.1, s.withMem (s.mem.storeAs p r.2)) := by
  rw [onStruct, if_neg hp]
  rfl

theorem arenaBase_ne_null (a : ℕ) : arenaBase a ≠ NULL := arenaBase_add_ne_null a 0

/-- The collector of the processors changes its struct only. -/
theorem cpuRead_refines {p : ℕ} (hp : p ≠ NULL) (hzero : s.mem.loadAs SysCpu p = SysCpu.zero) :
    Except.Refines (fun r cpu => r.1 = errOk ∧ r.2 = s.withMem (s.mem.storeAs p cpu))
      (onStruct (cpuRead arch h) p s) (cpuOf arch h) := by
  have hcode := (cpuRead_returns (h := h) arch).2
  rw [onStruct_eq hp, hzero, cpuOf]
  cases hrun : cpuRead arch h SysCpu.zero with
  | error e => exact .error e
  | ok r => exact .ok ⟨(hcode r hrun).1, rfl⟩

/-- The collector of the memory changes its struct only: the scratch arena is gone again. -/
theorem sysRamRead_refines {out : ℕ} (hne : out ≠ NULL) (hmaps : s.WellMapped)
    (hout : ∃ r ∈ s.maps, r.lo ≤ out ∧ out + 16 ≤ r.hi) :
    Except.Refines (fun r memory => r.1 = errOk ∧ Kept out 16 s r.2 ∧
      r.2.mem.loadAs SysMemory out = memory) (sysRamRead h out s) (memoryOf h s.maps) := by
  refine .of_returns (sysRamRead_returns hne hmaps hout) memoryOf_isSome.symm ?_
  rintro r memory hmemory ⟨hcode, hkept, hload⟩
  obtain ⟨text, hfile, rfl⟩ := memoryOf_eq_some hmemory
  exact ⟨hcode, hkept, hload text hfile⟩

/-- With an arena among them the mappings are still ranges. -/
theorem wellMapped_cons (hmaps : ∀ r ∈ maps, r.lo < r.hi)
    (hs : s.maps = requestMapping a :: maps) : s.WellMapped := by
  have htop := arenaBase_lt_top a
  intro r hr
  rw [hs] at hr
  rcases List.mem_cons.mp hr with rfl | hr
  · exact (Nat.le_add_right _ _).trans_lt ((Nat.le_add_right _ _).trans_lt htop)
  · exact hmaps r hr

/-- A step that touches no mapping but that of the arena. -/
structure Within (a : ℕ) (s s' : Proc) : Prop where
  maps_eq : s'.maps = s.maps
  eqOn : ∀ r ∈ s.maps, (requestMapping a).Apart r →
    Set.EqOn s'.mem.byte s.mem.byte (Set.Ico r.lo r.hi)

/-- A step that changes bytes of the arena only. -/
theorem Within.of_eqOn {S : Set ℕ} (hmaps : s'.maps = s.maps)
    (heq : Set.EqOn s'.mem.byte s.mem.byte Sᶜ)
    (hS : S ⊆ Set.Ico (requestMapping a).lo (requestMapping a).hi) : Within a s s' where
  maps_eq := hmaps
  eqOn r _ hapart := by
    refine heq.mono fun x hx => ?_
    rw [Set.mem_compl_iff]
    intro hxS
    have hxa := hS hxS
    rw [Set.mem_Ico] at hx hxa
    unfold Mapping.Apart at hapart
    omega

/-- The processors are read into the only struct of an arena. -/
theorem HoldsStruct.cpuRead (hs : HoldsStruct a SysCpu.zero s) :
    Except.Refines (fun r cpu => r.1 = errOk ∧ Within a s r.2 ∧ HoldsStruct a cpu r.2)
      (onStruct (AgentResources.cpuRead arch h) (arenaBase a) s) (cpuOf arch h) := by
  refine (cpuRead_refines (arenaBase_ne_null a) hs.load_eq).imp ?_
  rintro r cpu ⟨hcode, hproc⟩
  have hstore := s.mem.storeAs_eqOn (arenaBase a) cpu
  rw [hproc]
  refine ⟨hcode, .of_eqOn rfl hstore ?_, ?_, ?_⟩
  · exact range_subset_requestMapping (le_arenaBase a) (Nat.add_le_add_left (by decide) _)
  · exact hs.arenaAt.of_eqOn (Proc.maps_withMem _ _)
      (hstore.mono (Memory.range_subset_compl (.inl le_rfl)))
  · rw [Proc.mem_withMem, Memory.loadAs_storeAs]

/-- Reading the memory into a struct within the arena. -/
theorem within_sysRamRead {d : ℕ} (hd : d + 16 ≤ 704) (hwell : s.WellMapped)
    (ha : requestMapping a ∈ s.maps) :
    Except.Refines (fun r memory => r.1 = errOk ∧ Within a s r.2 ∧
        Kept (arenaBase a + d) 16 s r.2 ∧ r.2.mem.loadAs SysMemory (arenaBase a + d) = memory)
      (AgentResources.sysRamRead h (arenaBase a + d) s) (memoryOf h s.maps) := by
  have htop := arenaBase_lt_top a
  have hle := le_arenaBase a
  have hout : ∃ r ∈ s.maps, r.lo ≤ arenaBase a + d ∧ arenaBase a + d + 16 ≤ r.hi :=
    ⟨_, ha, by dsimp only [requestMapping, arenaMapping]; omega,
      by dsimp only [requestMapping, arenaMapping]; omega⟩
  refine (sysRamRead_refines (arenaBase_add_ne_null a d) hwell hout).imp ?_
  rintro r memory ⟨hcode, hkept, hload⟩
  refine ⟨hcode, ⟨hkept.maps_eq, fun q hq hapart => ?_⟩, hkept, hload⟩
  -- the struct that is written is not in another mapping
  refine (hkept.eqOn q hq).mono fun x hx => ?_
  refine ⟨hx, fun hxout => ?_⟩
  rw [Set.mem_Ico] at hx hxout
  dsimp only [Mapping.Apart, requestMapping, arenaMapping] at hapart
  omega

/-- The memory is read into the only struct of an arena. -/
theorem ArenaAt.sysRamRead (hs : ArenaAt a (MiB 8) s) (hwell : s.WellMapped)
    (ha : requestMapping a ∈ s.maps) :
    Except.Refines (fun r memory => r.1 = errOk ∧ Within a s r.2 ∧ HoldsStruct a memory r.2)
      (AgentResources.sysRamRead h (arenaBase a + 0) s) (memoryOf h s.maps) := by
  have htop := arenaBase_lt_top a
  refine (within_sysRamRead (by decide) hwell ha).imp ?_
  rintro r memory ⟨hcode, hwithin, hkept, hload⟩
  exact ⟨hcode, hwithin, hs.of_eqOn hwithin.maps_eq (hkept.eqOn_range ha le_rfl
    (by
      dsimp only [requestMapping, arenaMapping]
      simp only [arenaBase, sizeofMemArena] at htop ⊢
      omega)
    (.inl le_rfl)), hload⟩

namespace Structs

/-- A change that keeps the header and the third struct. -/
theorem update (hs : Structs a cpu memory s) {cpu' : SysCpu} {memory' : SysMemory}
    (hmaps : s'.maps = s.maps)
    (hheader : Set.EqOn s'.mem.byte s.mem.byte (Memory.range a sizeofMemArena))
    (hdisk : Set.EqOn s'.mem.byte s.mem.byte (Memory.range (arenaBase a + 136) 24))
    (hcpu : s'.mem.loadAs SysCpu (arenaBase a) = cpu')
    (hmemory : s'.mem.loadAs SysMemory (arenaBase a + 120) = memory') :
    Structs a cpu' memory' s' :=
  ⟨hs.disk.of_eqOn (hmaps ▸ hs.disk.arenaAt.owns.mem_maps) hheader hdisk, hcpu, hmemory⟩

/-- The processors are read into the first struct. -/
theorem cpuRead (hs : Structs a SysCpu.zero memory s) :
    Except.Refines (fun r cpu => r.1 = errOk ∧ Within a s r.2 ∧ Structs a cpu memory r.2)
      (onStruct (cpuRead arch h) (arenaBase a) s) (cpuOf arch h) := by
  refine (cpuRead_refines (arenaBase_ne_null a) hs.cpu_eq).imp ?_
  rintro r cpu ⟨hcode, hproc⟩
  have hstore := s.mem.storeAs_eqOn (arenaBase a) cpu
  -- the header lies before the struct, the other structs behind it
  have hbefore : Memory.range a sizeofMemArena ⊆ (Memory.range (arenaBase a) 120)ᶜ :=
    Memory.range_subset_compl (.inl le_rfl)
  have hbehind : ∀ d n, 120 ≤ d →
      Memory.range (arenaBase a + d) n ⊆ (Memory.range (arenaBase a) 120)ᶜ :=
    fun d n hd => Memory.range_subset_compl (.inr (by omega))
  rw [hproc]
  refine ⟨hcode, .of_eqOn rfl hstore ?_, hs.update (Proc.maps_withMem _ _)
    (hstore.mono hbefore)
    (hstore.mono (hbehind 136 24 (by decide))) ?_ ?_⟩
  · exact range_subset_requestMapping (le_arenaBase a) (Nat.add_le_add_left (by decide) _)
  · rw [Proc.mem_withMem, Memory.loadAs_storeAs]
  · rw [Proc.mem_withMem, ← hs.memory_eq]
    exact Memory.loadAs_eq_of_eqOn (hstore.mono (hbehind 120 _ le_rfl))

/-- The memory is read into the second struct. -/
theorem sysRamRead (hs : Structs a cpu memory s) (hwell : s.WellMapped)
    (ha : requestMapping a ∈ s.maps) :
    Except.Refines (fun r memory' => r.1 = errOk ∧ Within a s r.2 ∧ Structs a cpu memory' r.2)
      (sysRamRead h (arenaBase a + 120) s) (memoryOf h s.maps) := by
  have htop := arenaBase_lt_top a
  have hle := le_arenaBase a
  have hbase : a + 32 = arenaBase a := rfl
  refine (within_sysRamRead (by decide) hwell ha).imp ?_
  rintro r memory' ⟨hcode, hwithin, hkept, hload⟩
  -- the rest of the arena is kept
  have hrest : ∀ lo n, a ≤ lo → lo + n ≤ arenaBase a + 704 →
      (lo + n ≤ arenaBase a + 120 ∨ arenaBase a + 120 + 16 ≤ lo) →
      Set.EqOn r.2.mem.byte s.mem.byte (Memory.range lo n) :=
    fun lo n hlo hhi haway => hkept.eqOn_range ha hlo (hhi.trans htop.le) haway
  refine ⟨hcode, hwithin, hs.update hwithin.maps_eq (hrest a 32 le_rfl (by omega) (by omega))
    (hrest (arenaBase a + 136) 24 (by omega) (by omega) (by omega)) ?_ hload⟩
  rw [← hs.cpu_eq]
  exact Memory.loadAs_eq_of_eqOn (hrest (arenaBase a) 120 (by omega) (by omega) (by omega))

/-- The partitions are read into the third struct, and into blocks behind all four. -/
theorem diskRead (hs : Structs a cpu memory s) (htop : (requestMapping a).hi ≤ 2 ^ 64) :
    Except.Refines (fun r code => r.1 = code ∧ Within a s r.2 ∧ Structs a cpu memory r.2)
      (diskRead h (arenaBase a + 136) a s) (diskCodeOf h) := by
  have hcap : (MiB 8).toNat = 8388608 := by decide
  have hmapping : mappingLen (MiB 8) = 8388640 := by decide
  have hlen := le_pageRound (mappingLen (MiB 8))
  have hhi : (requestMapping a).hi = a + pageRound (mappingLen (MiB 8)) := rfl
  have hplace : DiskPlace a (arenaBase a + 136) (arenaBase a + 704) (MiB 8) := by
    refine ⟨Nat.le_add_right _ _, by omega, by omega, ?_⟩
    simp only [arenaBase, sizeofMemArena]
    omega
  refine .of_returns (hs.disk.diskRead hplace) (by simp [diskCodeOf, Option.isSome_iff_ne_none])
    fun r code hcode hr => ?_
  obtain ⟨hrcode, hkept⟩ := hr
  have hcodeOk : code = errOk := by
    obtain ⟨text, -, rfl⟩ := Option.map_eq_some_iff.mp hcode
    rfl
  -- the CPU and memory structs lie before the list the disk read grows
  have hrest : ∀ lo n, arenaBase a ≤ lo → lo + n ≤ arenaBase a + 136 →
      Set.EqOn r.2.mem.byte s.mem.byte (Memory.range lo n) := by
    intro lo n hlo hhi
    refine hkept.eqOn.mono fun x hx => ?_
    simp only [arenaBase, sizeofMemArena] at hlo hhi
    rw [Set.mem_Ico] at hx
    simp only [diskFootprint, Set.mem_compl_iff, Set.mem_union, Set.mem_Ico, arenaBase,
      sizeofMemArena]
    omega
  refine ⟨hrcode.trans hcodeOk.symm, .of_eqOn hkept.maps_eq hkept.eqOn ?_, hkept.inv, ?_, ?_⟩
  · intro x hx
    simp only [diskFootprint, Set.mem_union, Set.mem_Ico, arenaBase, sizeofMemArena] at hx
    simp only [Set.mem_Ico, requestMapping, arenaMapping]
    omega
  · rw [← hs.cpu_eq]
    exact Memory.loadAs_eq_of_eqOn (hrest _ _ le_rfl (Nat.add_le_add_left (by decide) _))
  · rw [← hs.memory_eq]
    refine Memory.loadAs_eq_of_eqOn (hrest _ _ (Nat.le_add_right _ _) ?_)
    rw [show Layout.size SysMemory = 16 from rfl]

/-- The device is read into the fourth struct. -/
theorem deviceRead (hs : Structs a cpu memory s) :
    Except.Refines (fun r code => r.1 = code ∧ Within a s r.2 ∧ Structs a cpu memory r.2)
      (onStruct (deviceRead h) (arenaBase a + 160) s) (deviceCodeOf h) := by
  rw [onStruct_eq (arenaBase_add_ne_null a 160)]
  have hreturns : Except.Returns (AgentResources.deviceRead h
      (s.mem.loadAs SysDevice (arenaBase a + 160)) >>= fun r => Except.ok
        (r.1, s.withMem (s.mem.storeAs (arenaBase a + 160) r.2))) _ fun r =>
      r.1 = (if h.file .osRelease = none then errIo else errOk) ∧
        ∃ v : SysDevice, r.2 = s.withMem (s.mem.storeAs (arenaBase a + 160) v) :=
    deviceRead_returns.bind fun r hr => Except.Returns.ok ⟨hr, r.2, rfl⟩
  refine .of_returns hreturns ?_ ?_
  · rw [deviceCodeOf_isSome, and_true]
  · rintro r code hcode ⟨hr, v, hproc⟩
    have hsize : Layout.size SysDevice = 544 := rfl
    have hle := le_arenaBase a
    have hstore := s.mem.storeAs_eqOn (arenaBase a + 160) v
    -- all that is looked at lies before the struct
    have hbefore : ∀ lo n, lo + n ≤ arenaBase a + 160 →
        Memory.range lo n ⊆ (Memory.range (arenaBase a + 160) 544)ᶜ :=
      fun lo n hle => Memory.range_subset_compl (.inl hle)
    rw [hproc]
    refine ⟨hr.trans (deviceCodeOf_eq_some hcode).symm, .of_eqOn rfl hstore ?_,
      hs.update (Proc.maps_withMem _ _) (hstore.mono (hbefore _ _ ?_))
        (hstore.mono (hbefore _ _ (by omega))) ?_ ?_⟩
    · exact range_subset_requestMapping (by omega) (by omega)
    · simp only [arenaBase]
      omega
    · rw [Proc.mem_withMem, ← hs.cpu_eq]
      exact Memory.loadAs_eq_of_eqOn (hstore.mono (hbefore _ _ (Nat.add_le_add_left (by decide) _)))
    · rw [Proc.mem_withMem, ← hs.memory_eq]
      refine Memory.loadAs_eq_of_eqOn (hstore.mono (hbefore _ _ ?_))
      rw [show Layout.size SysMemory = 16 from rfl]
      omega

end Structs

/-! ## The handlers -/

/-- Filling the message either fails or makes the message of the struct. -/
theorem setCpu_refines (cpu : SysCpu) :
    Except.Refines (· = ·) (setCpu cpu) (cpuMessageOf cpu) := by
  unfold cpuMessageOf
  cases setCpu cpu with
  | error e => exact Except.Refines.error e
  | ok msg => exact Except.Refines.ok rfl

/-- Without an arena the first assertion of the first collector fails. -/
theorem onStruct_null {α : Type} [Layout α] (reader : α → Except Halt (ℤ × α)) :
    onStruct reader NULL s = .error .assertFailed := if_pos rfl

/-- `get_system_resources_impl` carries out its outcome. -/
theorem getSystemResourcesImpl_refines (hs : s.WellMapped) :
    Except.Refines Shows (getSystemResourcesImpl arch h ctx s)
      (systemOutcome arch h ctx s.maps) := by
  unfold getSystemResourcesImpl systemOutcome
  refine .ite (fun _ => .ok ⟨rfl, rfl⟩) fun _ => .ite (fun _ => .ok ⟨rfl, rfl⟩) fun _ => ?_
  cases hgrant : h.mmap s.maps (mappingLen (MiB 8)) with
  | none =>
    -- the null arena gives null structs, and the first collector asserts that it has one
    simp only [arenaCreate_of_refused hgrant, cpuCreate, ramCreate, diskCreate, deviceCreate,
      arenaAlloc_null, Except.ok_bind, onStruct_null, Except.error_bind, mapArena, hgrant,
      Option.map_none]
    exact Except.Refines.error _
  | some a =>
    obtain ⟨s₀, hcreate, hfresh⟩ := freshArena_create hgrant
    obtain ⟨s₁, hcpu, hfresh⟩ := hfresh.alloc sizeofSysCpu (by decide)
    obtain ⟨s₂, hram, hfresh⟩ := hfresh.alloc sizeofSysMemory (by decide)
    obtain ⟨s₃, hdisk, hfresh⟩ := hfresh.alloc sizeofSysDisk (by decide)
    obtain ⟨s₄, hdevice, hfresh⟩ := hfresh.alloc sizeofSysDevice (by decide)
    have hstructs : Structs a SysCpu.zero ⟨0, 0⟩ s₄ := hfresh.structs
    have hmaps : s₄.maps = requestMapping a :: s.maps := hfresh.maps_eq
    -- the structs stand one after the other from the base of the arena on
    change arenaAlloc a _ _ = .ok (arenaBase a, _) at hcpu
    change arenaAlloc a _ _ = .ok (arenaBase a + 120, _) at hram
    change arenaAlloc a _ _ = .ok (arenaBase a + 136, _) at hdisk
    change arenaAlloc a _ _ = .ok (arenaBase a + 160, _) at hdevice
    simp only [hcreate, cpuCreate, hcpu, ramCreate, hram, diskCreate, hdisk, deviceCreate, hdevice,
      Except.ok_bind, mapArena, hgrant, Option.map_some, Option.bind_eq_bind, Option.bind_some]
    -- each collector changes its struct only, and the deadline is checked after it
    refine hstructs.cpuRead.bind fun r cpu hr => ?_
    obtain ⟨hcpuCode, hwithin, hstructs⟩ := hr
    have hmaps := hwithin.maps_eq.trans hmaps
    simp only [hcpuCode]
    refine .ite (fun _ => .ok ⟨rfl, hmaps⟩) fun _ => ?_
    have hram := hstructs.sysRamRead (h := h) (wellMapped_cons hs hmaps)
      (hmaps ▸ List.mem_cons_self)
    rw [hmaps] at hram
    refine hram.bind fun r memory hr => ?_
    obtain ⟨hramCode, hwithin, hstructs⟩ := hr
    have hmaps := hwithin.maps_eq.trans hmaps
    simp only [hramCode]
    refine .ite (fun _ => .ok ⟨rfl, hmaps⟩) fun _ => ?_
    have htop := Nat.le_of_add_right_le (h.mmap_spec hgrant).2.2.2.1
    refine (hstructs.diskRead htop).bind fun r diskCode hr => ?_
    obtain ⟨hdiskCode, hwithin, hstructs⟩ := hr
    have hmaps := hwithin.maps_eq.trans hmaps
    simp only [hdiskCode]
    refine .ite (fun _ => .ok ⟨rfl, hmaps⟩) fun _ => ?_
    refine hstructs.deviceRead.bind fun r deviceCode hr => ?_
    obtain ⟨hdeviceCode, hwithin, hstructs⟩ := hr
    have hmaps := hwithin.maps_eq.trans hmaps
    simp only [hdeviceCode]
    refine .ite (fun _ => .ok ⟨rfl, hmaps⟩) fun _ => ?_
    rw [hstructs.cpu_eq, hstructs.memory_eq]
    refine (setCpu_refines cpu).bind fun msg msg' hmsg => ?_
    subst hmsg
    exact .ok ⟨rfl, maps_arenaDestroy hstructs.disk.arenaAt hs hgrant hmaps⟩

/-- `get_cpu_impl` carries out its outcome. -/
theorem getCpuImpl_refines (hs : s.WellMapped) :
    Except.Refines Shows (getCpuImpl arch h ctx s) (cpuOutcome arch h ctx s.maps) := by
  unfold getCpuImpl cpuOutcome
  refine .ite (fun _ => .ok ⟨rfl, rfl⟩) fun _ => .ite (fun _ => .ok ⟨rfl, rfl⟩) fun _ => ?_
  cases hgrant : h.mmap s.maps (mappingLen (MiB 8)) with
  | none =>
    simp only [arenaCreate_of_refused hgrant, cpuCreate, arenaAlloc_null, Except.ok_bind,
      onStruct_null, Except.error_bind, mapArena, hgrant, Option.map_none]
    exact Except.Refines.error _
  | some a =>
    obtain ⟨s₀, hcreate, hfresh⟩ := freshArena_create hgrant
    obtain ⟨s₁, hcpu, hfresh⟩ := hfresh.alloc sizeofSysCpu (by decide)
    change arenaAlloc a _ _ = .ok (arenaBase a, _) at hcpu
    have hmaps : s₁.maps = requestMapping a :: s.maps := hfresh.maps_eq
    rw [← hfresh.maps_eq] at hfresh
    simp only [hcreate, cpuCreate, hcpu, Except.ok_bind, mapArena, hgrant, Option.map_some,
      Option.bind_eq_bind, Option.bind_some]
    refine hfresh.holdsStruct_cpu.cpuRead.bind fun r cpu hr => ?_
    obtain ⟨hcode, hwithin, hstruct⟩ := hr
    simp only [hcode, hstruct.load_eq]
    refine (setCpu_refines cpu).bind fun msg msg' hmsg => ?_
    subst hmsg
    exact .ok ⟨rfl, maps_arenaDestroy hstruct.arenaAt hs hgrant (hwithin.maps_eq.trans hmaps)⟩

/-- `get_ram_impl` carries out its outcome. -/
theorem getRamImpl_refines (hs : s.WellMapped) :
    Except.Refines Shows (getRamImpl h ctx s) (ramOutcome h ctx s.maps) := by
  unfold getRamImpl ramOutcome
  refine .ite (fun _ => .ok ⟨rfl, rfl⟩) fun _ => .ite (fun _ => .ok ⟨rfl, rfl⟩) fun _ => ?_
  cases hgrant : h.mmap s.maps (mappingLen (MiB 8)) with
  | none =>
    have hnull : sysRamRead h NULL s = .error .assertFailed := if_pos rfl
    simp only [arenaCreate_of_refused hgrant, ramCreate, arenaAlloc_null, Except.ok_bind, hnull,
      Except.error_bind, mapArena, hgrant, Option.map_none]
    exact Except.Refines.error _
  | some a =>
    obtain ⟨s₀, hcreate, hfresh⟩ := freshArena_create hgrant
    obtain ⟨s₁, hram, hfresh⟩ := hfresh.alloc sizeofSysMemory (by decide)
    change arenaAlloc a _ _ = .ok (arenaBase a, _) at hram
    simp only [hcreate, ramCreate, hram, Except.ok_bind, mapArena, hgrant, Option.map_some,
      Option.bind_eq_bind, Option.bind_some]
    have hmaps : s₁.maps = requestMapping a :: s.maps := hfresh.maps_eq
    -- the scratch arena of the reader is mapped elsewhere
    have hread := hfresh.arenaAt.sysRamRead (h := h) (wellMapped_cons hs hmaps)
      (hmaps ▸ List.mem_cons_self)
    rw [hmaps] at hread
    refine hread.bind fun r memory hr => ?_
    obtain ⟨hcode, hwithin, hstruct⟩ := hr
    simp only [hcode, hstruct.load_eq]
    exact .ok ⟨rfl, maps_arenaDestroy hstruct.arenaAt hs hgrant (hwithin.maps_eq.trans hmaps)⟩

/-- A handler whose outcome has a status returns with that status. -/
theorem exists_ok_of_outcome {x : Except Halt (Response × Proc)} {o : Option Outcome}
    {code : StatusCode} (hx : Except.Refines Shows x o)
    (ho : o.map (·.1.status.code) = some code) : ∃ r, x = .ok r ∧ r.1.status.code = code := by
  obtain ⟨o', ho', hcode⟩ := Option.map_eq_some_iff.mp ho
  refine (hx.exists_ok_iff (Q := fun o => o.1.status.code = code) fun r o hro => ?_).mpr
    ⟨o', ho', hcode⟩
  rw [hro.1]

/-! ## A host with all files -/

/-- Ordinary texts of the files. -/
def sampleFile : Path → Option (List UInt8)
  | .procCpuinfo => some (ascii "vendor_id\t: GenuineIntel\nmodel name\t: Xeon\ncpu MHz\t\t: 2400\n")
  | .procStat => some (ascii "cpu  100 0 50 800 20 0 5 0\n")
  | .procMeminfo => some (ascii "MemTotal:       16384 kB\nMemFree:         8192 kB\n")
  | .procPartitions => some (ascii "   8        0       1024 sda\n")
  | .procUptime => some (ascii "100.00 200.00\n")
  | .osRelease => some (ascii "NAME=\"Debian\"\n")
  | _ => none

/-- All files are there, memory is granted and the clock stands still. -/
def sampleHost : Host :=
  { Kernel.above with file := sampleFile, fclose := fun _ => 0, now := fun _ => 0 }

/-- A call that is not cancelled, with its deadline after the readings of the sample clock. -/
def sampleContext : ServerContext := ⟨false, 1⟩

theorem wellMapped_fresh : Proc.fresh.WellMapped := by
  intro r hr
  cases hr

theorem systemOutcome_sample :
    (systemOutcome .x86 sampleHost sampleContext []).map (·.1.status.code) = some .ok := by
  decide +kernel

theorem cpuOutcome_sample :
    (cpuOutcome .x86 sampleHost sampleContext []).map (·.1.status.code) = some .ok := by
  decide +kernel

theorem ramOutcome_sample :
    (ramOutcome sampleHost sampleContext []).map (·.1.status.code) = some .ok := by
  decide +kernel

end AgentResources
