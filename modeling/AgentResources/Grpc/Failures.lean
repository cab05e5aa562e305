import AgentResources.Grpc.HandlerOutcome
import AgentResources.Foundations.Run
import AgentResources.Libnet.Net

/-!
# Failing and leaking handlers

A handler that returns can still have ignored the failure of a collector, and one that returns early
can leave its arena mapped. For each handler one equivalence says which outcomes it has
(`exists_systemOutcome_iff` and its two companions); from it follow the files, clocks and kernels
for which a handler answers as it should, and the calls that leak.

## Main results

* `handlers_answer_iff`: when a handler returns and does not report OK over a failure;
* `calls_release_iff`: when the calls of a sequence release every arena they create.
-/

namespace AgentResources

variable {arch : Arch} {h : Host} {ctx : ServerContext} {s s' : Proc} {maps : List Mapping}

/-! ## The outcomes of a handler -/

theorem exists_bind_some {α β : Type} {x : Option α} {f : α → Option β} {P : β → Prop} :
    (∃ b, (x >>= f) = some b ∧ P b) ↔ ∃ a, x = some a ∧ ∃ b, f a = some b ∧ P b := by
  cases x <;> simp

/-- Something is there iff `p`, and on it the rest is `q`. -/
theorem exists_some_iff {α : Type} {x : Option α} {p q : Prop} {Q : α → Prop} (hp : x.isSome ↔ p)
    (hq : ∀ a, x = some a → (Q a ↔ q)) : (∃ a, x = some a ∧ Q a) ↔ p ∧ q := by
  rw [← hp]
  cases x with
  | none => simp
  | some a => simpa using hq a rfl

theorem exists_pure_some {α : Type} {a : α} {P : α → Prop} :
    (∃ b, (some a : Option α) = some b ∧ P b) ↔ P a := by simp

/-- The partitions are read iff their file is there. -/
theorem diskCodeOf_isSome : (diskCodeOf h).isSome ↔ h.file .procPartitions ≠ none := by
  simp [diskCodeOf, Option.isSome_iff_ne_none]

/-- Reading the partitions never returns an error. -/
theorem diskCodeOf_eq_some {code : ℤ} (hcode : diskCodeOf h = some code) : code = errOk := by
  obtain ⟨text, -, rfl⟩ := Option.map_eq_some_iff.mp hcode
  rfl

/-- The code `device_read` returns, when it returns. -/
def deviceCode (h : Host) : ℤ := if h.file .osRelease = none then errIo else errOk

/-- A collector that is run is readable, unless the deadline has passed before it; at the end, the
message can be filled. -/
theorem exists_systemOutcome_iff (P : StatusCode → List ℤ → List Mapping → Prop) :
    (∃ o, systemOutcome arch h ctx maps = some o ∧ P o.1.status.code o.1.codes o.2) ↔
      if ctx.isCancelled then P .cancelled [] maps
      else if ctx.deadline < h.now 0 then P .deadlineExceeded [] maps
      else ∃ mapped, mapArena h.toKernel (MiB 8) maps = some mapped ∧ CpuReadable arch h ∧
        if ctx.deadline < h.now 1 then P .deadlineExceeded [errOk] mapped
        else RamReadable h mapped ∧
        if ctx.deadline < h.now 2 then P .deadlineExceeded [errOk, errOk] mapped
        else h.file .procPartitions ≠ none ∧
        if ctx.deadline < h.now 3 then P .deadlineExceeded [errOk, errOk, errOk] mapped
        else (h.file .osRelease ≠ none → UptimeReadable h) ∧
        if ctx.deadline < h.now 4
        then P .deadlineExceeded [errOk, errOk, errOk, deviceCode h] mapped
        else CpuStrings arch h ∧ P .ok [errOk, errOk, errOk, deviceCode h] maps := by
  unfold systemOutcome
  -- along the outcome: a check of the clock is one on both sides, and a step is its condition
  split
  · exact exists_pure_some
  split
  · exact exists_pure_some
  rw [exists_bind_some]
  refine exists_congr fun mapped => and_congr_right fun _ => ?_
  rw [exists_bind_some]
  refine exists_some_iff cpuOf_isSome fun cpu hcpu => ?_
  split
  · exact exists_pure_some
  rw [exists_bind_some]
  refine exists_some_iff memoryOf_isSome fun memory _ => ?_
  split
  · exact exists_pure_some
  rw [exists_bind_some]
  refine exists_some_iff diskCodeOf_isSome fun diskCode hdisk => ?_
  rw [diskCodeOf_eq_some hdisk]
  split
  · exact exists_pure_some
  rw [exists_bind_some]
  refine exists_some_iff deviceCodeOf_isSome fun code hdevice => ?_
  rw [deviceCodeOf_eq_some hdevice]
  dsimp only
  split
  · exact exists_pure_some
  rw [exists_bind_some]
  have hstrings := (cpuOf_eq_some hcpu).2.2
  exact exists_some_iff (cpuMessageOf_isSome.trans hstrings) fun msg _ => exists_pure_some

/-- What some outcome of `get_cpu_impl` is like, by the checks the handler makes. -/
theorem exists_cpuOutcome_iff (P : StatusCode → List ℤ → List Mapping → Prop) :
    (∃ o, cpuOutcome arch h ctx maps = some o ∧ P o.1.status.code o.1.codes o.2) ↔
      if ctx.isCancelled then P .cancelled [] maps
      else if ctx.deadline < h.now 0 then P .deadlineExceeded [] maps
      else ∃ mapped, mapArena h.toKernel (MiB 8) maps = some mapped ∧ CpuReadable arch h ∧
        CpuStrings arch h ∧ P .ok [errOk] maps := by
  unfold cpuOutcome
  split
  · exact exists_pure_some
  split
  · exact exists_pure_some
  rw [exists_bind_some]
  refine exists_congr fun mapped => and_congr_right fun _ => ?_
  rw [exists_bind_some]
  refine exists_some_iff cpuOf_isSome fun cpu hcpu => ?_
  rw [exists_bind_some]
  have hstrings := (cpuOf_eq_some hcpu).2.2
  exact exists_some_iff (cpuMessageOf_isSome.trans hstrings) fun msg _ => exists_pure_some

/-- What some outcome of `get_ram_impl` is like, by the checks the handler makes. -/
theorem exists_ramOutcome_iff (P : StatusCode → List ℤ → List Mapping → Prop) :
    (∃ o, ramOutcome h ctx maps = some o ∧ P o.1.status.code o.1.codes o.2) ↔
      if ctx.isCancelled then P .cancelled [] maps
      else if ctx.deadline < h.now 0 then P .deadlineExceeded [] maps
      else ∃ mapped, mapArena h.toKernel (MiB 8) maps = some mapped ∧ RamReadable h mapped ∧
        P .ok [errOk] maps := by
  unfold ramOutcome
  split
  · exact exists_pure_some
  split
  · exact exists_pure_some
  rw [exists_bind_some]
  refine exists_congr fun mapped => and_congr_right fun _ => ?_
  rw [exists_bind_some]
  exact exists_some_iff memoryOf_isSome fun memory _ => exists_pure_some

/-! ## Answers -/

/-- The handler returns, and reports OK only if every collector it ran did. -/
def Answers (x : Except Halt (Response × Proc)) : Prop :=
  ∃ r, x = .ok r ∧ (r.1.status.code = .ok → ∀ code ∈ r.1.codes, code = errOk)

/-- The call is turned away before an arena is created. -/
def TurnedAway (h : Host) (ctx : ServerContext) : Prop :=
  ctx.isCancelled = true ∨ ctx.deadline < h.now 0

/-- The arena is granted, and up to the first check that finds the deadline passed every collector
returns; when no check does, the strings are terminated and `/etc/os-release` is there. -/
def SystemReady (arch : Arch) (h : Host) (ctx : ServerContext) (maps : List Mapping) : Prop :=
  ∃ mapped, mapArena h.toKernel (MiB 8) maps = some mapped ∧ CpuReadable arch h ∧
    (ctx.deadline < h.now 1 ∨ RamReadable h mapped ∧
    (ctx.deadline < h.now 2 ∨ h.file .procPartitions ≠ none ∧
    (ctx.deadline < h.now 3 ∨ (h.file .osRelease ≠ none → UptimeReadable h) ∧
    (ctx.deadline < h.now 4 ∨ CpuStrings arch h ∧ h.file .osRelease ≠ none))))

/-- The collectors of `GetCpu` find what they need. -/
def CpuReady (arch : Arch) (h : Host) (maps : List Mapping) : Prop :=
  ∃ mapped, mapArena h.toKernel (MiB 8) maps = some mapped ∧ CpuReadable arch h ∧ CpuStrings arch h

/-- The collector of `GetMemory` finds what it needs. -/
def RamReady (h : Host) (maps : List Mapping) : Prop :=
  ∃ mapped, mapArena h.toKernel (MiB 8) maps = some mapped ∧ RamReadable h mapped

/-- The codes that are looked at when a handler answers. -/
def NoFailureIgnored (code : StatusCode) (codes : List ℤ) (_ : List Mapping) : Prop :=
  code = .ok → ∀ c ∈ codes, c = errOk

/-- A handler answers iff its outcome is an answer. -/
theorem answers_iff {x : Except Halt (Response × Proc)} {o : Option Outcome}
    (hx : Except.Refines Shows x o) :
    Answers x ↔ ∃ b, o = some b ∧ NoFailureIgnored b.1.status.code b.1.codes b.2 :=
  hx.exists_ok_iff fun r b hrb => by rw [NoFailureIgnored, hrb.1]

theorem ite_true_iff {c q : Prop} [Decidable c] : (if c then True else q) ↔ c ∨ q := by
  split
  · next hc => exact iff_of_true trivial (.inl hc)
  · next hc => exact (or_iff_right hc).symm

/-- Of the four collectors only that of the device returns a failure that is ignored. -/
theorem noFailureIgnored_device :
    NoFailureIgnored .ok [errOk, errOk, errOk, deviceCode h] maps ↔ h.file .osRelease ≠ none := by
  unfold NoFailureIgnored deviceCode
  split
  · next hnone => simp [hnone, errOk, errIo]
  · next hsome => simp [hsome]

theorem noFailureIgnored_ok : NoFailureIgnored .ok [errOk] maps := by simp [NoFailureIgnored]

theorem noFailureIgnored_cancelled (codes : List ℤ) : NoFailureIgnored .cancelled codes maps := by
  simp [NoFailureIgnored]

theorem noFailureIgnored_deadline (codes : List ℤ) :
    NoFailureIgnored .deadlineExceeded codes maps := by
  simp [NoFailureIgnored]

/-- Exactly when each handler answers. -/
theorem handlers_answer_iff (arch : Arch) (h : Host) (ctx : ServerContext) (s : Proc)
    (hs : s.WellMapped) :
    (Answers (getSystemResourcesImpl arch h ctx s) ↔
      TurnedAway h ctx ∨ SystemReady arch h ctx s.maps) ∧
    (Answers (getCpuImpl arch h ctx s) ↔ TurnedAway h ctx ∨ CpuReady arch h s.maps) ∧
    (Answers (getRamImpl h ctx s) ↔ TurnedAway h ctx ∨ RamReady h s.maps) := by
  refine ⟨?_, ?_, ?_⟩
  · rw [answers_iff (getSystemResourcesImpl_refines hs), exists_systemOutcome_iff]
    simp only [noFailureIgnored_cancelled, noFailureIgnored_deadline, noFailureIgnored_device,
      ite_true_iff, TurnedAway, SystemReady, or_assoc]
  · rw [answers_iff (getCpuImpl_refines hs), exists_cpuOutcome_iff]
    simp only [noFailureIgnored_cancelled, noFailureIgnored_deadline, noFailureIgnored_ok,
      ite_true_iff, TurnedAway, CpuReady, or_assoc, and_true]
  · rw [answers_iff (getRamImpl_refines hs), exists_ramOutcome_iff]
    simp only [noFailureIgnored_cancelled, noFailureIgnored_deadline, noFailureIgnored_ok,
      ite_true_iff, TurnedAway, RamReady, or_assoc, and_true]

theorem handlers_answer_iff_sample :
    Answers (getCpuImpl .x86 sampleHost sampleContext Proc.fresh) ↔
      TurnedAway sampleHost sampleContext ∨ CpuReady .x86 sampleHost [] :=
  (handlers_answer_iff .x86 sampleHost sampleContext Proc.fresh wellMapped_fresh).2.1

/-- Without `/etc/os-release` the snapshot is reported OK. -/
theorem not_handlers_answer : ¬ ∀ (arch : Arch) (h : Host) (ctx : ServerContext) (s : Proc),
    s.WellMapped → Answers (getSystemResourcesImpl arch h ctx s) := by
  intro hall
  -- the sample host without the file
  let h : Host := { sampleHost with
    file := fun path => if path = .osRelease then none else sampleFile path }
  have hanswer := (answers_iff (getSystemResourcesImpl_refines wellMapped_fresh)).mp
    (hall .x86 h sampleContext Proc.fresh wellMapped_fresh)
  rw [exists_systemOutcome_iff] at hanswer
  have hnow : ∀ i, ¬ sampleContext.deadline < h.now i := fun i => by
    show ¬ (1 : ℤ) < 0
    decide
  have hlive : ¬ sampleContext.isCancelled = true := by decide
  simp only [if_neg (hnow _), if_neg hlive, noFailureIgnored_device] at hanswer
  obtain ⟨-, -, -, -, -, -, -, hpresent⟩ := hanswer
  exact hpresent rfl

/-! ## Leaks -/

/-- The calls that create arenas. -/
inductive Call
  | getSystemResources (arch : Arch) (h : Host) (ctx : ServerContext)
  | getCpu (arch : Arch) (h : Host) (ctx : ServerContext)
  | getMemory (h : Host) (ctx : ServerContext)
  | portTcp4 (h : Host) (device : ℕ)
  | portTcp6 (h : Host) (device : ℕ)

/-- The process a call leaves. -/
def Call.run : Call → Proc → Except Halt Proc
  | .getSystemResources arch h ctx, s => (·.2) <$> getSystemResourcesImpl arch h ctx s
  | .getCpu arch h ctx, s => (·.2) <$> getCpuImpl arch h ctx s
  | .getMemory h ctx, s => (·.2) <$> getRamImpl h ctx s
  | .portTcp4 h device, s => (·.2) <$> portReadTcp4 h device s
  | .portTcp6 h device, s => (·.2) <$> portReadTcp6 h device s

/-- The call of the port reader finds no file once its arena is there. -/
def PortLeaks (path : Path) (h : Host) (device : ℕ) (maps : List Mapping) : Prop :=
  device ≠ NULL ∧ (mapArena h.toKernel (KiB 8) maps).isSome ∧ h.file path = none

/-- The call finds the deadline passed at a check after its arena was created, or the port file
missing. -/
def Call.Leaks : Call → List Mapping → Prop
  | .getSystemResources arch h ctx, maps => ¬ TurnedAway h ctx ∧
    ∃ mapped, mapArena h.toKernel (MiB 8) maps = some mapped ∧ CpuReadable arch h ∧
      (ctx.deadline < h.now 1 ∨ RamReadable h mapped ∧
      (ctx.deadline < h.now 2 ∨ h.file .procPartitions ≠ none ∧
      (ctx.deadline < h.now 3 ∨ (h.file .osRelease ≠ none → UptimeReadable h) ∧
      ctx.deadline < h.now 4)))
  | .getCpu _ _ _, _ => False
  | .getMemory _ _, _ => False
  | .portTcp4 h device, maps => PortLeaks .etcTcp h device maps
  | .portTcp6 h device, maps => PortLeaks .etcTcp6 h device maps

/-- A call releases what it maps, or it leaks and leaves one mapping more. -/
def Settles (x : Except Halt Proc) (maps : List Mapping) (leaks : Prop) : Prop :=
  ((∃ s', x = .ok s' ∧ s'.maps ≠ maps) ↔ leaks) ∧
    ∀ s', x = .ok s' → s'.maps = maps ∨ ∃ r : Mapping, s'.maps = r :: maps ∧ r.lo < r.hi

/-- A mapped arena is a new, nonempty mapping. -/
theorem mapArena_eq_some {k : Kernel} {capacity : UInt64} {mapped : List Mapping}
    (hmapped : mapArena k capacity maps = some mapped) :
    ∃ r : Mapping, mapped = r :: maps ∧ r.lo < r.hi := by
  obtain ⟨a, hgrant, rfl⟩ := Option.map_eq_some_iff.mp hmapped
  obtain ⟨hlen, -⟩ := k.mmap_spec hgrant
  exact ⟨_, rfl, Nat.lt_add_of_pos_right (hlen.trans_le (le_pageRound _))⟩

/-- An arena that was mapped shows in the mappings. -/
theorem mapArena_ne {k : Kernel} {capacity : UInt64} {mapped : List Mapping}
    (hmapped : mapArena k capacity maps = some mapped) : mapped ≠ maps := by
  obtain ⟨r, rfl, -⟩ := mapArena_eq_some hmapped
  simp

/-- A handler settles its mappings as its outcome says. -/
theorem settles_of_refines {x : Except Halt (Response × Proc)} {o : Option Outcome} {leaks : Prop}
    (hx : Except.Refines Shows x o) (hleaks : (∃ b, o = some b ∧ b.2 ≠ maps) ↔ leaks)
    (hmaps : ∀ b, o = some b → b.2 = maps ∨ ∃ r : Mapping, b.2 = r :: maps ∧ r.lo < r.hi) :
    Settles ((·.2) <$> x) maps leaks := by
  -- a process is left iff a reply is returned with it
  have hrun : ∀ s', (·.2) <$> x = .ok s' ↔ ∃ r, x = .ok r ∧ r.2 = s' := by
    intro s'
    cases x with
    | error e => simp [Functor.map, Except.map]
    | ok r => simp [Functor.map, Except.map]
  constructor
  · rw [← hleaks, ← hx.exists_ok_iff (P := fun r => r.2.maps ≠ maps) fun r b hrb => by rw [hrb.2]]
    simp only [hrun]
    constructor
    · rintro ⟨s', ⟨r, hr, rfl⟩, hne⟩
      exact ⟨r, hr, hne⟩
    · rintro ⟨r, hr, hne⟩
      exact ⟨r.2, ⟨r, hr, rfl⟩, hne⟩
  · intro s' hs'
    obtain ⟨r, hr, rfl⟩ := (hrun s').mp hs'
    obtain ⟨b, hb, hrb⟩ := hx.exists_of_eq_ok hr
    rw [hrb.2]
    exact hmaps b hb

/-- An outcome leaves the mappings as they were or with the arena. -/
theorem systemOutcome_maps {o : Outcome} (ho : systemOutcome arch h ctx maps = some o) :
    o.2 = maps ∨ mapArena h.toKernel (MiB 8) maps = some o.2 := by
  -- before the arena is mapped and at the end the mappings are the old ones
  unfold systemOutcome at ho
  split at ho
  · cases ho
    exact .inl rfl
  split at ho
  · cases ho
    exact .inl rfl
  obtain ⟨mapped, hmapped, ho⟩ := Option.bind_eq_some_iff.mp ho
  obtain ⟨cpu, -, ho⟩ := Option.bind_eq_some_iff.mp ho
  split at ho
  · cases ho
    exact .inr hmapped
  obtain ⟨memory, -, ho⟩ := Option.bind_eq_some_iff.mp ho
  split at ho
  · cases ho
    exact .inr hmapped
  obtain ⟨diskCode, -, ho⟩ := Option.bind_eq_some_iff.mp ho
  split at ho
  · cases ho
    exact .inr hmapped
  obtain ⟨code, -, ho⟩ := Option.bind_eq_some_iff.mp ho
  dsimp only at ho
  split at ho
  · cases ho
    exact .inr hmapped
  obtain ⟨msg, -, ho⟩ := Option.bind_eq_some_iff.mp ho
  cases ho
  exact .inl rfl

/-- `GetSystemResources` leaves its arena behind iff it runs out of time with one. -/
theorem getSystemResources_settles (hs : s.WellMapped) :
    Settles ((Call.getSystemResources arch h ctx).run s) s.maps
      ((Call.getSystemResources arch h ctx).Leaks s.maps) := by
  refine settles_of_refines (getSystemResourcesImpl_refines hs) ?_ fun b hb =>
    (systemOutcome_maps hb).imp_right mapArena_eq_some
  rw [exists_systemOutcome_iff fun _ _ mapped => mapped ≠ s.maps]
  simp only [Call.Leaks, TurnedAway]
  split
  · next hcancelled => simp [hcancelled]
  split
  · next hexpired => simp [hexpired]
  · -- past the first checks, only a later one leaves the arena mapped
    next hlive hearly =>
    rw [and_iff_right (not_or.mpr ⟨hlive, hearly⟩)]
    refine exists_congr fun mapped => and_congr_right fun hmapped => ?_
    simp only [ne_eq, mapArena_ne hmapped, not_false_eq_true, not_true_eq_false, and_false,
      ite_true_iff, or_false]

/-- `GetCpu` gives its arena back. -/
theorem getCpu_settles (hs : s.WellMapped) :
    Settles ((Call.getCpu arch h ctx).run s) s.maps False := by
  refine settles_of_refines (getCpuImpl_refines hs) ?_ fun b hb => .inl ?_
  · rw [exists_cpuOutcome_iff fun _ _ mapped => mapped ≠ s.maps]
    simp
  · by_contra hne
    have hnever := (exists_cpuOutcome_iff fun _ _ mapped => mapped ≠ s.maps).mp ⟨b, hb, hne⟩
    simp at hnever

/-- `GetMemory` gives its arena back. -/
theorem getMemory_settles (hs : s.WellMapped) :
    Settles ((Call.getMemory h ctx).run s) s.maps False := by
  refine settles_of_refines (getRamImpl_refines hs) ?_ fun b hb => .inl ?_
  · rw [exists_ramOutcome_iff fun _ _ mapped => mapped ≠ s.maps]
    simp
  · by_contra hne
    have hnever := (exists_ramOutcome_iff fun _ _ mapped => mapped ≠ s.maps).mp ⟨b, hb, hne⟩
    simp at hnever

/-- The loop of the port readers changes one byte of its buffer. -/
theorem portReadLoop_eq_ok {buffer : ℕ} {text : List UInt8}
    (hrun : portReadLoop buffer text s = .ok s') :
    s'.maps = s.maps ∧ Set.EqOn s'.mem.byte s.mem.byte (Memory.range buffer 1)ᶜ := by
  induction text generalizing s with
  | nil =>
    rw [portReadLoop] at hrun
    obtain ⟨c, -, hrun⟩ := Except.bind_eq_ok.mp hrun
    split at hrun
    · cases hrun
    · cases hrun
      exact ⟨rfl, fun _ _ => rfl⟩
  | cons b rest ih =>
    rw [portReadLoop] at hrun
    obtain ⟨c, -, hrun⟩ := Except.bind_eq_ok.mp hrun
    have hstore : Set.EqOn (s.mem.store buffer [b]).byte s.mem.byte (Memory.range buffer 1)ᶜ :=
      Memory.store_eqOn s.mem buffer [b]
    split at hrun
    · obtain ⟨hmaps, heqOn⟩ := ih hrun
      rw [Proc.maps_withMem] at hmaps
      rw [Proc.mem_withMem] at heqOn
      exact ⟨hmaps, heqOn.trans hstore⟩
    · obtain rfl := Except.ok.inj hrun
      rw [Proc.maps_withMem, Proc.mem_withMem]
      exact ⟨rfl, hstore⟩

/-- A call that releases what it maps whenever it returns. -/
theorem Settles.of_released {x : Except Halt Proc} {leaks : Prop}
    (hreleased : ∀ s', x = .ok s' → s'.maps = maps) (hleaks : ¬ leaks) : Settles x maps leaks :=
  ⟨iff_of_false (fun ⟨s', hs', hne⟩ => hne (hreleased s' hs')) hleaks,
    fun s' hs' => .inl (hreleased s' hs')⟩

/-- The rest of a port reader, once its scratch arena and the file are there, releases the arena. -/
theorem portReadLoop_released {k : Kernel} {arena buffer : ℕ} {text : List UInt8} {s s₁ s' : Proc}
    (hs : s.WellMapped) (hgrant : k.mmap s.maps (mappingLen (KiB 8)) = some arena)
    (hat : ArenaAt arena (KiB 8) s₁) (hbuffer : arenaBase arena ≤ buffer)
    (hmaps : s₁.maps = ⟨arena, arena + pageRound (mappingLen (KiB 8))⟩ :: s.maps)
    (hrun : (·.2) <$> (portReadLoop buffer text s₁ >>= fun s =>
      (.ok (errOk, arenaDestroy arena s) : Except Halt (ℤ × Proc))) = .ok s') :
    s'.maps = s.maps := by
  cases hloop : portReadLoop buffer text s₁ with
  | error e =>
    rw [hloop] at hrun
    cases hrun
  | ok s₂ =>
    rw [hloop] at hrun
    obtain rfl : arenaDestroy arena s₂ = s' := Except.ok.inj hrun
    obtain ⟨hmaps₂, heqOn⟩ := portReadLoop_eq_ok hloop
    -- the buffer lies behind the header
    have hat₂ : ArenaAt arena (KiB 8) s₂ :=
      hat.of_eqOn hmaps₂ (heqOn.mono (Memory.range_subset_compl (.inl hbuffer)))
    exact maps_arenaDestroy hat₂ hs hgrant (hmaps₂.trans hmaps)

/-- The port reader leaves its arena behind iff it then finds no file. -/
theorem port_settles {path : Path} {device : ℕ} (hs : s.WellMapped) :
    Settles ((·.2) <$> portRead path h device s) s.maps (PortLeaks path h device s.maps) := by
  unfold portRead PortLeaks
  by_cases hnull : device = NULL
  · rw [if_pos hnull]
    refine .of_released (fun s' hs' => ?_) fun hleak => hleak.1 hnull
    cases hs'
    rfl
  rw [if_neg hnull]
  cases hgrant : h.mmap s.maps (mappingLen (KiB 8)) with
  | none =>
    -- the reads then go to the null pointer, or there is nothing to read
    have hmapped : mapArena h.toKernel (KiB 8) s.maps = none := by rw [mapArena, hgrant]; rfl
    have hbuffer : ∀ len, pushArray NULL 1 len s = .ok (NULL, s) := fun len => arenaAlloc_null _ s
    simp only [arenaCreate_of_refused hgrant, hbuffer, Except.ok_bind, hmapped, Option.isSome_none]
    refine .of_released (fun s' hs' => ?_) (by simp)
    cases hfile : h.file path with
    | none =>
      rw [hfile] at hs'
      cases hs'
      rfl
    | some text =>
      rw [hfile] at hs'
      cases hs'
  | some a =>
    obtain ⟨ha, -, hmaps, -⟩ := arenaCreate_of_granted hgrant
    have hmapped : mapArena h.toKernel (KiB 8) s.maps =
        some (arenaCreate h.toKernel (KiB 8) s).2.maps := by
      rw [hmaps, mapArena, hgrant]
      rfl
    obtain ⟨hat, hpos⟩ := arenaAt_of_granted hgrant
    rw [hmapped, and_iff_right hnull, Option.isSome_some, and_iff_right rfl]
    generalize harena : arenaCreate h.toKernel (KiB 8) s = created at *
    obtain ⟨arena, s₀⟩ := created
    obtain rfl : arena = a := ha
    dsimp only at hmaps hat hpos ⊢
    cases hfile : h.file path with
    | none =>
      -- the early return leaves the arena mapped
      refine ⟨iff_of_true ⟨s₀, rfl, ?_⟩ rfl, ?_⟩
      · rw [hmaps]
        simp
      · rintro s' hs'
        cases hs'
        obtain ⟨r, hr, hlt⟩ := mapArena_eq_some hmapped
        exact .inr ⟨r, hr, hlt⟩
    | some text =>
      -- the scratch arena always has room for the buffer
      have hroom : HasRoom arena (KiB 8) s₀ (1 * UInt64.ofNat buffSmall).toNat :=
        hat.hasRoom (by decide) (by rw [hpos]; decide)
      obtain ⟨s₁, hpush, hat₁, -, hmaps₁, -⟩ := hat.alloc_of_room hroom
      have hpush' : pushArray arena 1 (UInt64.ofNat buffSmall) s₀ = _ := hpush
      have hbuffer : arenaBase arena + position arena s₀ ≠ NULL := arenaBase_add_ne_null _ _
      simp only [hpush', Except.ok_bind, if_neg hbuffer]
      refine .of_released (fun s' hs' => ?_) (by simp)
      exact portReadLoop_released hs hgrant hat₁ (Nat.le_add_right _ _) (hmaps₁.trans hmaps) hs'

/-- Every call leaves a mapping behind iff it leaks. -/
theorem Call.settles (c : Call) (hs : s.WellMapped) :
    Settles (c.run s) s.maps (c.Leaks s.maps) := by
  cases c with
  | getSystemResources arch h ctx => exact getSystemResources_settles hs
  | getCpu arch h ctx => exact getCpu_settles hs
  | getMemory h ctx => exact getMemory_settles hs
  | portTcp4 h device => exact port_settles hs
  | portTcp6 h device => exact port_settles hs

/-! ### Sequences of calls -/

/-- A further call, unless one before it did not return. -/
def Call.next (r : Except Halt Proc) (c : Call) : Except Halt Proc := r >>= c.run

/-- The call, if it returns, has released every arena it created. -/
def Call.Releases (r : Except Halt Proc) (c : Call) : Prop :=
  ∀ s s', r = .ok s → c.run s = .ok s' → s'.maps = s.maps

/-- The call does not leak. -/
def Call.Sound (r : Except Halt Proc) (c : Call) : Prop := ∀ s, r = .ok s → ¬ c.Leaks s.maps

/-- The mappings are ranges. -/
def MappedWell (r : Except Halt Proc) : Prop := ∀ s, r = .ok s → s.WellMapped

theorem MappedWell.next {r : Except Halt Proc} (hr : MappedWell r) (c : Call) :
    MappedWell (c.next r) := by
  intro s' hs'
  obtain ⟨s, hs, hrun⟩ := Except.bind_eq_ok.mp hs'
  rcases (c.settles (hr s hs)).2 s' hrun with hmaps | ⟨m, hmaps, hlt⟩
  · intro m hm
    rw [hmaps] at hm
    exact hr s hs m hm
  · intro m' hm'
    rw [hmaps] at hm'
    rcases List.mem_cons.mp hm' with rfl | hm'
    · exact hlt
    · exact hr s hs m' hm'

theorem MappedWell.releases_iff {r : Except Halt Proc} (hr : MappedWell r) (c : Call) :
    c.Releases r ↔ c.Sound r := by
  constructor
  · intro hrel s hs hleak
    obtain ⟨s', hs', hne⟩ := (c.settles (hr s hs)).1.mpr hleak
    exact hne (hrel s s' hs hs')
  · intro hsound s s' hs hs'
    by_contra hne
    exact hsound s hs ((c.settles (hr s hs)).1.mp ⟨s', hs', hne⟩)

/-- A run never has fewer mappings at its end, and as many only if no call leaked. -/
theorem MappedWell.length_maps {r : Except Halt Proc} (hr : MappedWell r) (calls : List Call)
    {s s' : Proc} (hs : r = .ok s) (hs' : calls.foldl Call.next r = .ok s') :
    s.maps.length ≤ s'.maps.length ∧
      (s'.maps.length = s.maps.length ↔ Run.Along Call.next Call.Sound r calls) := by
  induction calls generalizing r s with
  | nil =>
    obtain rfl : s = s' := Except.ok.inj (hs.symm.trans hs')
    exact ⟨le_rfl, iff_of_true rfl trivial⟩
  | cons c calls ih =>
    subst hs
    rw [List.foldl_cons] at hs'
    have hmapped := hr s rfl
    cases hrun : c.run s with
    | error e =>
      have hstuck : calls.foldl Call.next (.error e) = .error e :=
        List.foldl_fixed' (fun _ => rfl) calls
      rw [Call.next, Except.ok_bind, hrun, hstuck] at hs'
      cases hs'
    | ok s₁ =>
      have hnext : c.next (.ok s) = .ok s₁ := hrun
      rw [hnext] at hs'
      have hr₁ : MappedWell (.ok s₁) := hnext ▸ hr.next c
      obtain ⟨hle, hiff⟩ := ih hr₁ rfl hs'
      obtain ⟨hleaks, hcases⟩ := c.settles hmapped
      rw [Run.along_cons, hnext, ← hiff]
      -- the call left the mappings as they were, or one more
      rcases hcases s₁ hrun with hmaps | ⟨m, hmaps, -⟩
      · have hsound : c.Sound (.ok s) := by
          intro s₂ hs₂ hleak
          obtain rfl := Except.ok.inj hs₂
          obtain ⟨s₃, hs₃, hne⟩ := hleaks.mpr hleak
          obtain rfl : s₁ = s₃ := Except.ok.inj (hrun.symm.trans hs₃)
          exact hne hmaps
        rw [hmaps] at hle hiff ⊢
        exact ⟨hle, (and_iff_right hsound).symm⟩
      · -- this call leaked, and no later one takes the mapping back
        have hlen : s₁.maps.length = s.maps.length + 1 := by rw [hmaps, List.length_cons]
        have hne : s₁.maps ≠ s.maps := fun heq => by simp [heq] at hlen
        refine ⟨by omega, iff_of_false (by omega) fun hsound => ?_⟩
        exact hsound.1 s rfl (hleaks.mp ⟨s₁, hrun, hne⟩)

/-- In every sequence of calls: each that returns releases its arenas iff none leaks, and then, and
only then, a sequence that returns ends with as many mappings as it began with. -/
theorem calls_release_iff (s : Proc) (hs : s.WellMapped) (calls : List Call) :
    (Run.Along Call.next Call.Releases (.ok s) calls ↔
      Run.Along Call.next Call.Sound (.ok s) calls) ∧
    ∀ s', calls.foldl Call.next (.ok s) = .ok s' →
      (s'.maps.length = s.maps.length ↔ Run.Along Call.next Call.Sound (.ok s) calls) := by
  have hstart : MappedWell (.ok s) := fun s' hs' => Except.ok.inj hs' ▸ hs
  have hany : Run.Along Call.next (fun _ _ => True) (.ok s) calls :=
    Run.along_of_forall_mem fun _ _ _ => trivial
  exact ⟨Run.along_iff_of_invariant MappedWell (fun r c hr _ _ => hr.next c)
      (fun r c hr _ => hr.releases_iff c) hstart hany,
    fun s' hs' => (hstart.length_maps calls rfl hs').2⟩

theorem calls_release_iff_sample :
    Run.Along Call.next Call.Releases (.ok Proc.fresh) [.getCpu .x86 sampleHost sampleContext] ↔
      Run.Along Call.next Call.Sound (.ok Proc.fresh) [.getCpu .x86 sampleHost sampleContext] :=
  (calls_release_iff Proc.fresh wellMapped_fresh _).1

/-- Without `/etc/tcp` the port reader leaves its arena mapped. -/
theorem not_calls_release : ¬ ∀ (s : Proc) (calls : List Call), s.WellMapped →
    Run.Along Call.next Call.Releases (.ok s) calls := by
  intro hall
  have hreleases := (hall Proc.fresh [.portTcp4 sampleHost 1] wellMapped_fresh).1
  have hstart : MappedWell (.ok Proc.fresh) :=
    fun s' hs' => Except.ok.inj hs' ▸ wellMapped_fresh
  refine (hstart.releases_iff _).mp hreleases Proc.fresh rfl ?_
  exact ⟨by decide, by decide +kernel, rfl⟩

end AgentResources
