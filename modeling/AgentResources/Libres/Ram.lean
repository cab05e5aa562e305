import AgentResources.Base.Arena
import AgentResources.Base.Host
import AgentResources.Base.Parse
import AgentResources.Foundations.Layout
import AgentResources.Foundations.Stream

/-!
# Reading the memory statistics

`sys_ram_read` of `resources.cc`. It copies each value it finds into a scratch arena of its own and
parses the last ones at the end, so it is modelled on the memory of the process.

The loop keeps `RamInv`: the scratch arena is as full as the values copied so far are long, its
blocks hold the last of them, and nothing outside it has changed. `sysRamRead_returns` says when the
reader returns (`RamReadable`), what it then stores (`ramOf`) and that it keeps everything else,
the mappings included.
-/

namespace AgentResources

/-- `struct sys_memory` -/
structure SysMemory where
  total : UInt64
  free : UInt64
  deriving DecidableEq

instance : Layout SysMemory :=
  Layout.ofFields (fun r => (r.total, r.free)) (fun (t, f) => ⟨t, f⟩) fun _ => rfl

/-- `sizeof(sys_memory)` -/
def sizeofSysMemory : UInt64 := 16

/-- `ram_create` -/
def ramCreate (arena : ℕ) (s : Proc) : Except Halt (ℕ × Proc) :=
  arenaAlloc arena sizeofSysMemory s

/-- The locals of `sys_ram_read`: a buffer and its length, once they are set, for either number. -/
structure RamLocals where
  proc : Proc
  total : Option (ℕ × ℕ)
  free : Option (ℕ × ℕ)

/-- Copy a value into a new block of the scratch arena. -/
def copyToScratch (tempArena : ℕ) (value : List UInt8) (s : Proc) :
    Except Halt ((ℕ × ℕ) × Proc) := do
  let (buffer, s) ← pushArray tempArena 1 (UInt64.ofNat value.length) s
  if buffer = NULL then .error (.undefined .nullPointer)
  return ((buffer, value.length), s.withMem (s.mem.store buffer value))

/-- What `sys_ram_read` does with a chunk of `/proc/meminfo`. -/
def meminfoLine (tempArena : ℕ) (l : RamLocals) (chunk : List UInt8) : Except Halt RamLocals :=
  let buf := cstr chunk
  match afterColon [32] buf with
  | none => .ok l
  | some val => do
    -- up to `k` or the end of the line
    let value := spanUntil [107, 10] val
    let l ← if (ascii "MemTotal").isPrefixOf buf then do
        let (block, proc) ← copyToScratch tempArena value l.proc
        .ok { l with proc, total := some block }
      else .ok l
    if (ascii "MemFree").isPrefixOf buf then do
      let (block, proc) ← copyToScratch tempArena value l.proc
      .ok { l with proc, free := some block }
    else .ok l

/-- `sys_ram_read` -/
def sysRamRead (h : Host) (out : ℕ) (s : Proc) : Except Halt (ℤ × Proc) :=
  if out = NULL then .error .assertFailed
  else
    match h.file .procMeminfo with
    | none => .error .assertFailed
    | some text => do
      let (tempArena, s) := arenaCreate h.toKernel (KiB 8) s
      let l ← (Stream.chunks buffSmall text).foldlM (meminfoLine tempArena) ⟨s, none, none⟩
      match l.total, l.free with
      | some (totalBuffer, totalLen), some (freeBuffer, freeLen) =>
        let memory : SysMemory :=
          { total := parseU64 (l.proc.mem.load totalBuffer totalLen) totalLen
            free := parseU64 (l.proc.mem.load freeBuffer freeLen) freeLen }
        let s := l.proc.withMem (l.proc.mem.storeAs out memory)
        .ok (errOk, arenaDestroy tempArena s)
      | _, _ => .error (.undefined .uninitialized)

/-! ## The scratch arena -/

variable {arena : ℕ} {s : Proc} {value : List UInt8} {capacity : UInt64}

/-- A copy into the scratch arena goes through iff there is room for the value: then it is the
newest block, and only the header and the block have changed. -/
theorem copyToScratch_of_room (value : List UInt8) (ha : ArenaAt arena capacity s)
    (hroom : HasRoom arena capacity s value.length) :
    ∃ s', copyToScratch arena value s =
        .ok ((arenaBase arena + position arena s, value.length), s') ∧
      ArenaAt arena capacity s' ∧ position arena s' = position arena s + value.length ∧
      s'.maps = s.maps ∧
      s'.mem.load (arenaBase arena + position arena s) value.length = value ∧
      Set.EqOn s'.mem.byte s.mem.byte (Memory.range arena 16 ∪
        Memory.range (arenaBase arena + position arena s) value.length)ᶜ := by
  have hsize : (1 * UInt64.ofNat value.length).toNat = value.length := by
    have hlt := hroom.1.trans_lt capacity.toNat_lt
    rw [UInt64.one_mul, UInt64.toNat_ofNat', Nat.mod_eq_of_lt (by omega)]
  rw [← hsize] at hroom
  obtain ⟨s₁, halloc, hat, hpos, hmaps, -, heqOn⟩ := ha.alloc_of_room hroom
  rw [hsize] at hpos heqOn
  have hne : arenaBase arena + position arena s ≠ NULL := arenaBase_add_ne_null _ _
  -- the copy is behind the header
  obtain ⟨block, hblock⟩ : ∃ block, block = arenaBase arena + position arena s := ⟨_, rfl⟩
  have hbehind : arenaBase arena ≤ block := hblock ▸ Nat.le_add_right _ _
  obtain ⟨hat', hpos'⟩ := hat.store_behind hbehind value
  rw [← hblock] at halloc hne heqOn ⊢
  refine ⟨s₁.withMem (s₁.mem.store block value), ?_, hat', hpos'.trans hpos, ?_, ?_,
    fun x hx => ?_⟩
  · rw [copyToScratch, pushArray, halloc, Except.ok_bind]
    dsimp only
    rw [if_neg hne]
    rfl
  · rw [Proc.maps_withMem, hmaps]
  · rw [Proc.mem_withMem, Memory.load_store]
  · have hnot := hx
    rw [Set.compl_union] at hnot
    rw [Proc.mem_withMem, Memory.store_eqOn _ _ _ hnot.2]
    exact heqOn hx

theorem copyToScratch_of_full (ha : ArenaAt arena capacity s) (hlen : value.length < 2 ^ 32)
    (hcap : capacity.toNat < 2 ^ 63)
    (hfull : capacity.toNat < position arena s + value.length) :
    copyToScratch arena value s = .error (.undefined .nullPointer) := by
  have hsize : (1 * UInt64.ofNat value.length).toNat = value.length := by
    rw [UInt64.one_mul, UInt64.toNat_ofNat', Nat.mod_eq_of_lt (by omega)]
  have hpos := ha.position_le_toNat
  obtain ⟨-, halloc⟩ | ⟨hlim, -⟩ | ⟨hroom, -⟩ :=
    ha.alloc_cases (1 * UInt64.ofNat value.length)
  · rw [copyToScratch, pushArray, halloc]
    rfl
  · rw [hsize] at hlim
    omega
  · have hle := hroom.1
    rw [hsize] at hle
    omega

/-! ## The loop -/

/-- The values a text has for a key of `/proc/meminfo`. -/
def meminfoValues (key : String) (text : List UInt8) : List (List UInt8) :=
  (Stream.chunks buffSmall text).filterMap (lineValue [32] [107, 10] key)

/-- The total length of some values. -/
def totalLength (values : List (List UInt8)) : ℕ := (values.map List.length).sum

@[simp] theorem totalLength_append (vs ws : List (List UInt8)) :
    totalLength (vs ++ ws) = totalLength vs + totalLength ws := by
  simp [totalLength]

@[simp] theorem totalLength_singleton (v : List UInt8) : totalLength [v] = v.length := by
  simp [totalLength]

/-- The block, when it is set, lies below the position and holds the value. -/
def Holds (arena : ℕ) (s : Proc) (block : Option (ℕ × ℕ)) (value : Option (List UInt8)) : Prop :=
  match value with
  | none => block = none
  | some v => ∃ b, block = some (b, v.length) ∧ arenaBase arena ≤ b ∧
      b + v.length ≤ arenaBase arena + position arena s ∧ s.mem.load b v.length = v

/-- After the values `totals` and `frees` were copied: the scratch arena is intact and as full as
they are long, its blocks hold the last of them, and nothing outside the mapping from `arena` to
`top` has changed since `m₀`. -/
structure RamInv (arena top : ℕ) (maps : List Mapping) (m₀ : Memory)
    (totals frees : List (List UInt8)) (l : RamLocals) : Prop where
  arenaAt : ArenaAt arena (KiB 8) l.proc
  position_eq : position arena l.proc = totalLength totals + totalLength frees
  maps_eq : l.proc.maps = maps
  total : Holds arena l.proc l.total totals.getLast?
  free : Holds arena l.proc l.free frees.getLast?
  frame : Set.EqOn l.proc.mem.byte m₀.byte (Set.Ico arena top)ᶜ

/-- A block below the position keeps its value when later blocks are written. -/
theorem Holds.of_eqOn {s' : Proc} {block : Option (ℕ × ℕ)} {value : Option (List UInt8)} {n : ℕ}
    (h : Holds arena s block value) (hpos : position arena s' = position arena s + n)
    (heqOn : Set.EqOn s'.mem.byte s.mem.byte (Memory.range arena 16 ∪
      Memory.range (arenaBase arena + position arena s) n)ᶜ) : Holds arena s' block value := by
  cases value with
  | none => exact h
  | some v =>
    obtain ⟨b, hb, hlo, hhi, hload⟩ := h
    refine ⟨b, hb, hlo, by omega, ?_⟩
    have heq : s'.mem.load b v.length = s.mem.load b v.length := by
      refine Memory.load_eq_of_eqOn (heqOn.mono fun x hx => ?_)
      simp only [arenaBase, sizeofMemArena] at *
      rw [Set.mem_Ico] at hx
      rw [Set.compl_union, Set.mem_inter_iff, Set.mem_compl_iff, Set.mem_compl_iff, Set.mem_Ico,
        Set.mem_Ico]
      omega
    rw [heq, hload]

/-- `total_buffer` is set to a copy of the value. -/
def setTotal (arena : ℕ) (value : List UInt8) (l : RamLocals) : Except Halt RamLocals := do
  let (block, proc) ← copyToScratch arena value l.proc
  .ok { l with proc, total := some block }

/-- `free_buffer` is set to a copy of the value. -/
def setFree (arena : ℕ) (value : List UInt8) (l : RamLocals) : Except Halt RamLocals := do
  let (block, proc) ← copyToScratch arena value l.proc
  .ok { l with proc, free := some block }

/-- The locals with the two numbers exchanged. -/
def RamLocals.swap (l : RamLocals) : RamLocals := ⟨l.proc, l.free, l.total⟩

theorem setFree_eq (arena : ℕ) (value : List UInt8) (l : RamLocals) :
    setFree arena value l = setTotal arena value l.swap >>= fun l' => .ok l'.swap := by
  simp only [setFree, setTotal, bind_assoc]
  rfl

/-- A chunk sets either number if it has a value for its key. -/
theorem meminfoLine_eq (arena : ℕ) (l : RamLocals) (chunk : List UInt8) :
    meminfoLine arena l chunk =
      ((lineValue [32] [107, 10] "MemTotal" chunk).elim (.ok l) (setTotal arena · l) >>= fun l =>
        (lineValue [32] [107, 10] "MemFree" chunk).elim (.ok l) (setFree arena · l)) := by
  simp only [meminfoLine, lineValue]
  cases afterColon [32] (cstr chunk) with
  | none => simp only [Option.map_none, ite_self, Option.elim_none, Except.ok_bind]
  | some val =>
    by_cases htotal : (ascii "MemTotal").isPrefixOf (cstr chunk) <;>
      by_cases hfree : (ascii "MemFree").isPrefixOf (cstr chunk) <;>
        simp only [htotal, hfree, setTotal, setFree, Option.map_some, Option.elim_some,
          Option.elim_none, if_true, if_false, Bool.false_eq_true, bind_assoc, Except.ok_bind]

namespace RamInv

variable {top : ℕ} {maps : List Mapping} {m₀ : Memory} {totals frees : List (List UInt8)}
  {l : RamLocals}

theorem totalLength_le (hinv : RamInv arena top maps m₀ totals frees l) :
    totalLength totals + totalLength frees ≤ 8192 := by
  have hcap : (KiB 8).toNat = 8192 := by decide
  have hle := hinv.arenaAt.position_le_toNat
  rwa [hinv.position_eq, hcap] at hle

/-- A value for which there is room is copied to a new block; the older blocks keep theirs. -/
theorem copy (hinv : RamInv arena top maps m₀ totals frees l)
    (htop : arenaBase arena + 8192 ≤ top)
    (hroom : totalLength totals + totalLength frees + value.length ≤ 8192) :
    ∃ block s', copyToScratch arena value l.proc = .ok (block, s') ∧
      ArenaAt arena (KiB 8) s' ∧
      position arena s' = totalLength totals + totalLength frees + value.length ∧
      s'.maps = maps ∧ Holds arena s' (some block) (some value) ∧
      (∀ b v, Holds arena l.proc b v → Holds arena s' b v) ∧
      Set.EqOn s'.mem.byte m₀.byte (Set.Ico arena top)ᶜ := by
  have hcap : (KiB 8).toNat = 8192 := by decide
  have hpos := hinv.position_eq
  obtain ⟨s', hcopy, hat, hpos', hmaps, hload, heqOn⟩ :=
    copyToScratch_of_room value hinv.arenaAt (hinv.arenaAt.hasRoom (by decide) (by omega))
  refine ⟨_, s', hcopy, hat, by omega, hmaps.trans hinv.maps_eq,
    ⟨_, rfl, by omega, by omega, hload⟩, fun b v hb => hb.of_eqOn hpos' heqOn, ?_⟩
  refine Set.EqOn.trans (heqOn.mono ?_) hinv.frame
  refine Set.compl_subset_compl.mpr (Set.union_subset ?_ ?_)
  · refine Set.Ico_subset_Ico le_rfl ?_
    simp only [arenaBase, sizeofMemArena] at htop
    omega
  · refine Set.Ico_subset_Ico ?_ (by omega)
    simp only [arenaBase]
    omega

/-- A value for which there is no room stops the reader. -/
theorem copy_of_full (hinv : RamInv arena top maps m₀ totals frees l)
    (hlen : value.length < 2 ^ 32)
    (hfull : 8192 < totalLength totals + totalLength frees + value.length) :
    copyToScratch arena value l.proc = .error (.undefined .nullPointer) := by
  have hcap : (KiB 8).toNat = 8192 := by decide
  have hpos := hinv.position_eq
  exact copyToScratch_of_full hinv.arenaAt hlen (by omega) (by omega)

/-- Setting the total, or not, as a chunk has it. -/
theorem setTotal_step (hinv : RamInv arena top maps m₀ totals frees l)
    (htop : arenaBase arena + 8192 ≤ top) {v : Option (List UInt8)}
    (hlen : ∀ value ∈ v, value.length < 2 ^ 32) :
    Except.Returns (v.elim (.ok l) (setTotal arena · l))
      (totalLength (totals ++ v.toList) + totalLength frees ≤ 8192)
      (RamInv arena top maps m₀ (totals ++ v.toList) frees) := by
  cases v with
  | none =>
    simp only [Option.toList_none, List.append_nil, Option.elim_none]
    exact Except.Returns.ok_of hinv.totalLength_le hinv
  | some value =>
    simp only [Option.toList_some, totalLength_append, totalLength_singleton, Option.elim_some,
      setTotal]
    by_cases hroom : totalLength totals + totalLength frees + value.length ≤ 8192
    · obtain ⟨block, s', hcopy, hat, hpos, hmaps, hnew, hold, hframe⟩ := hinv.copy htop hroom
      rw [hcopy, Except.ok_bind]
      refine Except.Returns.ok_of (by omega) ⟨hat, ?_, hmaps, ?_, hold _ _ hinv.free, hframe⟩
      · rw [hpos, totalLength_append, totalLength_singleton]
        omega
      · rwa [List.getLast?_concat]
    · rw [hinv.copy_of_full (hlen value rfl) (by omega), Except.error_bind]
      exact Except.Returns.error _ (by omega)

/-- The two numbers are treated alike. -/
theorem swap (hinv : RamInv arena top maps m₀ totals frees l) :
    RamInv arena top maps m₀ frees totals l.swap where
  arenaAt := hinv.arenaAt
  position_eq := by
    rw [Nat.add_comm]
    exact hinv.position_eq
  maps_eq := hinv.maps_eq
  total := hinv.free
  free := hinv.total
  frame := hinv.frame

/-- Setting the free part, or not, as a chunk has it. -/
theorem setFree_step (hinv : RamInv arena top maps m₀ totals frees l)
    (htop : arenaBase arena + 8192 ≤ top) {v : Option (List UInt8)}
    (hlen : ∀ value ∈ v, value.length < 2 ^ 32) :
    Except.Returns (v.elim (.ok l) (setFree arena · l))
      (totalLength totals + totalLength (frees ++ v.toList) ≤ 8192)
      (RamInv arena top maps m₀ totals (frees ++ v.toList)) := by
  have hset : v.elim (.ok l) (setFree arena · l) =
      v.elim (.ok l.swap) (setTotal arena · l.swap) >>= fun l' => .ok l'.swap := by
    cases v with
    | none => rfl
    | some value => exact setFree_eq arena value l
  rw [hset, Nat.add_comm]
  exact ((hinv.swap.setTotal_step htop hlen).bind fun l' hinv' =>
    Except.Returns.ok hinv'.swap).imp (iff_of_eq (and_true _)) fun _ => id

/-- A chunk goes through iff its values fit the scratch arena. -/
theorem meminfoLine_step (hinv : RamInv arena top maps m₀ totals frees l)
    (htop : arenaBase arena + 8192 ≤ top) {chunk : List UInt8} (hchunk : chunk.length < 2 ^ 32) :
    let totals' := totals ++ (lineValue [32] [107, 10] "MemTotal" chunk).toList
    let frees' := frees ++ (lineValue [32] [107, 10] "MemFree" chunk).toList
    Except.Returns (meminfoLine arena l chunk) (totalLength totals' + totalLength frees' ≤ 8192)
      (RamInv arena top maps m₀ totals' frees') := by
  intro totals' frees'
  have hlen : ∀ key, ∀ value ∈ lineValue [32] [107, 10] key chunk, value.length < 2 ^ 32 :=
    fun key value hvalue => (length_lineValue_le hvalue).trans_lt hchunk
  have hle : totalLength frees ≤ totalLength frees' := by simp [frees']
  rw [meminfoLine_eq]
  refine ((hinv.setTotal_step htop (hlen "MemTotal")).bind fun l' hinv' =>
    hinv'.setFree_step htop (hlen "MemFree")).imp ?_ fun _ => id
  exact and_iff_right_of_imp fun hroom => (Nat.add_le_add_left hle _).trans hroom

/-- The loop goes through iff all values fit the scratch arena together. -/
theorem foldlM_meminfoLine (hinv : RamInv arena top maps m₀ totals frees l)
    (htop : arenaBase arena + 8192 ≤ top) {chunks : List (List UInt8)}
    (hchunks : ∀ chunk ∈ chunks, chunk.length < 2 ^ 32) :
    let totals' := totals ++ chunks.filterMap (lineValue [32] [107, 10] "MemTotal")
    let frees' := frees ++ chunks.filterMap (lineValue [32] [107, 10] "MemFree")
    Except.Returns (chunks.foldlM (meminfoLine arena) l)
      (totalLength totals' + totalLength frees' ≤ 8192)
      (RamInv arena top maps m₀ totals' frees') := by
  induction chunks generalizing totals frees l with
  | nil =>
    simp only [List.filterMap_nil, List.append_nil, List.foldlM_nil]
    exact Except.Returns.ok_of hinv.totalLength_le hinv
  | cons chunk chunks ih =>
    intro totals' frees'
    obtain ⟨hchunk, hrest⟩ := List.forall_mem_cons.mp hchunks
    have hsplit : ∀ key, (chunk :: chunks).filterMap (lineValue [32] [107, 10] key) =
        (lineValue [32] [107, 10] key chunk).toList ++
          chunks.filterMap (lineValue [32] [107, 10] key) := by
      intro key
      rw [List.filterMap_cons]
      cases lineValue [32] [107, 10] key chunk <;> rfl
    simp only [totals', frees', hsplit, ← List.append_assoc]
    rw [List.foldlM_cons]
    refine ((hinv.meminfoLine_step htop hchunk).bind fun l' hinv' => ih hinv' hrest).imp ?_
      fun _ => id
    -- what fits after all chunks fits after the first
    refine and_iff_right_of_imp fun hroom => ?_
    rw [totalLength_append _ (chunks.filterMap _),
      totalLength_append _ (chunks.filterMap _)] at hroom
    omega

end RamInv

variable {h : Host} {out : ℕ}

/-! ## The whole reader -/

/-- The number of the last value a text has for a key. -/
def lastNumber (key : String) (text : List UInt8) : UInt64 :=
  let value := (meminfoValues key text).getLast?.getD []
  parseU64 value value.length

/-- What the reader makes of a text that has both numbers. -/
def ramOf (text : List UInt8) : SysMemory := ⟨lastNumber "MemTotal" text, lastNumber "MemFree" text⟩

/-- The file is there, the scratch arena is granted, the file has a value for either key, and the
scratch arena has room for all the values. -/
def RamReadable (h : Host) (maps : List Mapping) : Prop :=
  ∃ text, h.file .procMeminfo = some text ∧ (h.mmap maps (mappingLen (KiB 8))).isSome ∧
    meminfoValues "MemTotal" text ≠ [] ∧ meminfoValues "MemFree" text ≠ [] ∧
    totalLength (meminfoValues "MemTotal" text) + totalLength (meminfoValues "MemFree" text) ≤ 8192

/-- Without a scratch arena only lines without a value go through, and they change nothing. -/
theorem foldlM_meminfoLine_null {chunks : List (List UInt8)} {l l' : RamLocals}
    (hrun : chunks.foldlM (meminfoLine NULL) l = .ok l') : l' = l := by
  have hcopy : ∀ value s, copyToScratch NULL value s = .error (.undefined .nullPointer) :=
    fun value s => by simp [copyToScratch, pushArray]
  have hstep : ∀ l chunk l', meminfoLine NULL l chunk = .ok l' ↔
      (lineValue [32] [107, 10] "MemTotal" chunk = none ∧
        lineValue [32] [107, 10] "MemFree" chunk = none) ∧ l' = l := by
    intro l chunk l'
    rw [meminfoLine_eq]
    cases lineValue [32] [107, 10] "MemTotal" chunk <;>
      cases lineValue [32] [107, 10] "MemFree" chunk <;>
        simp [setTotal, setFree, hcopy, eq_comm]
  rw [((Except.foldlM_eq_ok hstep).mp hrun).2]
  exact List.foldl_fixed chunks

theorem mappingLen_scratch : mappingLen (KiB 8) = 8224 := by decide

/-- A new scratch arena, with nothing copied yet. -/
theorem ramInv_create {a : ℕ} (hgrant : h.mmap s.maps (mappingLen (KiB 8)) = some a) :
    let top := a + pageRound (mappingLen (KiB 8))
    RamInv a top (⟨a, top⟩ :: s.maps) s.mem [] []
      ⟨(arenaCreate h.toKernel (KiB 8) s).2, none, none⟩ ∧ arenaBase a + 8192 ≤ top := by
  obtain ⟨-, -, hmaps, heqOn⟩ := arenaCreate_of_granted hgrant
  obtain ⟨hat, hpos⟩ := arenaAt_of_granted hgrant
  refine ⟨⟨hat, hpos, hmaps, rfl, rfl, heqOn⟩, ?_⟩
  have hle := le_pageRound (mappingLen (KiB 8))
  rw [mappingLen_scratch] at hle ⊢
  simp only [arenaBase, sizeofMemArena]
  omega

/-- The end of the reader, once the loop is done. -/
def ramFinish (tempArena out : ℕ) (l : RamLocals) : Except Halt (ℤ × Proc) :=
  match l.total, l.free with
  | some (totalBuffer, totalLen), some (freeBuffer, freeLen) =>
    let memory : SysMemory :=
      { total := parseU64 (l.proc.mem.load totalBuffer totalLen) totalLen
        free := parseU64 (l.proc.mem.load freeBuffer freeLen) freeLen }
    .ok (errOk, arenaDestroy tempArena (l.proc.withMem (l.proc.mem.storeAs out memory)))
  | _, _ => .error (.undefined .uninitialized)

theorem sysRamRead_of_file {text : List UInt8} (hne : out ≠ NULL)
    (hfile : h.file .procMeminfo = some text) :
    sysRamRead h out s =
      (Stream.chunks buffSmall text).foldlM
        (meminfoLine (arenaCreate h.toKernel (KiB 8) s).1)
        ⟨(arenaCreate h.toKernel (KiB 8) s).2, none, none⟩ >>=
          ramFinish (arenaCreate h.toKernel (KiB 8) s).1 out := by
  simp only [sysRamRead, if_neg hne, hfile]
  rfl

theorem ramFinish_returns {a : ℕ} {totals frees : List (List UInt8)} {l : RamLocals}
    (hmaps : s.WellMapped) (hgrant : h.mmap s.maps (mappingLen (KiB 8)) = some a)
    (hout : ∃ r ∈ s.maps, r.lo ≤ out ∧ out + 16 ≤ r.hi)
    (hinv : RamInv a (a + pageRound (mappingLen (KiB 8)))
      (⟨a, a + pageRound (mappingLen (KiB 8))⟩ :: s.maps) s.mem totals frees l) :
    Except.Returns (ramFinish a out l) (totals ≠ [] ∧ frees ≠ []) fun r =>
      r.1 = errOk ∧ Kept out 16 s r.2 ∧
      r.2.mem.loadAs SysMemory out =
        ⟨parseU64 (totals.getLast?.getD []) (totals.getLast?.getD []).length,
          parseU64 (frees.getLast?.getD []) (frees.getLast?.getD []).length⟩ := by
  have htotal := hinv.total
  have hfree := hinv.free
  cases hT : totals.getLast? with
  | none =>
    -- a null pointer is parsed
    simp only [hT, Holds] at htotal
    rw [List.getLast?_eq_none_iff] at hT
    simp only [ramFinish, htotal]
    refine Except.Returns.error _ ?_
    simp [hT]
  | some total =>
    cases hF : frees.getLast? with
    | none =>
      simp only [hT, hF, Holds] at htotal hfree
      obtain ⟨tb, htb, -⟩ := htotal
      rw [List.getLast?_eq_none_iff] at hF
      simp only [ramFinish, htb, hfree]
      refine Except.Returns.error _ ?_
      simp [hF]
    | some free =>
      simp only [hT, hF, Holds] at htotal hfree
      obtain ⟨tb, htb, -, -, htload⟩ := htotal
      obtain ⟨fb, hfb, -, -, hfload⟩ := hfree
      have hne : totals ≠ [] ∧ frees ≠ [] := by
        constructor <;> rintro rfl <;> simp at hT hF
      simp only [ramFinish, htb, hfb, htload, hfload, Option.getD_some]
      refine Except.Returns.ok_of hne ?_
      generalize (⟨parseU64 total total.length, parseU64 free free.length⟩ : SysMemory) = memory
      obtain ⟨r, hr, hlo, hhi⟩ := hout
      obtain ⟨hlen, -, -, -, hfresh⟩ := h.mmap_spec hgrant
      have hroom := sizeofMemArena_le_pageRound hlen
      have hstore := l.proc.mem.storeAs_eqOn out memory
      -- the struct is in an older mapping than the scratch arena
      have haway : out + 16 ≤ a ∨ a + pageRound (mappingLen (KiB 8)) ≤ out := by
        rcases hfresh r hr with hle | hle <;> omega
      have hheader : Memory.range a sizeofMemArena ⊆ (Memory.range out 16)ᶜ :=
        Memory.range_subset_compl (by omega)
      have hat : ArenaAt a (KiB 8) (l.proc.withMem (l.proc.mem.storeAs out memory)) :=
        hinv.arenaAt.of_eqOn (Proc.maps_withMem _ _) (hstore.mono hheader)
      refine ⟨rfl, ⟨maps_arenaDestroy hat hmaps hgrant ?_, fun r' hr' x hx => ?_⟩, ?_⟩
      · rw [Proc.maps_withMem, hinv.maps_eq]
      · -- a byte of an older mapping is in none of the scratch arena
        rw [mem_arenaDestroy, Proc.mem_withMem, hstore hx.2]
        refine hinv.frame ?_
        rw [Set.mem_compl_iff, Set.mem_Ico]
        have hx' := hx.1
        rw [Set.mem_Ico] at hx'
        rcases hfresh r' hr' with hle | hle <;> omega
      · rw [mem_arenaDestroy, Proc.mem_withMem, Memory.loadAs_storeAs]

/-- The reader returns iff the file is readable; then it has set the struct and kept the rest. -/
theorem sysRamRead_returns (hne : out ≠ NULL) (hmaps : s.WellMapped)
    (hout : ∃ r ∈ s.maps, r.lo ≤ out ∧ out + 16 ≤ r.hi) :
    Except.Returns (sysRamRead h out s) (RamReadable h s.maps) fun r =>
      r.1 = errOk ∧ Kept out 16 s r.2 ∧
      ∀ text, h.file .procMeminfo = some text → r.2.mem.loadAs SysMemory out = ramOf text := by
  cases hfile : h.file .procMeminfo with
  | none =>
    have hrun : sysRamRead h out s = .error .assertFailed := by
      simp only [sysRamRead, if_neg hne, hfile]
    rw [hrun]
    exact Except.Returns.error _ (by simp [RamReadable, hfile])
  | some text =>
    rw [sysRamRead_of_file hne hfile]
    cases hgrant : h.mmap s.maps (mappingLen (KiB 8)) with
    | none =>
      rw [arenaCreate_of_refused hgrant]
      -- neither number is ever set
      have hnever : ∀ r, (Stream.chunks buffSmall text).foldlM (meminfoLine NULL) ⟨s, none, none⟩
          >>= ramFinish NULL out ≠ .ok r := by
        intro r hr
        obtain ⟨l, hl, hfinish⟩ := Except.bind_eq_ok.mp hr
        rw [foldlM_meminfoLine_null hl] at hfinish
        cases hfinish
      exact ⟨iff_of_false (fun ⟨r, hr⟩ => hnever r hr) (by simp [RamReadable, hgrant]),
        fun r hr => absurd hr (hnever r)⟩
    | some a =>
      obtain ⟨ha, -⟩ := arenaCreate_of_granted hgrant
      obtain ⟨hinv, htop⟩ := ramInv_create hgrant
      have hchunks : ∀ chunk ∈ Stream.chunks buffSmall text, chunk.length < 2 ^ 32 :=
        fun chunk hchunk => (Stream.length_le_of_mem_chunks hchunk).trans_lt (by decide)
      rw [ha]
      refine ((hinv.foldlM_meminfoLine htop hchunks).bind fun l hl =>
        ramFinish_returns hmaps hgrant hout hl).imp ?_ ?_
      · simp only [RamReadable, hfile, hgrant, Option.some.injEq, exists_eq_left', meminfoValues,
          Option.isSome_some, List.nil_append, true_and]
        tauto
      · rintro r ⟨hcode, hkept, hload⟩
        refine ⟨hcode, hkept, fun text' htext' => ?_⟩
        obtain rfl : text = text' := Option.some.inj htext'
        exact hload

end AgentResources
