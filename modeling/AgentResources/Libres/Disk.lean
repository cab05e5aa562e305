import AgentResources.Base.Arena
import AgentResources.Base.Host
import AgentResources.Foundations.Layout
import AgentResources.Foundations.Scanf
import AgentResources.Foundations.Stream

/-!
# Reading the partitions

`disk_push_partition` and `disk_read` of `resources.cc`. The list of partitions grows by doubling:
a new array is taken from the arena and the old one is abandoned there.

`DiskInv` says where the list is: the struct after the header of the arena, its array among the
bytes handed out later. A push keeps it (`DiskInv.diskPushPartition`) and changes nothing outside
`diskFootprint`, so reading the partitions leaves every other struct in the arena alone
(`DiskInv.diskRead`).
-/

namespace AgentResources

/-- `struct sys_partition` -/
structure SysPartition where
  blocks : UInt64
  major : UInt32
  minor : UInt32
  name : Vector UInt8 32
  deriving DecidableEq

instance : Layout SysPartition := Layout.ofFields
  (fun p => (p.blocks, p.major, p.minor, p.name)) (fun (b, j, i, n) => ⟨b, j, i, n⟩) fun _ => rfl

/-- `sizeof(sys_partition)` -/
def sizeofSysPartition : UInt64 := 48

/-- `struct sys_disk` -/
structure SysDisk where
  partitions : UInt64
  partCount : UInt64
  partCapacity : UInt64
  deriving DecidableEq

instance : Layout SysDisk := Layout.ofFields
  (fun d => (d.partitions, d.partCount, d.partCapacity)) (fun (p, n, c) => ⟨p, n, c⟩) fun _ => rfl

/-- `sizeof(sys_disk)` -/
def sizeofSysDisk : UInt64 := 24

/-- `disk_create` -/
def diskCreate (arena : ℕ) (s : Proc) : Except Halt (ℕ × Proc) :=
  arenaAlloc arena sizeofSysDisk s

/-- Store a partition behind the last one. -/
def appendPartition (d : ℕ) (p : SysPartition) (s : Proc) : Except Halt Proc :=
  let disk := s.mem.loadAs SysDisk d
  if disk.partitions = 0 then .error (.undefined .nullPointer)
  else
    let slot := disk.partitions.toNat + sizeofSysPartition.toNat * disk.partCount.toNat
    let m := s.mem.storeAs d { disk with partCount := disk.partCount + 1 }
    .ok (s.withMem (m.storeAs slot p))

/-- `disk_push_partition` -/
def diskPushPartition (d : ℕ) (p : SysPartition) (arena : ℕ) (s : Proc) : Except Halt Proc :=
  let disk := s.mem.loadAs SysDisk d
  if disk.partCount = disk.partCapacity then do
    let newCap := if disk.partCapacity ≠ 0 then disk.partCapacity * 2 else 8
    let (np, s) ← pushArray arena sizeofSysPartition newCap s
    if np = NULL then return s
    let m := if disk.partitions ≠ 0 ∧ disk.partCount > 0
      then s.mem.store np
        (s.mem.load disk.partitions.toNat (disk.partCount * sizeofSysPartition).toNat)
      else s.mem
    let m := m.storeAs d { disk with partitions := UInt64.ofNat np, partCapacity := newCap }
    appendPartition d p (s.withMem m)
  else appendPartition d p s

/-- The partition of a line of `/proc/partitions`, if it is one. -/
def partitionLine (chunk : List UInt8) : Option SysPartition := do
  let (major, text) ← Scanf.scanD (cstr chunk)
  let (minor, text) ← Scanf.scanD text
  let (blocks, text) ← Scanf.scanLu text
  let (name, _) ← Scanf.scanWord 255 text
  -- a name too long for the field is cut
  let name := name.take 31
  return { blocks, major, minor, name := overlay (Vector.replicate 32 0) (name ++ [0]) }

/-- `disk_read` -/
def diskRead (h : Host) (out arena : ℕ) (s : Proc) : Except Halt (ℤ × Proc) :=
  if out = NULL then .error .assertFailed
  else
    match h.file .procPartitions with
    | none => .error .assertFailed
    | some text => do
      let s ← ((Stream.chunks buffDefault text).filterMap partitionLine).foldlM
        (fun s p => diskPushPartition out p arena s) s
      return (errOk, s)

/-! ## What reading the partitions keeps -/

variable {arena ptr lo : ℕ} {capacity : UInt64} {s : Proc}

/-- Where the struct and the arrays are: the struct at `ptr` after the header, the arrays from `lo`
on, in an arena whose size leaves room in a word. -/
structure DiskPlace (arena ptr lo : ℕ) (capacity : UInt64) : Prop where
  base_le : arenaBase arena ≤ ptr
  ptr_le : ptr + 24 ≤ lo
  capacity_le : capacity.toNat ≤ 2 ^ 40
  top_le : arenaBase arena + capacity.toNat ≤ 2 ^ 64

/-- The list is well formed: it has no more partitions than room, and its array, if it has one, lies
among the bytes that were handed out from `lo` on. -/
structure DiskInv (arena ptr lo : ℕ) (capacity : UInt64) (s : Proc) : Prop where
  arenaAt : ArenaAt arena capacity s
  lo_le : lo ≤ arenaBase arena + position arena s
  count_le : (s.mem.loadAs SysDisk ptr).partCount ≤ (s.mem.loadAs SysDisk ptr).partCapacity
  array : (s.mem.loadAs SysDisk ptr).partCapacity = 0 ∨
    lo ≤ (s.mem.loadAs SysDisk ptr).partitions.toNat ∧
    (s.mem.loadAs SysDisk ptr).partitions.toNat +
      48 * (s.mem.loadAs SysDisk ptr).partCapacity.toNat ≤ arenaBase arena + position arena s

/-- The bytes that pushing a partition may change: the positions in the header, the struct, and
everything from `lo` on. -/
def diskFootprint (arena ptr lo : ℕ) (capacity : UInt64) : Set ℕ :=
  Memory.range arena 16 ∪ Memory.range ptr 24 ∪ Set.Ico lo (arenaBase arena + capacity.toNat)

/-- A push keeps the list well formed, the mappings and all bytes outside its footprint. -/
structure DiskKept (arena ptr lo : ℕ) (capacity : UInt64) (s s' : Proc) : Prop where
  inv : DiskInv arena ptr lo capacity s'
  maps_eq : s'.maps = s.maps
  eqOn : Set.EqOn s'.mem.byte s.mem.byte (diskFootprint arena ptr lo capacity)ᶜ

/-- Storing a partition in a free slot. -/
theorem DiskInv.appendPartition (hinv : DiskInv arena ptr lo capacity s)
    (hplace : DiskPlace arena ptr lo capacity)
    (hlt : (s.mem.loadAs SysDisk ptr).partCount < (s.mem.loadAs SysDisk ptr).partCapacity)
    (p : SysPartition) :
    Except.Returns (appendPartition ptr p s) True (DiskKept arena ptr lo capacity s) := by
  obtain ⟨hbase, hptr, hcapacity, htop⟩ := hplace
  have hsize : Layout.size SysDisk = 24 := rfl
  have hsizeP : Layout.size SysPartition = 48 := rfl
  have hpos := hinv.arenaAt.position_le_toNat
  have harray := hinv.array
  set disk := s.mem.loadAs SysDisk ptr with hdisk
  rw [UInt64.lt_iff_toNat_lt] at hlt
  -- a list with a free slot has an array, which is not at zero
  have hcap : disk.partCapacity ≠ 0 := by
    rintro h0
    rw [h0, UInt64.toNat_zero] at hlt
    omega
  obtain ⟨hlo, hhi⟩ := harray.resolve_left hcap
  have hne : disk.partitions ≠ 0 := by
    rintro h0
    rw [h0, UInt64.toNat_zero] at hlo
    simp only [arenaBase, sizeofMemArena] at hbase
    omega
  set slot := disk.partitions.toNat + sizeofSysPartition.toNat * disk.partCount.toNat with hslot
  have h48 : sizeofSysPartition.toNat = 48 := rfl
  have hslotLo : lo ≤ slot := by omega
  have hslotHi : slot + 48 ≤ arenaBase arena + position arena s := by
    rw [hslot, h48]
    omega
  set m := s.mem.storeAs ptr { disk with partCount := disk.partCount + 1 } with hm
  have hrun : AgentResources.appendPartition ptr p s = .ok (s.withMem (m.storeAs slot p)) := by
    simp only [AgentResources.appendPartition, ← hdisk, if_neg hne]
    rfl
  rw [hrun]
  -- the two stores stay in the struct and in the arrays
  have heqOn : Set.EqOn (m.storeAs slot p).byte s.mem.byte
      (Memory.range ptr 24 ∪ Set.Ico lo (arenaBase arena + capacity.toNat))ᶜ := by
    intro x hx
    rw [Set.compl_union] at hx
    have hslotx : x ∈ (Memory.range slot 48)ᶜ :=
      Set.compl_subset_compl.mpr (Set.Ico_subset_Ico hslotLo (by omega)) hx.2
    rw [Memory.storeAs_eqOn _ _ _ hslotx, Memory.storeAs_eqOn _ _ _ hx.1]
  have hheader : memArena (s.withMem (m.storeAs slot p)).mem arena = memArena s.mem arena := by
    refine memArena_eq_of_eqOn (heqOn.mono fun x hx => ?_)
    rw [Set.mem_Ico, ← arenaBase] at hx
    rw [Set.compl_union, Set.mem_inter_iff, Set.mem_compl_iff, Set.mem_compl_iff, Set.mem_Ico,
      Set.mem_Ico]
    omega
  have hload : (s.withMem (m.storeAs slot p)).mem.loadAs SysDisk ptr =
      { disk with partCount := disk.partCount + 1 } := by
    have hkeep : Set.EqOn (m.storeAs slot p).byte m.byte (Memory.range ptr 24) :=
      (Memory.storeAs_eqOn _ _ _).mono (Memory.range_subset_compl (by rw [hsizeP]; omega))
    rw [Proc.mem_withMem, Memory.loadAs_eq_of_eqOn hkeep, hm, Memory.loadAs_storeAs]
  have hcount : (disk.partCount + 1).toNat = disk.partCount.toNat + 1 := by
    rw [UInt64.toNat_add, UInt64.toNat_one, Nat.mod_eq_of_lt]
    have := disk.partCapacity.toNat_lt
    omega
  refine Except.Returns.ok ⟨⟨hinv.arenaAt.of_memArena (Proc.maps_withMem _ _) hheader, ?_, ?_, ?_⟩,
    Proc.maps_withMem _ _, heqOn.mono ?_⟩
  · rw [position, hheader]
    exact hinv.lo_le
  · rw [hload, UInt64.le_iff_toNat_le, hcount]
    exact hlt
  · rw [hload, position, hheader]
    exact .inr ⟨hlo, hhi⟩
  · exact Set.compl_subset_compl.mpr (Set.union_subset_union_left _ Set.subset_union_right)

theorem DiskKept.refl (hinv : DiskInv arena ptr lo capacity s) :
    DiskKept arena ptr lo capacity s s := ⟨hinv, rfl, fun _ _ => rfl⟩

theorem DiskKept.trans {s' s'' : Proc} (h : DiskKept arena ptr lo capacity s s')
    (h' : DiskKept arena ptr lo capacity s' s'') : DiskKept arena ptr lo capacity s s'' :=
  ⟨h'.inv, h'.maps_eq.trans h.maps_eq, h'.eqOn.trans h.eqOn⟩

/-- The state after the list was moved to a new array of `newCap` partitions at `np`. -/
def grow (ptr np : ℕ) (newCap : UInt64) (disk : SysDisk) (s : Proc) : Proc :=
  let m := if disk.partitions ≠ 0 ∧ disk.partCount > 0
    then s.mem.store np
      (s.mem.load disk.partitions.toNat (disk.partCount * sizeofSysPartition).toNat)
    else s.mem
  s.withMem (m.storeAs ptr { disk with partitions := UInt64.ofNat np, partCapacity := newCap })

/-- Growing the list: the new array is the newest block of the arena, so the copy and the struct
stay within the footprint, and there is room for another partition. -/
theorem DiskInv.grow (hinv : DiskInv arena ptr lo capacity s)
    (hplace : DiskPlace arena ptr lo capacity) (newCap : UInt64)
    (hfull : (s.mem.loadAs SysDisk ptr).partCount = (s.mem.loadAs SysDisk ptr).partCapacity)
    (hnew : (s.mem.loadAs SysDisk ptr).partCapacity < newCap)
    (hroom : position arena s + 48 * newCap.toNat ≤ capacity.toNat) :
    let s' := AgentResources.grow ptr (arenaBase arena + position arena s) newCap
      (s.mem.loadAs SysDisk ptr)
      (s.withMem (allocMem arena (sizeofSysPartition * newCap) s.mem))
    DiskKept arena ptr lo capacity s s' ∧
      (s'.mem.loadAs SysDisk ptr).partCount < (s'.mem.loadAs SysDisk ptr).partCapacity := by
  obtain ⟨hbase, hptr, hcapacity, htop⟩ := hplace
  generalize hdisk : s.mem.loadAs SysDisk ptr = disk at hfull hnew ⊢
  set np := arenaBase arena + position arena s with hnp
  have hlo := hinv.lo_le
  rw [UInt64.lt_iff_toNat_lt] at hnew
  have hsize : (sizeofSysPartition * newCap).toNat = 48 * newCap.toNat := by
    rw [UInt64.toNat_mul, show sizeofSysPartition.toNat = 48 from rfl, Nat.mod_eq_of_lt (by omega)]
  -- the length that is copied may wrap, which only makes it shorter
  have hcopyLen : (disk.partCount * sizeofSysPartition).toNat ≤ 48 * newCap.toNat := by
    rw [UInt64.toNat_mul, show sizeofSysPartition.toNat = 48 from rfl, hfull]
    exact (Nat.mod_le _ _).trans (by omega)
  -- from here on the state after the allocation is known by what it kept
  have hfits : HasRoom arena capacity s (sizeofSysPartition * newCap).toNat := by
    rw [hsize]
    exact hinv.arenaAt.hasRoom (hinv.arenaAt.fits_of_top_le htop) hroom
  generalize hs₁ : s.withMem (allocMem arena (sizeofSysPartition * newCap) s.mem) = s₁
  have hat : ArenaAt arena capacity s₁ := hs₁ ▸ hinv.arenaAt.of_allocMem hfits
  have hpos₁ : position arena s₁ = position arena s + 48 * newCap.toNat := by
    rw [← hs₁, hinv.arenaAt.position_allocMem hfits, hsize]
  have hmaps₁ : s₁.maps = s.maps := by rw [← hs₁, Proc.maps_withMem]
  have heqOn₁ : Set.EqOn s₁.mem.byte s.mem.byte
      (Memory.range arena 16 ∪ Memory.range np (48 * newCap.toNat))ᶜ := by
    rw [← hs₁, Proc.mem_withMem, ← hsize]
    exact hinv.arenaAt.allocMem_eqOn _
  clear hs₁
  intro s'
  -- the copy stays in the new array
  obtain ⟨m, hm, hcopy⟩ : ∃ m : Memory, s' = s₁.withMem (m.storeAs ptr { disk with
      partitions := UInt64.ofNat np, partCapacity := newCap }) ∧
      Set.EqOn m.byte s₁.mem.byte (Set.Ico lo (arenaBase arena + capacity.toNat))ᶜ := by
    refine ⟨_, rfl, ?_⟩
    split
    · refine (Memory.store_eqOn _ _ _).mono (Set.compl_subset_compl.mpr ?_)
      rw [Memory.length_load]
      exact Set.Ico_subset_Ico hlo (by omega)
    · exact fun x _ => rfl
  clear_value s'
  subst hm
  have hstore := Memory.storeAs_eqOn m ptr ({ disk with
      partitions := UInt64.ofNat np, partCapacity := newCap } : SysDisk)
  rw [Proc.mem_withMem, Memory.loadAs_storeAs]
  have hheader : memArena (s₁.withMem (m.storeAs ptr ({ disk with
      partitions := UInt64.ofNat np, partCapacity := newCap } : SysDisk))).mem arena =
        memArena s₁.mem arena := by
    rw [Proc.mem_withMem]
    refine memArena_eq_of_eqOn fun x hx => ?_
    rw [Set.mem_Ico, ← arenaBase] at hx
    -- the struct and the arrays are behind the header
    rw [hstore (by rw [Set.mem_compl_iff, Set.mem_Ico]; omega)]
    exact hcopy (by rw [Set.mem_compl_iff, Set.mem_Ico]; omega)
  have hpos' : position arena (s₁.withMem (m.storeAs ptr ({ disk with
      partitions := UInt64.ofNat np, partCapacity := newCap } : SysDisk))) =
        position arena s + 48 * newCap.toNat := by
    rw [position, hheader, ← position, hpos₁]
  have hnpNat : (UInt64.ofNat np).toNat = np := by
    rw [UInt64.toNat_ofNat', Nat.mod_eq_of_lt (by omega)]
  refine ⟨⟨⟨hat.of_memArena (Proc.maps_withMem _ _) hheader, ?_, ?_, ?_⟩, ?_, ?_⟩, ?_⟩
  · rw [hpos']
    omega
  · rw [Proc.mem_withMem, Memory.loadAs_storeAs, UInt64.le_iff_toNat_le, hfull]
    exact hnew.le
  · rw [hpos', Proc.mem_withMem, Memory.loadAs_storeAs, hnpNat]
    dsimp only
    exact .inr ⟨hlo, by omega⟩
  · rw [Proc.maps_withMem, hmaps₁]
  · intro x hx
    rw [diskFootprint, Set.compl_union, Set.compl_union] at hx
    obtain ⟨⟨hx1, hx2⟩, hx3⟩ := hx
    rw [Proc.mem_withMem, hstore hx2, hcopy hx3]
    refine heqOn₁ ?_
    rw [Set.compl_union]
    exact ⟨hx1, Set.compl_subset_compl.mpr (Set.Ico_subset_Ico hlo (by omega)) hx3⟩
  · rw [UInt64.lt_iff_toNat_lt, hfull]
    exact hnew

/-- A push always returns: the partition is stored, or the list is left as it is because the arena
has no room for a larger array. -/
theorem DiskInv.diskPushPartition (hinv : DiskInv arena ptr lo capacity s)
    (hplace : DiskPlace arena ptr lo capacity) (p : SysPartition) :
    Except.Returns (diskPushPartition ptr p arena s) True (DiskKept arena ptr lo capacity s) := by
  have hcount := hinv.count_le
  have harray := hinv.array
  have hcap := hplace.capacity_le
  have hpos := hinv.arenaAt.position_le_toNat
  have hgrow := hinv.grow hplace
  by_cases hfull : (s.mem.loadAs SysDisk ptr).partCount = (s.mem.loadAs SysDisk ptr).partCapacity
  · simp only [AgentResources.diskPushPartition, if_pos hfull]
    generalize hdisk : s.mem.loadAs SysDisk ptr = disk at *
    -- the old array lies in the arena, so doubling its capacity does not wrap
    have hold : 48 * disk.partCapacity.toNat ≤ 2 ^ 40 := by
      rcases harray with h0 | ⟨hlo, hhi⟩
      · rw [h0, UInt64.toNat_zero]
        omega
      · have hbase := hplace.base_le
        have hptr := hplace.ptr_le
        omega
    generalize hnewCap : (if disk.partCapacity ≠ 0 then disk.partCapacity * 2 else 8) = newCap
    have hnewNat : disk.partCapacity.toNat < newCap.toNat ∧ newCap.toNat ≤ 2 ^ 40 := by
      rw [← hnewCap]
      split
      · next hne =>
        have hpos : disk.partCapacity.toNat ≠ 0 := fun h0 => hne (UInt64.toNat_inj.mp h0)
        rw [UInt64.toNat_mul, show (2 : UInt64).toNat = 2 from rfl, Nat.mod_eq_of_lt (by omega)]
        omega
      · next h0 =>
        rw [not_not.mp h0]
        decide
    have hnewLt : disk.partCapacity < newCap := UInt64.lt_iff_toNat_lt.mpr hnewNat.1
    have hnewLe := hnewNat.2
    have hsize : (sizeofSysPartition * newCap).toNat = 48 * newCap.toNat := by
      rw [UInt64.toNat_mul, show sizeofSysPartition.toNat = 48 from rfl,
        Nat.mod_eq_of_lt (by omega)]
    obtain ⟨-, halloc⟩ | ⟨hle, hmapped, -⟩ | ⟨hroom, halloc⟩ :=
      hinv.arenaAt.alloc_cases (sizeofSysPartition * newCap)
    · -- no room: the partition is dropped
      rw [show pushArray arena sizeofSysPartition newCap s = _ from halloc, Except.ok_bind]
      exact Except.Returns.ok (DiskKept.refl hinv)
    · -- the arena is mapped in full
      rw [hsize, Nat.mod_eq_of_lt (by omega)] at hle
      have hfits := hinv.arenaAt.hasRoom (hinv.arenaAt.fits_of_top_le hplace.top_le) hle
      rw [← hsize] at hfits
      exact absurd hfits.2 hmapped
    · have hle := hroom.1
      rw [hsize] at hle
      obtain ⟨hkept, hlt⟩ := hgrow newCap hfull hnewLt hle
      have hne : arenaBase arena + position arena s ≠ NULL := arenaBase_add_ne_null _ _
      rw [show pushArray arena sizeofSysPartition newCap s = _ from halloc, Except.ok_bind]
      dsimp only
      rw [if_neg hne]
      exact (hkept.inv.appendPartition hplace hlt p).imp Iff.rfl fun _ => hkept.trans
  · -- a count that is not the capacity is below it
    rw [AgentResources.diskPushPartition, if_neg hfull]
    refine hinv.appendPartition hplace ?_ p
    rw [UInt64.lt_iff_toNat_lt]
    rw [UInt64.le_iff_toNat_le] at hcount
    rw [← UInt64.toNat_inj] at hfull
    omega

/-- The reader returns iff the file is there. -/
theorem DiskInv.diskRead {h : Host} (hinv : DiskInv arena ptr lo capacity s)
    (hplace : DiskPlace arena ptr lo capacity) :
    Except.Returns (diskRead h ptr arena s) (h.file .procPartitions ≠ none) fun r =>
      r.1 = errOk ∧ DiskKept arena ptr lo capacity s r.2 := by
  have hbase := hplace.base_le
  have hne : ptr ≠ NULL := by
    simp only [arenaBase, sizeofMemArena, NULL] at *
    omega
  cases hfile : h.file .procPartitions with
  | none =>
    simp only [AgentResources.diskRead, if_neg hne, hfile]
    exact Except.Returns.error _ (by simp)
  | some text =>
    simp only [AgentResources.diskRead, if_neg hne, hfile]
    refine ((Except.Returns.foldlM (DiskKept arena ptr lo capacity s)
      (fun s' p hs' => (hs'.inv.diskPushPartition hplace p).imp Iff.rfl fun _ => hs'.trans)
      (DiskKept.refl hinv)).bind fun s' hs' => Except.Returns.ok ⟨rfl, hs'⟩).imp
        (iff_of_true ⟨trivial, trivial⟩ (by simp)) fun _ => id

end AgentResources
