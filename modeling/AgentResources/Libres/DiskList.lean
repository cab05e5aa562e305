import AgentResources.Base.ArenaList
import AgentResources.Libres.Disk

/-!
# The partitions as a list

`disk_push_partition` is a push to a list that grows in an arena (`diskPush`).
-/

namespace AgentResources

variable {arena d lo : ℕ} {capacity : UInt64} {s : Proc}

/-- Storing a partition in a free slot. -/
theorem appendPartition_eq (hinv : ListInv SysPartition arena d lo capacity s)
    (hplace : ListPlace arena d lo capacity)
    (hlt : (listHead d s.mem).count.toNat < (listHead d s.mem).capacity.toNat)
    (p : SysPartition) : appendPartition d p s = .ok (s.withMem (appendMem d p s.mem)) := by
  obtain ⟨hlo, -⟩ := hinv.array_le.resolve_left (Nat.ne_of_gt (Nat.zero_lt_of_lt hlt))
  have hne : (s.mem.loadAs SysDisk d).partitions ≠ 0 := hplace.ne_zero hlo
  rw [appendPartition, if_neg hne]
  rfl

theorem diskPushPartition_of_free
    (h : (listHead d s.mem).count ≠ (listHead d s.mem).capacity) (p : SysPartition) :
    diskPushPartition d p arena s = appendPartition d p s := by
  have hfull : (s.mem.loadAs SysDisk d).partCount ≠ (s.mem.loadAs SysDisk d).partCapacity := h
  rw [diskPushPartition, if_neg hfull]

theorem diskPushPartition_of_refused
    (hfull : (listHead d s.mem).count = (listHead d s.mem).capacity)
    (halloc : pushArray arena sizeofSysPartition (nextCapacity d s.mem) s = .ok (NULL, s))
    (p : SysPartition) : diskPushPartition d p arena s = .ok s := by
  have hfull' : (s.mem.loadAs SysDisk d).partCount = (s.mem.loadAs SysDisk d).partCapacity := hfull
  have halloc' : pushArray arena sizeofSysPartition
      (if (s.mem.loadAs SysDisk d).partCapacity ≠ 0 then (s.mem.loadAs SysDisk d).partCapacity * 2
        else 8) s = .ok (NULL, s) := halloc
  rw [diskPushPartition, if_pos hfull']
  dsimp only
  rw [halloc', Except.ok_bind]
  exact if_pos rfl

/-- A granted growth moves the list; an empty list has nothing to copy. -/
theorem diskPushPartition_of_granted {np : ℕ} {m : Memory}
    (hfull : (listHead d s.mem).count = (listHead d s.mem).capacity)
    (halloc : pushArray arena sizeofSysPartition (nextCapacity d s.mem) s = .ok (np, s.withMem m))
    (hne : np ≠ NULL) (hhead : listHead d m = listHead d s.mem)
    (hdata : (listHead d s.mem).count ≠ 0 → (listHead d s.mem).data ≠ 0)
    (hcopy : ((listHead d s.mem).count * sizeofSysPartition).toNat =
      Layout.size SysPartition * (listHead d s.mem).count.toNat) (p : SysPartition) :
    diskPushPartition d p arena s =
      appendPartition d p (s.withMem (growMem SysPartition d np (nextCapacity d s.mem) m)) := by
  have hfull' : (s.mem.loadAs SysDisk d).partCount = (s.mem.loadAs SysDisk d).partCapacity := hfull
  have halloc' : pushArray arena sizeofSysPartition
      (if (s.mem.loadAs SysDisk d).partCapacity ≠ 0 then (s.mem.loadAs SysDisk d).partCapacity * 2
        else 8) s = .ok (np, s.withMem m) := halloc
  -- the copy of the source is the copy of a list that grows
  have hcopied : (if (s.mem.loadAs SysDisk d).partitions ≠ 0 ∧ (s.mem.loadAs SysDisk d).partCount > 0
      then m.store np (m.load (s.mem.loadAs SysDisk d).partitions.toNat
        ((s.mem.loadAs SysDisk d).partCount * sizeofSysPartition).toNat) else m) =
      m.store np (m.load (listHead d m).data.toNat
        (Layout.size SysPartition * (listHead d m).count.toNat)) := by
    rw [hhead]
    by_cases hempty : (listHead d s.mem).count = 0
    · -- the source skips the copy, which is one of no bytes
      have hskip : ¬ ((s.mem.loadAs SysDisk d).partitions ≠ 0 ∧
          (s.mem.loadAs SysDisk d).partCount > 0) := by
        rintro ⟨-, (hpos : (listHead d s.mem).count > 0)⟩
        rw [hempty] at hpos
        exact absurd hpos (by decide)
      rw [if_neg hskip, hempty, UInt64.toNat_zero, Nat.mul_zero]
      exact (Memory.store_nil m np).symm
    · have hcopies : (s.mem.loadAs SysDisk d).partitions ≠ 0 ∧
          (s.mem.loadAs SysDisk d).partCount > 0 :=
        ⟨hdata hempty, UInt64.pos_iff_ne_zero.mpr hempty⟩
      have hcopy' : ((s.mem.loadAs SysDisk d).partCount * sizeofSysPartition).toNat =
          Layout.size SysPartition * (listHead d s.mem).count.toNat := hcopy
      rw [if_pos hcopies, hcopy']
      rfl
  rw [diskPushPartition, if_pos hfull']
  dsimp only
  rw [halloc', Except.ok_bind]
  dsimp only
  rw [if_neg hne, Proc.mem_withMem, Proc.withMem_withMem, hcopied, growMem, hhead]
  rfl

/-- A push puts the partition behind the others, or changes nothing. -/
theorem diskPushPartition_outcome (hplace : ListPlace arena d lo capacity)
    (hinv : ListInv SysPartition arena d lo capacity s) (p : SysPartition) :
    PushOutcome SysPartition arena d lo capacity p s (diskPushPartition d p arena s) := by
  have hbase := hplace.base_le
  have htop := hplace.top_le
  have hsize : Layout.size SysPartition = 48 := rfl
  have harray := hinv.array_le
  by_cases hfull : (listHead d s.mem).count = (listHead d s.mem).capacity
  · -- the three goals: the new capacity, a refused array, a granted one
    refine hinv.pushOutcome_of_full hplace sizeofSysPartition (nextCapacity d s.mem) rfl (by decide)
      hfull (fun hexact => ?_) (fun halloc => ?_) fun m s₂ halloc hhead hs₂ hinv₂ hlt => ?_
    · rw [growth, if_pos hfull, hsize] at hexact
      exact toNat_nextCapacity (by omega)
    · exact diskPushPartition_of_refused hfull halloc p
    · have hnull : arenaBase arena + position arena s ≠ NULL := arenaBase_add_ne_null _ _
      -- an array with entries lies in the arena, which does not begin at zero
      have hdata : (listHead d s.mem).count ≠ 0 → (listHead d s.mem).data ≠ 0 := by
        intro hcount
        rw [hfull] at hcount
        obtain ⟨hlo, -⟩ := harray.resolve_left fun h => hcount (UInt64.toNat_inj.mp h)
        exact hplace.ne_zero hlo
      have hcopy : ((listHead d s.mem).count * sizeofSysPartition).toNat =
          Layout.size SysPartition * (listHead d s.mem).count.toNat := by
        rw [UInt64.toNat_mul, show sizeofSysPartition.toNat = 48 from rfl, hsize, Nat.mul_comm,
          hfull]
        rw [hsize] at harray
        refine Nat.mod_eq_of_lt ?_
        simp only [arenaBase, sizeofMemArena] at *
        omega
      rw [diskPushPartition_of_granted hfull halloc hnull hhead hdata hcopy, ← hs₂]
      exact appendPartition_eq hinv₂ hplace hlt p
  · refine hinv.pushOutcome_of_free hplace hfull fun hlt => ?_
    rw [diskPushPartition_of_free hfull]
    exact appendPartition_eq hinv hplace hlt p

/-- `disk_push_partition` pushes to the list of partitions. -/
def diskPush : PushFn SysPartition SysPartition where
  push arena d p s := diskPushPartition d p arena s
  item := id
  ready _ := True
  ready_of_ne_zero _ := trivial
  outcome p hplace hinv _ := diskPushPartition_outcome hplace hinv p

@[simp]
theorem diskPush_push (arena d : ℕ) (p : SysPartition) (s : Proc) :
    diskPush.push arena d p s = diskPushPartition d p arena s := by
  simp only [diskPush]

@[simp]
theorem diskPush_item : diskPush.item = id := rfl

end AgentResources
