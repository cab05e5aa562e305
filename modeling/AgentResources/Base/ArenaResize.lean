import AgentResources.Base.ArenaSafety

/-!
# Runs that resize blocks

`arena_resize_align` grows the last block in place and then clears `new_size - old_size` bytes at
`&arena->current_position`, that is, at the start of the header. The run model of `Base.ArenaRun`
is extended by the two resize operations, and the header is followed through it: along a run whose
resizes fit, the capacity and the base address keep their values exactly if every growth in place
is small (`GrowthSpares`).

## Main definitions

* `ResizeOp`, `ArenaRun.resizeStep`: the operations of a run with resizes, and its step;
* `ArenaRun.HeaderKept`: the header still says what `arenaCreate` wrote;
* `ArenaRun.GrowthSpares`: the growth in place does not reach the capacity's own bytes.
-/

namespace AgentResources

/-- An operation on an arena, the resizing of live blocks included. -/
inductive ResizeOp
  /-- An operation of `ArenaOp`. -/
  | basic (op : ArenaOp)
  /-- `arena_resize` of the `i`-th live block. -/
  | resize (i : ℕ) (newSize : UInt64)
  /-- `arena_resize_align` of the `i`-th live block. -/
  | resizeAlign (i : ℕ) (newSize alignment : UInt64)

variable {arena : ℕ} {capacity : UInt64} {m : Memory} {s : Proc}

/-- The memory after the last block was resized in place from `oldSize` to `newSize` bytes. -/
def resizeMem (arena : ℕ) (newSize oldSize : UInt64) (m : Memory) : Memory :=
  let m' := setCurrentPosition arena ((memArena m arena).previousPosition + newSize) m
  if newSize > oldSize then m'.fill arena (newSize - oldSize).toNat else m'

/-- The number of bytes a resize copies. -/
def copySize (newSize oldSize : UInt64) : ℕ :=
  (if oldSize < newSize then oldSize else newSize).toNat

/-- The part of a resize that copies the block to a new one. -/
def copyOut (arena oldMemory : ℕ) (newSize oldSize : UInt64) (s : Proc) :
    Except Halt (ℕ × Proc) := do
  let (newMemory, s) ← arenaAlloc arena newSize s
  if newMemory = NULL then .error (.undefined .nullPointer)
  else
    let s ← s.memMove newMemory oldMemory (copySize newSize oldSize)
    return (NULL, s)

/-- A pointer passes the comparisons with the two ends of the arena. -/
def InRange (h : MemArena) (p : ℕ) : Prop :=
  h.basePosition.toNat ≤ p ∧ p < (h.basePosition + h.capacity).toNat

instance (h : MemArena) (p : ℕ) : Decidable (InRange h p) := inferInstanceAs (Decidable (_ ∧ _))

/-- What a resize can do: allocate afresh, resize in place, copy to a new block, or turn away a
pointer outside the arena. In place it faults where the bytes it clears are not mapped. -/
theorem arenaResizeAlign_cases (arena oldMemory : ℕ) (newSize oldSize alignment : UInt64)
    (s : Proc) :
    let h := memArena s.mem arena
    let start := h.basePosition.toNat + h.previousPosition.toNat
    let mapped := s.Mapped arena (newSize.toNat - oldSize.toNat)
    let result := arenaResizeAlign arena oldMemory newSize oldSize alignment s
    ((oldMemory = NULL ∨ oldSize = 0) ∧ result = arenaAlloc arena newSize s) ∨
    (oldSize ≠ 0 ∧ InRange h oldMemory ∧ start = oldMemory ∧
      (mapped ∧ result = .ok (oldMemory, s.withMem (resizeMem arena newSize oldSize s.mem)) ∨
        ¬ mapped ∧ result = .error .fault)) ∨
    (oldSize ≠ 0 ∧ InRange h oldMemory ∧ start ≠ oldMemory ∧
      result = copyOut arena oldMemory newSize oldSize s) ∨
    (oldSize ≠ 0 ∧ ¬ InRange h oldMemory ∧ result = .ok (NULL, s)) := by
  intro h start mapped result
  by_cases hnull : oldMemory = NULL ∨ oldSize = 0
  · left
    exact ⟨hnull, if_pos hnull⟩
  right
  have hsize : oldSize ≠ 0 := fun h => hnull (.inr h)
  -- the block is there and not empty: what is left is the range check
  have hresult : result = if InRange h oldMemory then
      if start = oldMemory then
        if newSize > oldSize then do
          let s ← (s.withMem (setCurrentPosition arena (h.previousPosition + newSize) s.mem)).memSet
            arena (newSize - oldSize).toNat
          return (oldMemory, s)
        else .ok (oldMemory,
          s.withMem (setCurrentPosition arena (h.previousPosition + newSize) s.mem))
      else copyOut arena oldMemory newSize oldSize s
    else .ok (NULL, s) := if_neg hnull
  by_cases hrange : InRange h oldMemory
  · rw [if_pos hrange] at hresult
    by_cases hlast : start = oldMemory
    · left
      refine ⟨hsize, hrange, hlast, ?_⟩
      rw [if_pos hlast] at hresult
      by_cases hgrow : newSize > oldSize
      · -- the source clears as many bytes as the block gains
        have hg : (newSize - oldSize).toNat = newSize.toNat - oldSize.toNat :=
          UInt64.toNat_sub_of_le _ _ (UInt64.le_of_lt hgrow)
        rw [if_pos hgrow, Proc.memSet, hg] at hresult
        by_cases hmapped : mapped
        · rw [if_pos ((Proc.mapped_withMem _).mpr hmapped)] at hresult
          refine .inl ⟨hmapped, hresult.trans ?_⟩
          rw [resizeMem, if_pos hgrow, hg]
          rfl
        · rw [if_neg (mt (Proc.mapped_withMem _).mp hmapped)] at hresult
          exact .inr ⟨hmapped, hresult⟩
      · -- nothing is cleared, and no bytes are always mapped
        have hzero : newSize.toNat - oldSize.toNat = 0 := by
          rw [gt_iff_lt, UInt64.lt_iff_toNat_lt] at hgrow
          omega
        have hmapped : mapped := by
          rw [show mapped = s.Mapped arena (newSize.toNat - oldSize.toNat) from rfl, hzero]
          exact s.mapped_zero arena
        rw [if_neg hgrow] at hresult
        refine .inl ⟨hmapped, hresult.trans ?_⟩
        rw [resizeMem, if_neg hgrow]
    · right; left
      rw [if_neg hlast] at hresult
      exact ⟨hsize, hrange, hlast, hresult⟩
  · right; right
    rw [if_neg hrange] at hresult
    exact ⟨hsize, hrange, hresult⟩

/-- Inside the capacity a pointer passes the comparisons iff the end of the arena does not wrap. -/
theorem ArenaAt.inRange_iff (ha : ArenaAt arena capacity s) {p : ℕ} (hlo : arenaBase arena ≤ p)
    (hhi : p < arenaBase arena + capacity.toNat) :
    InRange (memArena s.mem arena) p ↔ capacity.toNat + sizeofMemArena < 2 ^ 64 := by
  have htop := ha.top_lt_iff
  have hcapacity := capacity.toNat_lt
  rw [InRange, UInt64.toNat_add, ha.base_eq, ha.capacity_eq]
  simp only [arenaBase] at *
  omega

/-- What copying to a new block can do. With nothing to copy it always returns. -/
theorem ArenaAt.copyOut_cases (ha : ArenaAt arena capacity s) (oldMemory : ℕ)
    (newSize oldSize : UInt64) :
    (newSize.toNat ≠ 0 ∧ ∃ e, copyOut arena oldMemory newSize oldSize s = .error e) ∨
    (HasRoom arena capacity s newSize.toNat ∧ copyOut arena oldMemory newSize oldSize s =
      .ok (NULL, s.withMem ((allocMem arena newSize s.mem).store
        (arenaBase arena + position arena s)
        ((allocMem arena newSize s.mem).load oldMemory (copySize newSize oldSize))))) := by
  -- a block of no bytes always has room
  have hnothing : newSize.toNat = 0 → HasRoom arena capacity s newSize.toNat := by
    intro hzero
    rw [hzero, HasRoom, Nat.add_zero]
    exact ⟨ha.position_le_toNat, s.mapped_zero _⟩
  by_cases hroom : HasRoom arena capacity s newSize.toNat
  · have hne : arenaBase arena + position arena s ≠ NULL := arenaBase_add_ne_null _ _
    -- no more is copied than the new block holds
    have hcopy : copySize newSize oldSize ≤ newSize.toNat := by
      rw [copySize]
      split
      · next hlt => exact (UInt64.lt_iff_toNat_lt.mp hlt).le
      · exact le_rfl
    have htarget : s.Mapped (arenaBase arena + position arena s) (copySize newSize oldSize) :=
      hroom.2.mono le_rfl (by omega)
    rw [copyOut, ha.alloc_eq hroom, Except.ok_bind]
    dsimp only
    rw [if_neg hne]
    by_cases hsource : s.Mapped oldMemory (copySize newSize oldSize)
    · right
      rw [Proc.memMove_of_mapped ((Proc.mapped_withMem _).mpr hsource)
        ((Proc.mapped_withMem _).mpr htarget), Except.ok_bind, Proc.mem_withMem,
        Proc.withMem_withMem]
      exact ⟨hroom, congrArg Except.ok (Eq.refl _)⟩
    · left
      refine ⟨fun hzero => hsource ?_, .fault, ?_⟩
      · rw [show copySize newSize oldSize = 0 by omega]
        exact s.mapped_zero _
      · rw [Proc.memMove_of_not_mapped (mt (Proc.mapped_withMem _).mp hsource)]
        rfl
  · left
    refine ⟨fun hzero => hroom (hnothing hzero), ?_⟩
    -- without room the source copies to the null pointer, or the allocation faulted
    obtain ⟨-, h⟩ | ⟨-, -, h⟩ | ⟨h, -⟩ := ha.alloc_cases newSize
    · rw [copyOut, h]
      exact ⟨.undefined .nullPointer, rfl⟩
    · rw [copyOut, h]
      exact ⟨.fault, rfl⟩
    · exact absurd h hroom

/-- How a growth in place by `g` bytes leaves the header: each of its four words is rounded down
over the bytes the fill reaches. -/
theorem memArena_resizeMem (arena : ℕ) (newSize oldSize : UInt64) (m : Memory) :
    let g := newSize.toNat - oldSize.toNat
    let h := memArena (resizeMem arena newSize oldSize m) arena
    h.currentPosition.toNat ≤ ((memArena m arena).previousPosition + newSize).toNat ∧
    h.capacity.toNat = (memArena m arena).capacity.toNat / 256 ^ min 8 (g - 16) *
      256 ^ min 8 (g - 16) ∧
    h.basePosition.toNat = (memArena m arena).basePosition.toNat / 256 ^ min 8 (g - 24) *
      256 ^ min 8 (g - 24) := by
  intro g h
  have hset : memArena (setCurrentPosition arena _ m) arena = _ :=
    memArena_setCurrentPosition ((memArena m arena).previousPosition + newSize)
  by_cases hgrow : newSize > oldSize
  · -- the fill starts at the header, not at the block
    have hg : (newSize - oldSize).toNat = g :=
      UInt64.toNat_sub_of_le _ _ (UInt64.le_of_lt hgrow)
    have hh : h = memArena ((setCurrentPosition arena
        ((memArena m arena).previousPosition + newSize) m).fill arena g) arena := by
      simp only [h, resizeMem, if_pos hgrow, hg]
    simp only [memArena, MemArena.mk.injEq] at hset
    obtain ⟨hcur, -, hcap, hbase⟩ := hset
    rw [hh]
    simp only [memArena]
    rw [Memory.toNat_load64_fill le_rfl, Memory.toNat_load64_fill (by omega),
      Memory.toNat_load64_fill (by omega), hcur, hcap, hbase]
    refine ⟨Nat.div_mul_le_self _ _, ?_, ?_⟩
    · rw [show arena + g - (arena + 16) = g - 16 by omega]
    · rw [show arena + g - (arena + 24) = g - 24 by omega]
  · have hg : g = 0 := by
      rw [gt_iff_lt, UInt64.lt_iff_toNat_lt] at hgrow
      omega
    have hh : h = memArena (setCurrentPosition arena
        ((memArena m arena).previousPosition + newSize) m) arena := by
      simp only [h, resizeMem, if_neg hgrow]
    rw [hh, hset, hg]
    simp

namespace ArenaRun

variable {r : ArenaRun}

/-- The offset the latest allocation started from. -/
def previous (arena : ℕ) (s : Proc) : ℕ := (memArena s.mem arena).previousPosition.toNat

/-- Continue after a resize of the `i`-th live block. A block that was returned takes its place;
one that halted the process ends the run. -/
def resized (arena : ℕ) (r : ArenaRun) (i : ℕ) (newSize : UInt64) :
    Except Halt (ℕ × Proc) → ArenaRun
  | .error _ => r
  | .ok (out, p) =>
    r.settle arena p
      (if out = NULL then r.live else (out, out + newSize.toNat) :: r.live.eraseIdx i)

/-- One step of a run with resizes. A resize of a block that is not there is no operation. -/
def resizeStep (arena : ℕ) (r : ArenaRun) : ResizeOp → ArenaRun
  | .basic op => r.step arena op
  | .resize i newSize =>
    match r.live[i]? with
    | none => r
    | some b =>
      r.resized arena i newSize
        (arenaResize arena b.1 newSize (UInt64.ofNat (b.2 - b.1)) r.proc)
  | .resizeAlign i newSize alignment =>
    match r.live[i]? with
    | none => r
    | some b =>
      r.resized arena i newSize
        (arenaResizeAlign arena b.1 newSize (UInt64.ofNat (b.2 - b.1)) alignment r.proc)

/-- The block and the new size a resize is about. -/
def resizeTarget (r : ArenaRun) : ResizeOp → Option ((ℕ × ℕ) × ℕ)
  | .basic _ => none
  | .resize i newSize | .resizeAlign i newSize _ => r.live[i]?.map (·, newSize.toNat)

/-- The block is not empty and the latest allocation started where it starts. -/
def IsLast (arena : ℕ) (r : ArenaRun) (b : ℕ × ℕ) : Prop :=
  b.1 < b.2 ∧ arenaBase arena + previous arena r.proc = b.1

/-- The result of a resize fits the capacity: the end of the block in place, or of a new one. -/
def ResizeFits (arena : ℕ) (capacity : UInt64) (r : ArenaRun) (op : ResizeOp) : Prop :=
  ∀ b n, r.resizeTarget op = some (b, n) →
    (r.IsLast arena b → previous arena r.proc + n ≤ capacity.toNat) ∧
    (¬ r.IsLast arena b → position arena r.proc + n ≤ capacity.toNat)

/-- A growth in place is by at most 16 bytes, or by at most 24 where the bytes of the capacity it
reaches are zero. No block is resized in place if the end of the arena wraps. -/
def GrowthSpares (arena : ℕ) (capacity : UInt64) (r : ArenaRun) (op : ResizeOp) : Prop :=
  capacity.toNat + sizeofMemArena < 2 ^ 64 → ∀ b n, r.resizeTarget op = some (b, n) →
    r.IsLast arena b → n - (b.2 - b.1) ≤ 16 ∨
      (n - (b.2 - b.1) ≤ 24 ∧ 256 ^ (n - (b.2 - b.1) - 16) ∣ capacity.toNat)

/-- The header still holds the capacity and the base address `arenaCreate` wrote, and destroying
the arena unmaps as many bytes as creating it mapped. -/
structure HeaderKept (arena : ℕ) (capacity : UInt64) (p : Proc) : Prop where
  capacity_eq : (memArena p.mem arena).capacity = capacity
  base_eq : (memArena p.mem arena).basePosition = UInt64.ofNat (arena + sizeofMemArena)
  destroy_eq : arenaDestroy arena p = p.munmap arena (mappingLen capacity)

/-- An arena that is intact has kept its header. -/
theorem headerKept_of_arenaAt {p : Proc} (h : ArenaAt arena capacity p) :
    HeaderKept arena capacity p where
  capacity_eq := h.capacity_eq
  base_eq := by
    apply UInt64.toNat_inj.mp
    rw [UInt64.toNat_ofNat', ← h.base_eq, Nat.mod_eq_of_lt (UInt64.toNat_lt _)]
  destroy_eq := by rw [arenaDestroy, if_neg h.ne_null, h.capacity_eq]

/-- The size of a live block, as it is passed to a resize. -/
theorem HeaderInv.toNat_size (hr : HeaderInv arena capacity r) {b : ℕ × ℕ} (hb : b ∈ r.live) :
    (UInt64.ofNat (b.2 - b.1)).toNat = b.2 - b.1 := by
  have hlo := hr.base_le b hb
  have hhi := hr.live_le b hb
  have hpos : position arena r.proc < 2 ^ 64 := UInt64.toNat_lt _
  rw [UInt64.toNat_ofNat', Nat.mod_eq_of_lt]
  omega

theorem HeaderInv.toNat_base (hr : HeaderInv arena capacity r) :
    (memArena r.proc.mem arena).basePosition.toNat = arenaBase arena := hr.arenaAt.base_eq

/-- The size of a live block is zero iff the block is empty. -/
theorem HeaderInv.size_eq_zero_iff (hr : HeaderInv arena capacity r) {b : ℕ × ℕ}
    (hb : b ∈ r.live) : UInt64.ofNat (b.2 - b.1) = 0 ↔ b.2 ≤ b.1 := by
  rw [← UInt64.toNat_inj, hr.toNat_size hb, UInt64.toNat_zero]
  omega

theorem HeaderInv.ne_null_of_mem (hr : HeaderInv arena capacity r) {b : ℕ × ℕ} (hb : b ∈ r.live) :
    b.1 ≠ NULL := by
  have hlo := hr.base_le b hb
  simp only [arenaBase, sizeofMemArena] at hlo
  simp only [NULL]
  omega

/-- A live block that is not empty passes the comparisons iff the end of the arena does not wrap. -/
theorem HeaderInv.inRange_iff (hr : HeaderInv arena capacity r) {b : ℕ × ℕ} (hb : b ∈ r.live)
    (hlt : b.1 < b.2) :
    InRange (memArena r.proc.mem arena) b.1 ↔ capacity.toNat + sizeofMemArena < 2 ^ 64 := by
  have hhi := hr.live_le b hb
  have hposle := hr.arenaAt.position_le_toNat
  exact hr.arenaAt.inRange_iff (hr.base_le b hb) (by omega)

/-- What a resize of a block that is not empty does: nothing if the end of the arena wraps; the last
block is resized in place, unless the clear leaves what is mapped; any other one is copied. -/
theorem HeaderInv.arenaResizeAlign_cases (hr : HeaderInv arena capacity r) {b : ℕ × ℕ}
    (hb : b ∈ r.live) (newSize alignment : UInt64) (hlt : b.1 < b.2) :
    let mapped := r.proc.Mapped arena (newSize.toNat - (b.2 - b.1))
    let oldSize := UInt64.ofNat (b.2 - b.1)
    let result := arenaResizeAlign arena b.1 newSize oldSize alignment r.proc
    (2 ^ 64 ≤ capacity.toNat + sizeofMemArena ∧ result = .ok (NULL, r.proc)) ∨
    (capacity.toNat + sizeofMemArena < 2 ^ 64 ∧ r.IsLast arena b ∧
      (mapped ∧ result = .ok (b.1, r.proc.withMem (resizeMem arena newSize oldSize r.proc.mem)) ∨
        ¬ mapped ∧ result = .error .fault)) ∨
    (capacity.toNat + sizeofMemArena < 2 ^ 64 ∧ ¬ r.IsLast arena b ∧
      result = copyOut arena b.1 newSize oldSize r.proc) := by
  intro mapped oldSize result
  have hrange := hr.inRange_iff hb hlt
  have hsize : oldSize ≠ 0 := by
    rw [ne_eq, hr.size_eq_zero_iff hb]
    omega
  have hlast : (memArena r.proc.mem arena).basePosition.toNat +
      (memArena r.proc.mem arena).previousPosition.toNat = b.1 ↔ r.IsLast arena b := by
    rw [hr.toNat_base]
    exact ⟨fun h => ⟨hlt, h⟩, fun h => h.2⟩
  obtain ⟨hzero, -⟩ | ⟨-, hin, hstart, h⟩ | ⟨-, hin, hother, h⟩ | ⟨-, hout, h⟩ :=
    AgentResources.arenaResizeAlign_cases arena b.1 newSize oldSize alignment r.proc
  · exact absurd hzero (by simp [hr.ne_null_of_mem hb, hsize])
  · rw [hr.toNat_size hb] at h
    exact .inr (.inl ⟨hrange.mp hin, hlast.mp hstart, h⟩)
  · exact .inr (.inr ⟨hrange.mp hin, mt hlast.mpr hother, h⟩)
  · exact .inl ⟨Nat.not_lt.mp (mt hrange.mpr hout), h⟩

/-- An allocation that takes the place of a resize keeps the header. -/
theorem HeaderInv.resized_alloc (hr : HeaderInv arena capacity r) (i : ℕ) (newSize : UInt64) :
    HeaderInv arena capacity (r.resized arena i newSize (arenaAlloc arena newSize r.proc)) := by
  obtain ⟨-, h⟩ | ⟨-, -, h⟩ | ⟨hroom, h⟩ := hr.arenaAt.alloc_cases newSize
  · rw [h, ArenaRun.resized, if_pos rfl]
    exact hr.settle hr.arenaAt hr.base_le
  · rw [h]
    exact hr
  · rw [h, ArenaRun.resized, if_neg (arenaBase_add_ne_null _ _)]
    refine hr.settle (hr.arenaAt.of_allocMem hroom) (List.forall_mem_cons.mpr ⟨?_, ?_⟩)
    · exact Nat.le_add_right _ _
    · exact fun c hc => hr.base_le c (List.mem_of_mem_eraseIdx hc)

/-- A copy to a new block keeps the header. -/
theorem HeaderInv.resized_copyOut (hr : HeaderInv arena capacity r) (i oldMemory : ℕ)
    (newSize oldSize : UInt64) :
    HeaderInv arena capacity
      (r.resized arena i newSize (copyOut arena oldMemory newSize oldSize r.proc)) := by
  obtain ⟨-, e, h⟩ | ⟨hroom, h⟩ := hr.arenaAt.copyOut_cases oldMemory newSize oldSize
  · rw [h]
    exact hr
  · rw [h, ArenaRun.resized, if_pos rfl]
    have hat := (hr.arenaAt.of_allocMem hroom).store_behind
      (Nat.le_add_right (arenaBase arena) (position arena r.proc)) ((allocMem arena newSize
        r.proc.mem).load oldMemory (copySize newSize oldSize))
    rw [Proc.mem_withMem, Proc.withMem_withMem] at hat
    exact hr.settle hat.1 hr.base_le

/-- A growth in place that spares the capacity's bytes keeps the header. -/
theorem HeaderInv.arenaAt_resizeMem (hr : HeaderInv arena capacity r) {newSize oldSize : UInt64}
    (hfit : previous arena r.proc + newSize.toNat ≤ capacity.toNat)
    (hspare : newSize.toNat - oldSize.toNat ≤ 16 ∨
      (newSize.toNat - oldSize.toNat ≤ 24 ∧
        256 ^ (newSize.toNat - oldSize.toNat - 16) ∣ capacity.toNat)) :
    ArenaAt arena capacity (r.proc.withMem (resizeMem arena newSize oldSize r.proc.mem)) := by
  obtain ⟨hcur, hcap, hbase⟩ := memArena_resizeMem arena newSize oldSize r.proc.mem
  have hcapacity := capacity.toNat_lt
  rw [hr.arenaAt.capacity_eq] at hcap
  generalize newSize.toNat - oldSize.toNat = g at hcap hbase hspare
  have hg24 : min 8 (g - 24) = 0 := by omega
  rw [hg24, pow_zero, Nat.div_one, Nat.mul_one, hr.arenaAt.base_eq] at hbase
  refine ⟨hr.arenaAt.ne_null, ?_, hbase, hr.arenaAt.owns.of_maps_eq (Proc.maps_withMem _ _), ?_⟩
  · apply UInt64.toNat_inj.mp
    rw [Proc.mem_withMem, hcap]
    apply Nat.div_mul_cancel
    rcases hspare with h | ⟨hle, hdvd⟩
    · rw [show min 8 (g - 16) = 0 by omega]
      exact one_dvd _
    · rwa [show min 8 (g - 16) = g - 16 by omega]
  · rw [UInt64.le_iff_toNat_le]
    refine hcur.trans ?_
    rw [UInt64.toNat_add]
    rw [previous] at hfit
    omega

/-- A growth in place that keeps the header spares the capacity's bytes: the base address is 32
bytes into a page, so its lowest byte is never zero. -/
theorem HeaderInv.spares_of_headerKept (hr : HeaderInv arena capacity r)
    (hpage : pageSize ∣ arena) {newSize oldSize : UInt64}
    (h : HeaderKept arena capacity
      (r.proc.withMem (resizeMem arena newSize oldSize r.proc.mem))) :
    newSize.toNat - oldSize.toNat ≤ 16 ∨
      (newSize.toNat - oldSize.toNat ≤ 24 ∧
        256 ^ (newSize.toNat - oldSize.toNat - 16) ∣ capacity.toNat) := by
  obtain ⟨-, hcap, hbase⟩ := memArena_resizeMem arena newSize oldSize r.proc.mem
  have hlt : arena + sizeofMemArena < 2 ^ 64 := hr.arenaAt.base_eq ▸ UInt64.toNat_lt _
  have hcapKept := h.capacity_eq
  have hbaseKept := h.base_eq
  rw [Proc.mem_withMem] at hcapKept hbaseKept
  rw [hcapKept, hr.arenaAt.capacity_eq] at hcap
  rw [hbaseKept, hr.arenaAt.base_eq, UInt64.toNat_ofNat', Nat.mod_eq_of_lt hlt] at hbase
  generalize newSize.toNat - oldSize.toNat = g at hcap hbase
  have hg24 : g ≤ 24 := by
    -- beyond that the lowest byte of the base address is zeroed
    by_contra hgt
    obtain ⟨j, hj⟩ : ∃ j, min 8 (g - 24) = j + 1 := ⟨min 8 (g - 24) - 1, by omega⟩
    have hdvd : 256 ∣ arena + sizeofMemArena := by
      rw [hbase, hj, pow_succ]
      exact Dvd.intro_left _ (Nat.mul_assoc _ _ _)
    simp only [sizeofMemArena, pageSize] at hdvd hpage
    omega
  by_cases hg16 : g ≤ 16
  · exact .inl hg16
  · right
    refine ⟨hg24, ?_⟩
    rw [show min 8 (g - 16) = g - 16 by omega] at hcap
    exact Dvd.intro_left _ hcap.symm

/-- What a resize of a live block does to the header. -/
theorem HeaderInv.resized_iff (hr : HeaderInv arena capacity r) (hpage : pageSize ∣ arena)
    {i : ℕ} {b : ℕ × ℕ} (hi : r.live[i]? = some b) (newSize alignment : UInt64)
    (hfit : r.IsLast arena b → previous arena r.proc + newSize.toNat ≤ capacity.toNat) :
    let r' := r.resized arena i newSize
      (arenaResizeAlign arena b.1 newSize (UInt64.ofNat (b.2 - b.1)) alignment r.proc)
    let Spares := capacity.toNat + sizeofMemArena < 2 ^ 64 → r.IsLast arena b →
      newSize.toNat - (b.2 - b.1) ≤ 16 ∨
        (newSize.toNat - (b.2 - b.1) ≤ 24 ∧
          256 ^ (newSize.toNat - (b.2 - b.1) - 16) ∣ capacity.toNat)
    (Spares → HeaderInv arena capacity r') ∧
      (HeaderKept arena capacity r'.proc → Spares) := by
  intro r' Spares
  have hb : b ∈ r.live := List.mem_of_getElem? hi
  by_cases hempty : b.2 ≤ b.1
  · -- an empty block is allocated afresh, and it is not the last
    have hr' : r' = r.resized arena i newSize (arenaAlloc arena newSize r.proc) := by
      have hsize := (hr.size_eq_zero_iff hb).mpr hempty
      rw [show r' = r.resized arena i newSize (arenaResizeAlign arena b.1 newSize _ alignment
        r.proc) from rfl, arenaResizeAlign, if_pos (.inr hsize)]
    rw [hr']
    exact ⟨fun _ => hr.resized_alloc i newSize, fun _ _ hlast => absurd hlast.1 (by omega)⟩
  obtain ⟨hwrap, h⟩ | ⟨hcap, hlast, ⟨-, h⟩ | ⟨hunmapped, -⟩⟩ | ⟨-, hother, h⟩ :=
    hr.arenaResizeAlign_cases hb newSize alignment (Nat.not_le.mp hempty)
  · -- the pointer is turned away
    have hr' : r' = r.settle arena r.proc r.live := by
      have hr' : r' = r.resized arena i newSize (.ok (NULL, r.proc)) :=
        congrArg (r.resized arena i newSize) h
      rw [hr', ArenaRun.resized, if_pos rfl]
    rw [hr']
    exact ⟨fun _ => hr.settle hr.arenaAt hr.base_le, fun _ hcap => absurd hcap (by omega)⟩
  · have hsize := hr.toNat_size hb
    have hr' : r' = r.settle arena
        (r.proc.withMem (resizeMem arena newSize (UInt64.ofNat (b.2 - b.1)) r.proc.mem))
        ((b.1, b.1 + newSize.toNat) :: r.live.eraseIdx i) := by
      have hr' : r' = r.resized arena i newSize (.ok (b.1, _)) :=
        congrArg (r.resized arena i newSize) h
      rw [hr', ArenaRun.resized, if_neg (hr.ne_null_of_mem hb)]
    rw [hr', proc_settle]
    constructor
    · intro hspare
      have hspareLast := hspare hcap hlast
      rw [← hsize] at hspareLast
      have hat := hr.arenaAt_resizeMem (hfit hlast) hspareLast
      refine hr.settle hat (List.forall_mem_cons.mpr ⟨hr.base_le b hb, ?_⟩)
      exact fun c hc => hr.base_le c (List.mem_of_mem_eraseIdx hc)
    · -- a header that is kept has the bytes of its words
      intro hkept _ _
      have hspare := hr.spares_of_headerKept hpage hkept
      rwa [hsize] at hspare
  · -- what fits the capacity is mapped, so the clear cannot fault
    have hfits := hfit hlast
    refine absurd (hr.arenaAt.mapped hcap le_rfl ?_) hunmapped
    rw [arenaBase]
    omega
  · have hr' : r' = r.resized arena i newSize
        (copyOut arena b.1 newSize (UInt64.ofNat (b.2 - b.1)) r.proc) :=
      congrArg (r.resized arena i newSize) h
    rw [hr']
    exact ⟨fun _ => hr.resized_copyOut i b.1 newSize _, fun _ _ hlast => absurd hlast hother⟩

/-- At one step of a run whose resize fits: a step that spares the capacity's bytes keeps the
header out of reach, and a step that keeps the header spares them. -/
theorem HeaderInv.resizeStep_iff (hr : HeaderInv arena capacity r) (hpage : pageSize ∣ arena)
    {op : ResizeOp} (hfit : ResizeFits arena capacity r op) :
    (GrowthSpares arena capacity r op → HeaderInv arena capacity (r.resizeStep arena op)) ∧
      (HeaderKept arena capacity (r.resizeStep arena op).proc →
        GrowthSpares arena capacity r op) := by
  have hcore : ∀ (i : ℕ) (newSize alignment : UInt64),
      r.resizeTarget op = r.live[i]?.map (·, newSize.toNat) →
      r.resizeStep arena op = (match r.live[i]? with
        | none => r
        | some b => r.resized arena i newSize
          (arenaResizeAlign arena b.1 newSize (UInt64.ofNat (b.2 - b.1)) alignment r.proc)) →
      (GrowthSpares arena capacity r op → HeaderInv arena capacity (r.resizeStep arena op)) ∧
        (HeaderKept arena capacity (r.resizeStep arena op).proc →
          GrowthSpares arena capacity r op) := by
    intro i newSize alignment htarget hstep
    rw [hstep]
    simp only [GrowthSpares, ResizeFits, htarget] at hfit ⊢
    cases hi : r.live[i]? with
    | none => exact ⟨fun _ => hr, by simp⟩
    | some b =>
      simp only [hi, Option.map_some, Option.some.injEq, Prod.mk.injEq, and_imp,
        forall_apply_eq_imp_iff, forall_eq'] at hfit ⊢
      exact hr.resized_iff hpage hi newSize alignment hfit.1
  cases op with
  | basic op => exact ⟨fun _ => hr.step op, fun _ _ _ _ h => by simp [resizeTarget] at h⟩
  | resize i newSize => exact hcore i newSize ARENA_ALIGN rfl rfl
  | resizeAlign i newSize alignment => exact hcore i newSize alignment rfl rfl

end ArenaRun

open ArenaRun in
/-- Along a run whose resizes fit the capacity, the header keeps the capacity and the base address
at every step iff every growth in place spares them. -/
theorem arenaRun_headerKept_iff (k : Kernel) (capacity : UInt64) (s : Proc) (ops : List ResizeOp)
    (hcreate : (arenaCreate k capacity s).1 ≠ NULL)
    (hfit : Run.Along (resizeStep (arenaCreate k capacity s).1)
      (ResizeFits (arenaCreate k capacity s).1 capacity) (start k capacity s) ops) :
    Run.Along (resizeStep (arenaCreate k capacity s).1)
        (fun r op => HeaderKept (arenaCreate k capacity s).1 capacity
          (r.resizeStep (arenaCreate k capacity s).1 op).proc) (start k capacity s) ops ↔
      Run.Along (resizeStep (arenaCreate k capacity s).1)
        (GrowthSpares (arenaCreate k capacity s).1 capacity) (start k capacity s) ops := by
  have hpage : pageSize ∣ (arenaCreate k capacity s).1 := by
    obtain ⟨-, hnull⟩ | ⟨a, hgrant, ha⟩ := arenaCreate_cases k capacity s
    · simp [hnull] at hcreate
    · rw [ha]
      exact (k.mmap_spec hgrant).2.2.1
  refine Run.along_iff_of_invariant (HeaderInv (arenaCreate k capacity s).1 capacity)
    (fun r op hr hf => (hr.resizeStep_iff hpage hf).1) ?_ (inv_start hcreate).toHeaderInv hfit
  intro r op hr hf
  have hstep := hr.resizeStep_iff hpage hf
  exact ⟨hstep.2, fun hs => headerKept_of_arenaAt (hstep.1 hs).arenaAt⟩

open ArenaRun in
/-- In an arena of 64 bytes, a single block of 16 bytes can be resized to anything up to 64. -/
theorem resizeFits_single {newSize : UInt64} (h : newSize.toNat ≤ 64) :
    Run.Along (resizeStep (arenaCreate Kernel.above 64 Proc.fresh).1)
      (ResizeFits (arenaCreate Kernel.above 64 Proc.fresh).1 64)
      (start Kernel.above 64 Proc.fresh) [.basic (.alloc 16), .resize 0 newSize] := by
  refine ⟨by simp [ResizeFits, resizeTarget], ?_, trivial⟩
  set r := (start Kernel.above 64 Proc.fresh).resizeStep
    (arenaCreate Kernel.above 64 Proc.fresh).1 (.basic (.alloc 16)) with hr
  have hlive : r.live[0]? = some (4128, 4144) := by decide +kernel
  have hprevious : previous (arenaCreate Kernel.above 64 Proc.fresh).1 r.proc = 0 := by
    decide +kernel
  intro b n htarget
  simp only [resizeTarget, hlive, Option.map_some, Option.some.injEq, Prod.mk.injEq] at htarget
  obtain ⟨rfl, rfl⟩ := htarget
  refine ⟨fun _ => by simpa [hprevious] using h, fun hlast => absurd ⟨by decide, ?_⟩ hlast⟩
  rw [hprevious]
  decide +kernel

open ArenaRun in
theorem arenaRun_headerKept_iff_single :
    Run.Along (resizeStep (arenaCreate Kernel.above 64 Proc.fresh).1)
        (fun r op => HeaderKept (arenaCreate Kernel.above 64 Proc.fresh).1 64
          (r.resizeStep (arenaCreate Kernel.above 64 Proc.fresh).1 op).proc)
        (start Kernel.above 64 Proc.fresh) [.basic (.alloc 16), .resize 0 24] ↔
      Run.Along (resizeStep (arenaCreate Kernel.above 64 Proc.fresh).1)
        (GrowthSpares (arenaCreate Kernel.above 64 Proc.fresh).1 64)
        (start Kernel.above 64 Proc.fresh) [.basic (.alloc 16), .resize 0 24] :=
  arenaRun_headerKept_iff _ _ _ _ (by decide +kernel) (resizeFits_single (by decide))

open ArenaRun in
/-- Growing the only block of an arena by 40 bytes clears the header's four words. -/
theorem not_arenaRun_headerKept :
    ¬ ∀ (k : Kernel) (capacity : UInt64) (s : Proc) (ops : List ResizeOp),
      (arenaCreate k capacity s).1 ≠ NULL →
      Run.Along (resizeStep (arenaCreate k capacity s).1)
        (ResizeFits (arenaCreate k capacity s).1 capacity) (start k capacity s) ops →
      Run.Along (resizeStep (arenaCreate k capacity s).1)
        (fun r op => HeaderKept (arenaCreate k capacity s).1 capacity
          (r.resizeStep (arenaCreate k capacity s).1 op).proc) (start k capacity s) ops := by
  intro h
  have hrun := h Kernel.above 64 Proc.fresh [.basic (.alloc 16), .resize 0 56]
    (by decide +kernel) (resizeFits_single (by decide))
  exact absurd hrun.2.1.capacity_eq (by decide +kernel)

end AgentResources
