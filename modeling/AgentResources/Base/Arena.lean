import AgentResources.Foundations.Process

/-!
# The arena allocator

`base_mem.c` and `base_arena.c`. An arena is one mapping: the 32-byte header `mem_arena`, then
the bytes it hands out. The header lives in that memory, so it is read and written there, field by
field; `memArena` is the header as a record. A position or a size is a 64-bit word and its sums
wrap, a pointer is an address.

`arenaAlloc_cases` says once what an allocation can do. Everything later is derived from it.

## Main definitions

* `arenaCreate`, `arenaDestroy`, `arenaAlloc`, `arenaPop`, `arenaPopTo`, `arenaClear`,
  `arenaResizeAlign`, `arenaResize`, `tempArenaBegin`, `tempArenaEnd`: the functions of
  `base_arena.c`;
* `ArenaAt`: what every operation keeps of an arena that `arenaCreate` made.
-/

namespace AgentResources

/-! ## `base_mem.c` -/

/-- `ARENA_ALIGN`: two pointers. -/
def ARENA_ALIGN : UInt64 := 16

/-- `KiB(n)` -/
def KiB (n : UInt64) : UInt64 := n <<< 10

/-- `MiB(n)` -/
def MiB (n : UInt64) : UInt64 := n <<< 20

/-- At most one bit of `x` is set. -/
def isPow (x : UInt64) : Bool := x &&& (x - 1) == 0

/-- Round `pointer` up to `alignment`. The guard is as in the source: a power of two is the case
that is returned unrounded. -/
def align (pointer alignment : UInt64) : UInt64 :=
  if alignment &&& (alignment - 1) = 0 then pointer
  else (pointer + alignment - 1) &&& ~~~(alignment - 1)

/-- The alignment of the arena is a power of two, so positions are never rounded. -/
@[simp]
theorem align_arenaAlign (pointer : UInt64) : align pointer ARENA_ALIGN = pointer := by
  have hpow : ARENA_ALIGN &&& (ARENA_ALIGN - 1) = 0 := by decide
  rw [align, if_pos hpow]

/-! ## The header -/

/-- The header of an arena, as it stands in memory. -/
structure MemArena where
  /-- The offset of the first free byte. -/
  currentPosition : UInt64
  /-- The offset the latest allocation started from. -/
  previousPosition : UInt64
  /-- The number of bytes after the header. -/
  capacity : UInt64
  /-- The address of the first byte after the header. -/
  basePosition : UInt64
  deriving DecidableEq

/-- `sizeof(mem_arena)` -/
def sizeofMemArena : ℕ := 32

/-- Read the header at `arena`. -/
def memArena (m : Memory) (arena : ℕ) : MemArena where
  currentPosition := m.load64 arena
  previousPosition := m.load64 (arena + 8)
  capacity := m.load64 (arena + 16)
  basePosition := m.load64 (arena + 24)

/-- `arena->current_position = v` -/
def setCurrentPosition (arena : ℕ) (v : UInt64) (m : Memory) : Memory := m.store64 arena v

/-- `arena->previous_position = v` -/
def setPreviousPosition (arena : ℕ) (v : UInt64) (m : Memory) : Memory :=
  m.store64 (arena + 8) v

variable {m m' : Memory} {arena : ℕ} {s : Proc}

/-- The header depends only on its own 32 bytes. -/
theorem memArena_eq_of_eqOn (h : Set.EqOn m.byte m'.byte (Memory.range arena sizeofMemArena)) :
    memArena m arena = memArena m' arena := by
  -- each field is one word of the header
  have hfield : ∀ d, d + 8 ≤ sizeofMemArena → m.load64 (arena + d) = m'.load64 (arena + d) :=
    fun d hd => Memory.load64_eq_of_eqOn (h.mono (Set.Ico_subset_Ico (by omega) (by omega)))
  simp only [memArena, sizeofMemArena] at *
  rw [hfield 8 (by omega), hfield 16 (by omega), hfield 24 (by omega)]
  rw [show m.load64 arena = m'.load64 arena from hfield 0 (by omega)]

/-- A store away from a word leaves the word as it is. -/
theorem load64_store64_of_disjoint {a b : ℕ} {v : UInt64} (h : b + 8 ≤ a ∨ a + 8 ≤ b) :
    (m.store64 a v).load64 b = m.load64 b :=
  Memory.load64_eq_of_eqOn ((m.store64_eqOn a v).mono (Memory.range_subset_compl h))

@[simp]
theorem memArena_setCurrentPosition (v : UInt64) :
    memArena (setCurrentPosition arena v m) arena =
      { memArena m arena with currentPosition := v } := by
  simp (disch := omega) only [memArena, setCurrentPosition, Memory.load64_store64,
    load64_store64_of_disjoint]

@[simp]
theorem memArena_setPreviousPosition (v : UInt64) :
    memArena (setPreviousPosition arena v m) arena =
      { memArena m arena with previousPosition := v } := by
  simp (disch := omega) only [memArena, setPreviousPosition, Memory.load64_store64,
    load64_store64_of_disjoint]

/-- Setting the two positions changes only the first half of the header. -/
theorem setPositions_eqOn (v w : UInt64) :
    Set.EqOn (setCurrentPosition arena v (setPreviousPosition arena w m)).byte m.byte
      (Memory.range arena 16)ᶜ := by
  intro x hx
  rw [Set.mem_compl_iff, Set.mem_Ico] at hx
  rw [setCurrentPosition, Memory.store64_eqOn _ _ _ (by rw [Set.mem_compl_iff, Set.mem_Ico]; omega)]
  exact Memory.store64_eqOn _ _ _ (by rw [Set.mem_compl_iff, Set.mem_Ico]; omega)

theorem setCurrentPosition_eqOn (v : UInt64) :
    Set.EqOn (setCurrentPosition arena v m).byte m.byte (Memory.range arena 16)ᶜ :=
  (m.store64_eqOn arena v).mono
    (Set.compl_subset_compl.mpr (Set.Ico_subset_Ico le_rfl (by omega)))

/-! ## `base_arena.c` -/

/-- `capacity + sizeof(mem_arena)`, the length that is mapped and unmapped: the sum wraps. -/
def mappingLen (capacity : UInt64) : ℕ := (capacity + UInt64.ofNat sizeofMemArena).toNat

/-- The mapping of an arena. -/
def arenaMapping (arena : ℕ) (capacity : UInt64) : Mapping :=
  ⟨arena, arena + pageRound (mappingLen capacity)⟩

/-- The header `arenaCreate` writes. -/
def initHeader (arena : ℕ) (capacity : UInt64) (m : Memory) : Memory :=
  let m := m.store64 (arena + 16) capacity
  let m := m.store64 (arena + 24) (UInt64.ofNat (arena + sizeofMemArena))
  let m := setCurrentPosition arena 0 m
  setPreviousPosition arena 0 m

/-- Map the header and `capacity` bytes after it. -/
def arenaCreate (k : Kernel) (capacity : UInt64) (s : Proc) : ℕ × Proc :=
  match s.mmap k (mappingLen capacity) with
  | (none, s) => (NULL, s)
  | (some arena, s) => (arena, s.withMem (initHeader arena capacity s.mem))

/-- Unmap the header and the `capacity` bytes after it. -/
def arenaDestroy (arena : ℕ) (s : Proc) : Proc :=
  if arena = NULL then s
  else s.munmap arena (mappingLen (memArena s.mem arena).capacity)

/-- Hand out the next `size` bytes, zeroed, or the null pointer when the limit check fails. -/
def arenaAlloc (arena : ℕ) (size : UInt64) (s : Proc) : Except Halt (ℕ × Proc) :=
  if arena = NULL then .ok (NULL, s)
  else
    let h := memArena s.mem arena
    let aligned := align h.currentPosition ARENA_ALIGN
    let newPos := aligned + size
    -- the sum is taken in 64 bits, so a large size can pass
    if newPos > h.capacity then .ok (NULL, s)
    else do
      let out := h.basePosition.toNat + aligned.toNat
      let m := setPreviousPosition arena h.currentPosition s.mem
      let m := setCurrentPosition arena (aligned + size) m
      let s ← (s.withMem m).memSet out size.toNat
      return (out, s)

/-- `PushArray(arena, type, len)`, with `sizeof(type)` as `elemSize`. -/
def pushArray (arena : ℕ) (elemSize len : UInt64) (s : Proc) : Except Halt (ℕ × Proc) :=
  arenaAlloc arena (elemSize * len) s

/-- Release the last `size` bytes, or all of them. -/
def arenaPop (arena : ℕ) (size : UInt64) (s : Proc) : Proc :=
  let current := (memArena s.mem arena).currentPosition
  let size := if size < current then size else current
  s.withMem (setCurrentPosition arena (current - size) s.mem)

/-- Release everything from the offset `pos` on. -/
def arenaPopTo (arena : ℕ) (pos : UInt64) (s : Proc) : Proc :=
  let current := (memArena s.mem arena).currentPosition
  let size := if pos < current then current - pos else 0
  arenaPop arena size s

/-- Release everything. -/
def arenaClear (arena : ℕ) (s : Proc) : Proc :=
  s.withMem (setCurrentPosition arena 0 s.mem)

/-- Resize a block. The call of `Align` for an odd alignment discards its result, so `alignment`
has no effect. The last block is resized in place, and then the fill goes to
`&arena->current_position`; any other block is copied to a new one, and the null pointer is
returned. The end of the arena is summed in 64 bits. `check(0)`, for a pointer outside the arena,
prints and goes on. -/
def arenaResizeAlign (arena oldMemory : ℕ) (newSize oldSize : UInt64) (_alignment : UInt64)
    (s : Proc) : Except Halt (ℕ × Proc) :=
  let h := memArena s.mem arena
  if oldMemory = NULL ∨ oldSize = 0 then arenaAlloc arena newSize s
  else if h.basePosition.toNat ≤ oldMemory ∧
      oldMemory < (h.basePosition + h.capacity).toNat then
    if h.basePosition.toNat + h.previousPosition.toNat = oldMemory then
      let s := s.withMem (setCurrentPosition arena (h.previousPosition + newSize) s.mem)
      if newSize > oldSize then do
        -- the source clears the bytes from the header on
        let s ← s.memSet arena (newSize - oldSize).toNat
        return (oldMemory, s)
      else .ok (oldMemory, s)
    else do
      let (newMemory, s) ← arenaAlloc arena newSize s
      let copySize := if oldSize < newSize then oldSize else newSize
      if newMemory = NULL then .error (.undefined .nullPointer)
      else
        let s ← s.memMove newMemory oldMemory copySize.toNat
        return (NULL, s)
  else .ok (NULL, s)

/-- Resize a block at the arena's own alignment. -/
def arenaResize (arena oldMemory : ℕ) (newSize oldSize : UInt64) (s : Proc) :
    Except Halt (ℕ × Proc) :=
  arenaResizeAlign arena oldMemory newSize oldSize ARENA_ALIGN s

/-- A remembered position of an arena. -/
structure TempArena where
  /-- The arena. -/
  arena : ℕ
  /-- Its position when the scope was opened. -/
  startPosition : UInt64
  deriving DecidableEq

/-- Open a temporary scope. -/
def tempArenaBegin (arena : ℕ) (s : Proc) : TempArena where
  arena := arena
  startPosition := (memArena s.mem arena).currentPosition

/-- Close a temporary scope. -/
def tempArenaEnd (temp : TempArena) (s : Proc) : Proc :=
  s.withMem (setCurrentPosition temp.arena temp.startPosition s.mem)

/-! ## What the operations keep -/

/-- `arena` is a non-null arena of the given capacity: its header still holds the capacity and the
base address `arenaCreate` wrote, its mapping is there, and its position is within the capacity. -/
structure ArenaAt (arena : ℕ) (capacity : UInt64) (s : Proc) : Prop where
  ne_null : arena ≠ NULL
  capacity_eq : (memArena s.mem arena).capacity = capacity
  base_eq : (memArena s.mem arena).basePosition.toNat = arena + sizeofMemArena
  owns : s.Owns (arenaMapping arena capacity)
  position_le : (memArena s.mem arena).currentPosition ≤ capacity

/-- The position of an arena as a number. -/
def position (arena : ℕ) (s : Proc) : ℕ := (memArena s.mem arena).currentPosition.toNat

/-- The address of the first byte after the header. -/
def arenaBase (arena : ℕ) : ℕ := arena + sizeofMemArena

/-- An arena has room for `n` more bytes: they are within the capacity, and they are mapped. -/
def HasRoom (arena : ℕ) (capacity : UInt64) (s : Proc) (n : ℕ) : Prop :=
  position arena s + n ≤ capacity.toNat ∧ s.Mapped (arenaBase arena + position arena s) n

/-- A request for `n` more bytes returns: it is refused, or there is room for it. -/
def AllocReturns (arena : ℕ) (capacity : UInt64) (s : Proc) (n : ℕ) : Prop :=
  capacity.toNat < (position arena s + n) % 2 ^ 64 ∨ HasRoom arena capacity s n

/-- No block of an arena is the null pointer. -/
theorem arenaBase_add_ne_null (a d : ℕ) : arenaBase a + d ≠ NULL := by
  simp only [arenaBase, sizeofMemArena, NULL]
  omega

/-- The memory after an allocation of `size` bytes that passed the limit check. -/
def allocMem (arena : ℕ) (size : UInt64) (m : Memory) : Memory :=
  let h := memArena m arena
  (setCurrentPosition arena (h.currentPosition + size)
    (setPreviousPosition arena h.currentPosition m)).fill
      (h.basePosition.toNat + h.currentPosition.toNat) size.toNat

/-- The bytes mapped after the header. -/
def mappedAfterHeader (capacity : UInt64) : ℕ := pageRound (mappingLen capacity) - sizeofMemArena

/-- What a creation can do: fail and change nothing, or map whole pages the kernel grants and write
the header at their start. -/
theorem arenaCreate_cases (k : Kernel) (capacity : UInt64) (s : Proc) :
    (k.mmap s.maps (mappingLen capacity) = none ∧ arenaCreate k capacity s = (NULL, s)) ∨
    ∃ a, k.mmap s.maps (mappingLen capacity) = some a ∧
      arenaCreate k capacity s = (a,
        { mem := initHeader a capacity (s.mem.fill a (pageRound (mappingLen capacity)))
          maps := ⟨a, a + pageRound (mappingLen capacity)⟩ :: s.maps }) := by
  cases h : k.mmap s.maps (mappingLen capacity) with
  | none =>
    left
    simp [arenaCreate, Proc.mmap, h]
  | some a =>
    right
    refine ⟨a, rfl, ?_⟩
    simp [arenaCreate, Proc.mmap, h, Proc.withMem]

theorem memArena_initHeader (a : ℕ) (capacity : UInt64) (m : Memory) :
    memArena (initHeader a capacity m) a =
      ⟨0, 0, capacity, UInt64.ofNat (a + sizeofMemArena)⟩ := by
  simp (disch := omega) only [memArena, initHeader, setCurrentPosition, setPreviousPosition,
    Memory.load64_store64, load64_store64_of_disjoint]

/-- A mapping that was granted has room for the header. -/
theorem sizeofMemArena_le_pageRound {len : ℕ} (h : 0 < len) : sizeofMemArena ≤ pageRound len := by
  simp only [sizeofMemArena, pageRound, pageSize]
  omega

/-- A new arena is one, at position zero. -/
theorem arenaAt_create {k : Kernel} {capacity : UInt64} {s : Proc}
    (h : (arenaCreate k capacity s).1 ≠ NULL) :
    ArenaAt (arenaCreate k capacity s).1 capacity (arenaCreate k capacity s).2 ∧
      position (arenaCreate k capacity s).1 (arenaCreate k capacity s).2 = 0 := by
  obtain ⟨-, hnull⟩ | ⟨a, hgrant, ha⟩ := arenaCreate_cases k capacity s
  · simp [hnull] at h
  obtain ⟨hlen, hpos, -, hfit, -⟩ := k.mmap_spec hgrant
  have hroom := sizeofMemArena_le_pageRound hlen
  -- the kernel places whole pages below the top, so the base address does not wrap
  have hpage : pageSize ≤ pageRound (mappingLen capacity) := by
    simp only [pageRound, pageSize]
    omega
  have hbase : (UInt64.ofNat (a + sizeofMemArena)).toNat = a + sizeofMemArena := by
    rw [UInt64.toNat_ofNat', Nat.mod_eq_of_lt]
    simp only [sizeofMemArena, pageSize] at *
    omega
  rw [ha] at h ⊢
  dsimp only at h ⊢
  refine ⟨⟨h, ?_, ?_, Proc.owns_of_granted hgrant rfl, ?_⟩, ?_⟩
  · rw [memArena_initHeader]
  · rw [memArena_initHeader, hbase]
  · rw [memArena_initHeader]
    exact UInt64.zero_le
  · rw [position, memArena_initHeader, UInt64.toNat_zero]

/-- What an allocation can do: refuse and change nothing, or pass the check on the wrapped sum, and
then clear and hand out the bytes from the current position on, or fault where they are not
mapped. -/
theorem arenaAlloc_cases (hne : arena ≠ NULL) (size : UInt64) (s : Proc) :
    let h := memArena s.mem arena
    (h.capacity < h.currentPosition + size ∧ arenaAlloc arena size s = .ok (NULL, s)) ∨
    (h.currentPosition + size ≤ h.capacity ∧
      ¬ s.Mapped (h.basePosition.toNat + h.currentPosition.toNat) size.toNat ∧
      arenaAlloc arena size s = .error .fault) ∨
    (h.currentPosition + size ≤ h.capacity ∧
      s.Mapped (h.basePosition.toNat + h.currentPosition.toNat) size.toNat ∧
      arenaAlloc arena size s = .ok (h.basePosition.toNat + h.currentPosition.toNat,
        s.withMem (allocMem arena size s.mem))) := by
  intro h
  by_cases hfull : h.capacity < h.currentPosition + size
  · left
    simp [arenaAlloc, hne, h, hfull]
  right
  rw [UInt64.not_lt] at hfull
  have hle : ¬ h.currentPosition + size > h.capacity := UInt64.not_lt.mpr hfull
  rw [arenaAlloc, if_neg hne]
  simp only [align_arenaAlign]
  rw [if_neg hle, Proc.memSet]
  by_cases hmapped : s.Mapped (h.basePosition.toNat + h.currentPosition.toNat) size.toNat
  · right
    refine ⟨hfull, hmapped, ?_⟩
    rw [if_pos ((Proc.mapped_withMem _).mpr hmapped)]
    rfl
  · left
    refine ⟨hfull, hmapped, ?_⟩
    rw [if_neg (mt (Proc.mapped_withMem _).mp hmapped)]
    rfl

/-- The null arena hands out nothing. -/
@[simp]
theorem arenaAlloc_null (size : UInt64) (s : Proc) : arenaAlloc NULL size s = .ok (NULL, s) := by
  simp [arenaAlloc]

/-- Filling bytes away from the header leaves the header as it is. -/
theorem memArena_fill_of_disjoint {a n : ℕ} (h : arena + sizeofMemArena ≤ a ∨ a + n ≤ arena) :
    memArena (m.fill a n) arena = memArena m arena :=
  memArena_eq_of_eqOn ((m.fill_eqOn a n).mono (Memory.range_subset_compl h))

/-- Storing bytes away from the header leaves the header as it is. -/
theorem memArena_store_of_disjoint {a : ℕ} {bs : List UInt8}
    (h : arena + sizeofMemArena ≤ a ∨ a + bs.length ≤ arena) :
    memArena (m.store a bs) arena = memArena m arena :=
  memArena_eq_of_eqOn ((m.store_eqOn a bs).mono (Memory.range_subset_compl h))

section ArenaAt

variable {capacity size : UInt64}

/-- An allocation that does not return faults. -/
theorem arenaAlloc_eq_error {size : UInt64} {e : Halt}
    (he : arenaAlloc arena size s = .error e) : e = .fault := by
  by_cases hne : arena = NULL
  · rw [hne, arenaAlloc_null] at he
    cases he
  · obtain ⟨-, h⟩ | ⟨-, -, h⟩ | ⟨-, -, h⟩ := arenaAlloc_cases hne size s
    · rw [h] at he
      cases he
    · rw [h] at he
      exact (Except.error.inj he).symm
    · rw [h] at he
      cases he

/-- Where a request is refused there is no room. -/
theorem not_hasRoom_of_lt {n : ℕ} (h : capacity.toNat < (position arena s + n) % 2 ^ 64) :
    ¬ HasRoom arena capacity s n :=
  fun hroom => absurd ((Nat.mod_le _ _).trans hroom.1) (Nat.not_le.mpr h)

/-- Where there is room there is room for less. -/
theorem HasRoom.mono {n k : ℕ} (h : HasRoom arena capacity s n) (hle : k ≤ n) :
    HasRoom arena capacity s k :=
  ⟨(Nat.add_le_add_left hle _).trans h.1, h.2.mono le_rfl (Nat.add_le_add_left hle _)⟩

/-- The room that is left when `n` bytes are taken. -/
theorem HasRoom.after {n k : ℕ} (h : HasRoom arena capacity s (n + k)) (hmaps : s'.maps = s.maps)
    (hpos : position arena s' = position arena s + n) : HasRoom arena capacity s' k := by
  have hmapped := ((s.mapped_add _ n k).mp h.2).2
  rw [Nat.add_assoc, ← hpos] at hmapped
  refine ⟨?_, (Proc.mapped_congr hmaps).mpr hmapped⟩
  rw [hpos, Nat.add_assoc]
  exact h.1

namespace ArenaAt

theorem position_le_toNat (ha : ArenaAt arena capacity s) : position arena s ≤ capacity.toNat :=
  UInt64.le_iff_toNat_le.mp ha.position_le

/-- The header after a successful allocation: the two positions have moved, nothing else. -/
theorem memArena_allocMem (ha : ArenaAt arena capacity s) (size : UInt64) :
    memArena (allocMem arena size s.mem) arena =
      { memArena s.mem arena with
        currentPosition := (memArena s.mem arena).currentPosition + size
        previousPosition := (memArena s.mem arena).currentPosition } := by
  have hbase := ha.base_eq
  -- the block that is cleared starts behind the header
  rw [allocMem, memArena_fill_of_disjoint (.inl (by omega))]
  simp

/-- What an allocation can do, in numbers. -/
theorem alloc_cases (ha : ArenaAt arena capacity s) (size : UInt64) :
    (capacity.toNat < (position arena s + size.toNat) % 2 ^ 64 ∧
      arenaAlloc arena size s = .ok (NULL, s)) ∨
    ((position arena s + size.toNat) % 2 ^ 64 ≤ capacity.toNat ∧
      ¬ s.Mapped (arenaBase arena + position arena s) size.toNat ∧
      arenaAlloc arena size s = .error .fault) ∨
    (HasRoom arena capacity s size.toNat ∧ arenaAlloc arena size s =
      .ok (arenaBase arena + position arena s, s.withMem (allocMem arena size s.mem))) := by
  have h := arenaAlloc_cases ha.ne_null size s
  have hposition := ha.position_le_toNat
  have hcapacity := capacity.toNat_lt
  -- the sum of the limit check wraps, which is the `%` of the statement
  dsimp only at h
  rw [ha.capacity_eq, ha.base_eq, UInt64.lt_iff_toNat_lt, UInt64.le_iff_toNat_le,
    UInt64.toNat_add] at h
  rcases h with hfull | hfault | ⟨hle, hmapped, halloc⟩
  · exact .inl hfull
  · exact .inr (.inl hfault)
  · refine .inr (.inr ⟨⟨?_, hmapped⟩, halloc⟩)
    -- bytes that are mapped end within the word
    rcases Nat.eq_zero_or_pos size.toNat with hsize | hsize
    · rw [hsize, Nat.add_zero]
      exact hposition
    · have hend := (hmapped.bounds hsize).2
      simp only [position, pageSize] at hend hle hposition ⊢
      omega

/-- Where there is room a block is handed out. -/
theorem alloc_eq (ha : ArenaAt arena capacity s) {size : UInt64}
    (hroom : HasRoom arena capacity s size.toNat) :
    arenaAlloc arena size s =
      .ok (arenaBase arena + position arena s, s.withMem (allocMem arena size s.mem)) := by
  have hsum : (position arena s + size.toNat) % 2 ^ 64 ≤ capacity.toNat :=
    (Nat.mod_le _ _).trans hroom.1
  obtain ⟨hfull, -⟩ | ⟨-, hmapped, -⟩ | ⟨-, halloc⟩ := ha.alloc_cases size
  · exact absurd hsum (Nat.not_le.mpr hfull)
  · exact absurd hroom.2 hmapped
  · exact halloc

/-- Without a wrapped length all of the capacity is mapped. -/
theorem mapped (ha : ArenaAt arena capacity s) (hcap : capacity.toNat + sizeofMemArena < 2 ^ 64)
    {a n : ℕ} (hlo : arena ≤ a) (hhi : a + n ≤ arenaBase arena + capacity.toNat) :
    s.Mapped a n := by
  have hlen : mappingLen capacity = capacity.toNat + sizeofMemArena := by
    rw [mappingLen, UInt64.toNat_add]
    exact Nat.mod_eq_of_lt hcap
  have hle := le_pageRound (mappingLen capacity)
  refine ha.owns.mapped hlo ?_
  simp only [arenaMapping, arenaBase] at *
  omega

/-- The arena ends before the address space does, unless the length that is mapped wraps. -/
theorem top_lt_iff (ha : ArenaAt arena capacity s) :
    arenaBase arena + capacity.toNat < 2 ^ 64 ↔ capacity.toNat + sizeofMemArena < 2 ^ 64 := by
  refine ⟨fun h => by rw [arenaBase] at h; omega, fun hcap => ?_⟩
  have hlen : mappingLen capacity = capacity.toNat + sizeofMemArena := by
    rw [mappingLen, UInt64.toNat_add]
    exact Nat.mod_eq_of_lt hcap
  have hle := le_pageRound (mappingLen capacity)
  have hhi := ha.owns.hi_le
  simp only [arenaMapping, arenaBase, pageSize] at *
  omega

/-- An arena that ends within the address space is mapped in full. -/
theorem fits_of_top_le (ha : ArenaAt arena capacity s)
    (htop : arenaBase arena + capacity.toNat ≤ 2 ^ 64) :
    capacity.toNat + sizeofMemArena < 2 ^ 64 := by
  have hpos := Nat.pos_of_ne_zero ha.ne_null
  rw [arenaBase] at htop
  omega

/-- In an arena that is mapped in full, what is within the capacity is room. -/
theorem hasRoom (ha : ArenaAt arena capacity s) (hcap : capacity.toNat + sizeofMemArena < 2 ^ 64)
    {n : ℕ} (h : position arena s + n ≤ capacity.toNat) : HasRoom arena capacity s n := by
  refine ⟨h, ha.mapped hcap ?_ ?_⟩
  · exact (Nat.le_add_right _ _).trans (Nat.le_add_right _ _)
  · omega

/-- The position after a successful allocation. -/
theorem position_allocMem (ha : ArenaAt arena capacity s) {size : UInt64}
    (hroom : HasRoom arena capacity s size.toNat) :
    position arena (s.withMem (allocMem arena size s.mem)) = position arena s + size.toNat := by
  rw [position, Proc.mem_withMem, ha.memArena_allocMem, UInt64.toNat_add]
  exact Nat.mod_eq_of_lt (hroom.1.trans_lt capacity.toNat_lt)

/-- An allocation that passed the check writes to the positions and to the block. -/
theorem allocMem_eqOn (ha : ArenaAt arena capacity s) (size : UInt64) :
    Set.EqOn (allocMem arena size s.mem).byte s.mem.byte
      (Memory.range arena 16 ∪
        Memory.range (arenaBase arena + position arena s) size.toNat)ᶜ := by
  have hout : (memArena s.mem arena).basePosition.toNat +
      (memArena s.mem arena).currentPosition.toNat = arenaBase arena + position arena s := by
    rw [ha.base_eq, arenaBase, position]
  rw [Set.compl_union]
  intro x hx
  rw [allocMem, hout, Memory.fill_eqOn _ _ _ hx.2]
  exact setPositions_eqOn _ _ hx.1

/-- The bytes of a new block are zero. -/
theorem load_allocMem (ha : ArenaAt arena capacity s) (size : UInt64) {x : ℕ}
    (hx : x ∈ Memory.range (arenaBase arena + position arena s) size.toNat) :
    (allocMem arena size s.mem).byte x = 0 := by
  have hout : (memArena s.mem arena).basePosition.toNat +
      (memArena s.mem arena).currentPosition.toNat = arenaBase arena + position arena s := by
    rw [ha.base_eq, arenaBase, position]
  rw [allocMem, hout, Memory.byte_fill_of_mem hx]

/-- The room that is left after an allocation. -/
theorem hasRoom_allocMem (ha : ArenaAt arena capacity s) {size : UInt64}
    (hroom : HasRoom arena capacity s size.toNat) (n : ℕ) :
    HasRoom arena capacity (s.withMem (allocMem arena size s.mem)) n ↔
      HasRoom arena capacity s (size.toNat + n) := by
  rw [HasRoom, HasRoom, ha.position_allocMem hroom, Proc.mapped_withMem, Proc.mapped_add,
    Nat.add_assoc, ← Nat.add_assoc (arenaBase arena)]
  exact and_congr_right' (and_iff_right hroom.2).symm

theorem allocReturns_allocMem (ha : ArenaAt arena capacity s) {size : UInt64}
    (hroom : HasRoom arena capacity s size.toNat) (n : ℕ) :
    AllocReturns arena capacity (s.withMem (allocMem arena size s.mem)) n ↔
      AllocReturns arena capacity s (size.toNat + n) := by
  rw [AllocReturns, AllocReturns, ha.position_allocMem hroom, ha.hasRoom_allocMem hroom,
    Nat.add_assoc]

/-- Moving the position to a place within the capacity keeps the arena. -/
theorem setCurrent (ha : ArenaAt arena capacity s) {v : UInt64} (hv : v ≤ capacity) :
    ArenaAt arena capacity (s.withMem (setCurrentPosition arena v s.mem)) where
  ne_null := ha.ne_null
  capacity_eq := by simpa using ha.capacity_eq
  base_eq := by simpa using ha.base_eq
  owns := ha.owns.of_maps_eq (Proc.maps_withMem _ _)
  position_le := by simpa using hv

/-- An allocation that passed the check keeps the arena. -/
theorem of_allocMem (ha : ArenaAt arena capacity s) {size : UInt64}
    (hroom : HasRoom arena capacity s size.toNat) :
    ArenaAt arena capacity (s.withMem (allocMem arena size s.mem)) := by
  have hmem := ha.memArena_allocMem size
  refine ⟨ha.ne_null, ?_, ?_, ha.owns.of_maps_eq (Proc.maps_withMem _ _), ?_⟩
  · rw [Proc.mem_withMem, hmem]
    exact ha.capacity_eq
  · rw [Proc.mem_withMem, hmem]
    exact ha.base_eq
  · rw [UInt64.le_iff_toNat_le]
    exact (ha.position_allocMem hroom).trans_le hroom.1

/-- An arena is one by its header and its mapping. -/
theorem of_mem_maps (ha : ArenaAt arena capacity s) {s' : Proc}
    (hmapping : arenaMapping arena capacity ∈ s'.maps)
    (h : memArena s'.mem arena = memArena s.mem arena) : ArenaAt arena capacity s' := by
  refine ⟨ha.ne_null, ?_, ?_, ⟨hmapping, ha.owns.pageSize_le, ha.owns.hi_le⟩, ?_⟩
  · rw [h]
    exact ha.capacity_eq
  · rw [h]
    exact ha.base_eq
  · rw [h]
    exact ha.position_le

/-- Where the mappings stay, it is one by its header. -/
theorem of_memArena (ha : ArenaAt arena capacity s) {s' : Proc} (hmaps : s'.maps = s.maps)
    (h : memArena s'.mem arena = memArena s.mem arena) : ArenaAt arena capacity s' :=
  ha.of_mem_maps (hmaps ▸ ha.owns.mem_maps) h

/-- Changing bytes after the header keeps the arena. -/
theorem of_eqOn (ha : ArenaAt arena capacity s) {s' : Proc} (hmaps : s'.maps = s.maps)
    (h : Set.EqOn s'.mem.byte s.mem.byte (Memory.range arena sizeofMemArena)) :
    ArenaAt arena capacity s' := ha.of_memArena hmaps (memArena_eq_of_eqOn h)

/-- Writing behind the header keeps the arena and its position. -/
theorem store_behind (ha : ArenaAt arena capacity s) {a : ℕ} (hle : arenaBase arena ≤ a)
    (bs : List UInt8) :
    ArenaAt arena capacity (s.withMem (s.mem.store a bs)) ∧
      position arena (s.withMem (s.mem.store a bs)) = position arena s := by
  have hmem : memArena (s.withMem (s.mem.store a bs)).mem arena = memArena s.mem arena :=
    memArena_store_of_disjoint (.inl hle)
  exact ⟨ha.of_memArena (Proc.maps_withMem _ _) hmem, by rw [position, hmem, position]⟩

/-- With room for it a block is granted: it is zeroed and moves the position, and nothing but the
block and the two positions has changed. The mappings are as they were. -/
theorem alloc_of_room (ha : ArenaAt arena capacity s) {size : UInt64}
    (hroom : HasRoom arena capacity s size.toNat) :
    ∃ s', arenaAlloc arena size s = .ok (arenaBase arena + position arena s, s') ∧
      ArenaAt arena capacity s' ∧ position arena s' = position arena s + size.toNat ∧
      s'.maps = s.maps ∧
      (∀ x ∈ Memory.range (arenaBase arena + position arena s) size.toNat, s'.mem.byte x = 0) ∧
      Set.EqOn s'.mem.byte s.mem.byte (Memory.range arena 16 ∪
        Memory.range (arenaBase arena + position arena s) size.toNat)ᶜ :=
  ⟨_, ha.alloc_eq hroom, ha.of_allocMem hroom, ha.position_allocMem hroom, Proc.maps_withMem _ _,
    fun _ hx => ha.load_allocMem size hx, ha.allocMem_eqOn size⟩

/-- What differs in the positions and a block is alike in the blocks below. -/
theorem eqOn_below {p k lo n : ℕ}
    (h : Set.EqOn m'.byte m.byte (Memory.range arena 16 ∪ Memory.range (arenaBase arena + p) k)ᶜ)
    (hlo : arenaBase arena ≤ lo) (hhi : lo + n ≤ arenaBase arena + p) :
    Set.EqOn m'.byte m.byte (Memory.range lo n) := by
  refine h.mono fun x hx => ?_
  rw [Set.mem_Ico] at hx
  rw [Set.compl_union, Set.mem_inter_iff, Set.mem_compl_iff, Set.mem_compl_iff, Set.mem_Ico,
    Set.mem_Ico]
  simp only [arenaBase, sizeofMemArena] at hlo hhi ⊢
  omega

/-- A granted block is zeroed, the blocks below it are kept, and writing to it keeps the arena. -/
theorem alloc_store (ha : ArenaAt arena capacity s) {size : UInt64}
    (hroom : HasRoom arena capacity s size.toNat) :
    ∃ s', arenaAlloc arena size s = .ok (arenaBase arena + position arena s, s') ∧
      (∀ x ∈ Memory.range (arenaBase arena + position arena s) size.toNat, s'.mem.byte x = 0) ∧
      (∀ lo n, arenaBase arena ≤ lo → lo + n ≤ arenaBase arena + position arena s →
        Set.EqOn s'.mem.byte s.mem.byte (Memory.range lo n)) ∧
      ∀ bs, ArenaAt arena capacity
          (s'.withMem (s'.mem.store (arenaBase arena + position arena s) bs)) ∧
        position arena (s'.withMem (s'.mem.store (arenaBase arena + position arena s) bs)) =
          position arena s + size.toNat ∧
        ∀ n, HasRoom arena capacity s (size.toNat + n) → HasRoom arena capacity
          (s'.withMem (s'.mem.store (arenaBase arena + position arena s) bs)) n := by
  obtain ⟨s', halloc, hat, hpos, hmaps, hzero, heqOn⟩ := ha.alloc_of_room hroom
  refine ⟨s', halloc, hzero, fun lo n => eqOn_below heqOn, fun bs => ?_⟩
  obtain ⟨hat', hpos'⟩ := hat.store_behind (Nat.le_add_right _ _) bs
  exact ⟨hat', hpos'.trans hpos, fun n hleft =>
    hleft.after ((Proc.maps_withMem _ _).trans hmaps) (hpos'.trans hpos)⟩

/-- Popping keeps the arena. -/
theorem pop (ha : ArenaAt arena capacity s) (size : UInt64) :
    ArenaAt arena capacity (arenaPop arena size s) := by
  refine ha.setCurrent ?_
  have hle := ha.position_le
  rw [UInt64.le_iff_toNat_le] at hle ⊢
  rw [UInt64.toNat_sub_of_le _ _ (by split <;> [exact UInt64.le_of_lt ‹_›; exact UInt64.le_refl _])]
  omega

end ArenaAt

/-- The position after a pop: the size popped is cut to what is there. -/
theorem position_arenaPop (arena : ℕ) (size : UInt64) (s : Proc) :
    position arena (arenaPop arena size s) = position arena s - size.toNat := by
  simp only [position, arenaPop, Proc.mem_withMem, memArena_setCurrentPosition]
  split
  · next h =>
    rw [UInt64.toNat_sub_of_le _ _ (UInt64.le_of_lt h)]
  · next h =>
    rw [UInt64.lt_iff_toNat_lt] at h
    rw [UInt64.sub_self, UInt64.toNat_zero]
    omega

@[simp]
theorem position_tempArenaEnd (temp : TempArena) (s : Proc) :
    position temp.arena (tempArenaEnd temp s) = temp.startPosition.toNat := by
  simp [position, tempArenaEnd]

end ArenaAt

/-! ## Creation and destruction -/

section Mapping

variable {k : Kernel} {capacity : UInt64} {a : ℕ}

theorem initHeader_eqOn (a : ℕ) (capacity : UInt64) (m : Memory) :
    Set.EqOn (initHeader a capacity m).byte m.byte (Memory.range a sizeofMemArena)ᶜ := by
  have hword : ∀ d, d + 8 ≤ sizeofMemArena → (Memory.range a sizeofMemArena)ᶜ ⊆
      (Memory.range (a + d) 8)ᶜ := fun d hd =>
    Set.compl_subset_compl.mpr (Set.Ico_subset_Ico (by omega) (by omega))
  have h0 : (Memory.range a sizeofMemArena)ᶜ ⊆ (Memory.range a 8)ᶜ := hword 0 (by decide)
  intro x hx
  rw [initHeader, setPreviousPosition, setCurrentPosition]
  rw [Memory.store64_eqOn _ _ _ (hword 8 (by decide) hx), Memory.store64_eqOn _ _ _ (h0 hx),
    Memory.store64_eqOn _ _ _ (hword 24 (by decide) hx),
    Memory.store64_eqOn _ _ _ (hword 16 (by decide) hx)]

/-- A creation the kernel refuses changes nothing. -/
theorem arenaCreate_of_refused (h : k.mmap s.maps (mappingLen capacity) = none) :
    arenaCreate k capacity s = (NULL, s) := by
  obtain ⟨-, hs⟩ | ⟨a, ha, -⟩ := arenaCreate_cases k capacity s
  · exact hs
  · simp [h] at ha

/-- A creation the kernel grants: the new mapping is where the arena is, and bytes outside it are as
before. -/
theorem arenaCreate_of_granted (h : k.mmap s.maps (mappingLen capacity) = some a) :
    (arenaCreate k capacity s).1 = a ∧ a ≠ NULL ∧
      (arenaCreate k capacity s).2.maps =
        ⟨a, a + pageRound (mappingLen capacity)⟩ :: s.maps ∧
      Set.EqOn (arenaCreate k capacity s).2.mem.byte s.mem.byte
        (Memory.range a (pageRound (mappingLen capacity)))ᶜ := by
  obtain ⟨hlen, hpos, -⟩ := k.mmap_spec h
  obtain ⟨hnone, -⟩ | ⟨a', ha, hs⟩ := arenaCreate_cases k capacity s
  · simp [h] at hnone
  obtain rfl : a = a' := by simpa [h] using ha
  rw [hs]
  refine ⟨rfl, hpos.ne', rfl, fun x hx => ?_⟩
  have hheader : x ∈ (Memory.range a sizeofMemArena)ᶜ := by
    refine Set.compl_subset_compl.mpr (Set.Ico_subset_Ico le_rfl ?_) hx
    exact Nat.add_le_add_left (sizeofMemArena_le_pageRound hlen) a
  exact (initHeader_eqOn a capacity _ hheader).trans (Memory.fill_eqOn _ _ _ hx)

/-- An arena that was granted is one, at position zero. -/
theorem arenaAt_of_granted (h : k.mmap s.maps (mappingLen capacity) = some a) :
    ArenaAt a capacity (arenaCreate k capacity s).2 ∧
      position a (arenaCreate k capacity s).2 = 0 := by
  obtain ⟨ha, hne, -⟩ := arenaCreate_of_granted h
  have hcreated : (arenaCreate k capacity s).1 ≠ NULL := by
    rw [ha]
    exact hne
  have hat := arenaAt_create hcreated
  rwa [ha] at hat

@[simp]
theorem mem_arenaDestroy (arena : ℕ) (s : Proc) : (arenaDestroy arena s).mem = s.mem := by
  unfold arenaDestroy
  split <;> rfl

/-- Destroying an arena whose mapping is the newest restores the mappings from before it. -/
theorem maps_arenaDestroy {maps : List Mapping} (ha : ArenaAt arena capacity s)
    (hmaps : ∀ r ∈ maps, r.lo < r.hi)
    (hgrant : k.mmap maps (mappingLen capacity) = some arena)
    (hs : s.maps = ⟨arena, arena + pageRound (mappingLen capacity)⟩ :: maps) :
    (arenaDestroy arena s).maps = maps := by
  rw [arenaDestroy, if_neg ha.ne_null, ha.capacity_eq]
  obtain ⟨m, maps'⟩ := s
  obtain rfl : maps' = _ := hs
  exact Proc.maps_munmap_cons hmaps hgrant

end Mapping

end AgentResources
