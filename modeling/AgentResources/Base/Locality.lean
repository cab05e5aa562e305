import AgentResources.Base.ArenaSafety
import AgentResources.Base.StackRun

/-!
# Allocators look at their own memory only

What an arena or a stack does depends on the bytes of its own mapping, and it writes to them only.
So two processes that are alike there are to it one and the same, whatever else is in them.
-/

namespace AgentResources

/-! ## Arenas -/

namespace ArenaRun

variable {arena : ℕ} {capacity : UInt64} {r r' : ArenaRun} {S : Set ℕ}

/-- The addresses of the header and of all that an arena can hand out. -/
def region (arena : ℕ) (capacity : UInt64) : Set ℕ :=
  Set.Ico arena (arenaBase arena + capacity.toNat)

/-- Two runs of an arena with the same blocks, the same bytes, and both or neither with its
mapping. -/
structure SameOn (arena : ℕ) (capacity : UInt64) (r r' : ArenaRun) : Prop where
  temps_eq : r'.temps = r.temps
  live_eq : r'.live = r.live
  eqOn : Set.EqOn r'.proc.mem.byte r.proc.mem.byte (region arena capacity)
  mem_maps_iff : arenaMapping arena capacity ∈ r'.proc.maps ↔
    arenaMapping arena capacity ∈ r.proc.maps

theorem header_subset_region : Memory.range arena sizeofMemArena ⊆ region arena capacity :=
  Set.Ico_subset_Ico le_rfl (Nat.le_add_right _ _)

theorem SameOn.memArena_eq (h : SameOn arena capacity r r') :
    memArena r'.proc.mem arena = memArena r.proc.mem arena :=
  memArena_eq_of_eqOn (h.eqOn.mono header_subset_region)

theorem SameOn.position_eq (h : SameOn arena capacity r r') :
    position arena r'.proc = position arena r.proc := by
  rw [position, h.memArena_eq, position]

/-- Continue alike in processes that are alike. -/
theorem SameOn.settle (h : SameOn arena capacity r r') {p p' : Proc}
    (hp : Set.EqOn p'.mem.byte p.mem.byte (region arena capacity)) (hmaps : p.maps = r.proc.maps)
    (hmaps' : p'.maps = r'.proc.maps) (live : List (ℕ × ℕ)) :
    SameOn arena capacity (r.settle arena p live) (r'.settle arena p' live) := by
  have hpos : position arena p' = position arena p := by
    rw [position, memArena_eq_of_eqOn (hp.mono header_subset_region), position]
  refine ⟨h.temps_eq, ?_, hp, ?_⟩
  · rw [live_settle, live_settle, hpos]
  · rw [proc_settle, proc_settle, hmaps, hmaps']
    exact h.mem_maps_iff

/-- What is known of an arena is known by its bytes and its mapping. -/
theorem SameOn.arenaAt (h : SameOn arena capacity r r') (ha : ArenaAt arena capacity r.proc) :
    ArenaAt arena capacity r'.proc :=
  ha.of_mem_maps (h.mem_maps_iff.mpr ha.owns.mem_maps) h.memArena_eq

/-- Where the length that was mapped does not wrap, what an allocation does depends on the header
only. -/
theorem arenaAlloc_ite {s : Proc} (ha : ArenaAt arena capacity s)
    (hcap : capacity.toNat + sizeofMemArena < 2 ^ 64) (size : UInt64) :
    arenaAlloc arena size s =
      if capacity.toNat < (position arena s + size.toNat) % 2 ^ 64 then .ok (NULL, s)
      else if position arena s + size.toNat < 2 ^ 64 then
        .ok (arenaBase arena + position arena s, s.withMem (allocMem arena size s.mem))
      else .error .fault := by
  obtain ⟨hfull, h⟩ | ⟨hle, hmapped, h⟩ | ⟨hroom, h⟩ := ha.alloc_cases size
  · rw [h, if_pos hfull]
  · have hwrap : ¬ position arena s + size.toNat < 2 ^ 64 := by
      intro hlt
      rw [Nat.mod_eq_of_lt hlt] at hle
      exact hmapped (ha.hasRoom hcap hle).2
    rw [h, if_neg (Nat.not_lt.mpr hle), if_neg hwrap]
  · have hlt := hroom.1.trans_lt capacity.toNat_lt
    have hnot : ¬ capacity.toNat < (position arena s + size.toNat) % 2 ^ 64 := fun hfull =>
      not_hasRoom_of_lt hfull hroom
    rw [h, if_neg hnot, if_pos hlt]

theorem SameOn.grant (h : SameOn arena capacity r r') (ha : ArenaAt arena capacity r.proc)
    (hcap : capacity.toNat + sizeofMemArena < 2 ^ 64) (size : UInt64) (n : ℕ) :
    SameOn arena capacity (r.grant arena n (arenaAlloc arena size r.proc))
        (r'.grant arena n (arenaAlloc arena size r'.proc)) ∧
      (arenaAlloc arena size r'.proc).map Prod.fst =
        (arenaAlloc arena size r.proc).map Prod.fst := by
  rw [arenaAlloc_ite ha hcap, arenaAlloc_ite (h.arenaAt ha) hcap, h.position_eq]
  by_cases hfull : capacity.toNat < (position arena r.proc + size.toNat) % 2 ^ 64
  · rw [if_pos hfull, if_pos hfull, ArenaRun.grant, ArenaRun.grant, if_pos rfl, if_pos rfl,
      h.live_eq]
    exact ⟨h.settle h.eqOn rfl rfl _, rfl⟩
  rw [if_neg hfull, if_neg hfull]
  by_cases hlt : position arena r.proc + size.toNat < 2 ^ 64
  · rw [if_pos hlt, if_pos hlt, ArenaRun.grant, ArenaRun.grant, h.live_eq]
    refine ⟨h.settle ?_ (Proc.maps_withMem _ _) (Proc.maps_withMem _ _) _, ?_⟩
    · rw [Proc.mem_withMem, Proc.mem_withMem, allocMem, allocMem, h.memArena_eq]
      exact Memory.fill_congr (Memory.store_congr (Memory.store_congr h.eqOn _ _) _ _) _ _
    · exact congrArg Except.ok (Eq.refl (arenaBase arena + position arena r.proc))
  · rw [if_neg hlt, if_neg hlt]
    exact ⟨h, rfl⟩

/-- Setting the position is setting it in both. -/
theorem SameOn.setCurrent (h : SameOn arena capacity r r') (v : UInt64) :
    SameOn arena capacity
      (r.settle arena (r.proc.withMem (setCurrentPosition arena v r.proc.mem)) r.live)
      (r'.settle arena (r'.proc.withMem (setCurrentPosition arena v r'.proc.mem)) r'.live) := by
  rw [h.live_eq]
  refine h.settle ?_ (Proc.maps_withMem _ _) (Proc.maps_withMem _ _) _
  exact Memory.store_congr h.eqOn _ _

/-- A step looks at the bytes of the arena only. -/
theorem SameOn.step (h : SameOn arena capacity r r') (hr : HeaderInv arena capacity r)
    (hcap : capacity.toNat + sizeofMemArena < 2 ^ 64) (op : ArenaOp) :
    SameOn arena capacity (r.step arena op) (r'.step arena op) ∧
      r'.result arena op = r.result arena op := by
  cases op with
  | alloc size => exact h.grant hr.arenaAt hcap size _
  | pushArray elemSize len => exact h.grant hr.arenaAt hcap (elemSize * len) _
  | pop size =>
    refine ⟨?_, rfl⟩
    simp only [ArenaRun.step, arenaPop, h.memArena_eq]
    exact h.setCurrent _
  | popTo pos =>
    refine ⟨?_, rfl⟩
    simp only [ArenaRun.step, arenaPopTo, arenaPop, h.memArena_eq]
    exact h.setCurrent _
  | clear => exact ⟨h.setCurrent 0, rfl⟩
  | tempBegin =>
    refine ⟨⟨?_, h.live_eq, h.eqOn, h.mem_maps_iff⟩, rfl⟩
    simp only [ArenaRun.step, tempArenaBegin, h.memArena_eq, h.temps_eq]
  | tempEnd i =>
    refine ⟨?_, rfl⟩
    simp only [ArenaRun.step, h.temps_eq]
    cases hi : r.temps[i]? with
    | none => exact h
    | some temp =>
      obtain ⟨rfl, -⟩ := hr.temps temp (List.mem_of_getElem? hi)
      exact h.setCurrent _
  | write i offset bytes =>
    refine ⟨?_, rfl⟩
    simp only [ArenaRun.step, h.live_eq]
    cases r.live[i]? with
    | none => exact h
    | some b =>
      dsimp only
      split
      · exact ⟨h.temps_eq, rfl, Memory.store_congr h.eqOn _ _, h.mem_maps_iff⟩
      · exact h

/-- What is known of a run is known by the bytes and the mapping of the arena. -/
theorem SameOn.inv (h : SameOn arena capacity r r') (hr : Inv arena capacity r) :
    Inv arena capacity r' := by
  refine ⟨⟨?_, ?_, ?_, ?_⟩, ?_⟩
  · exact h.arenaAt hr.arenaAt
  · rw [h.temps_eq]
    exact hr.temps
  · rw [h.live_eq]
    exact hr.base_le
  · rw [h.live_eq, h.position_eq]
    exact hr.live_le
  · obtain ⟨w, hmark, hlive⟩ := hr.refines
    exact ⟨w, by rw [hmark, h.position_eq], by rw [hlive, h.live_eq]⟩

/-- Away from the header and what the arena hands out nothing is written. -/
theorem Inv.step_region (hr : Inv arena capacity r) (op : ArenaOp) :
    (r.step arena op).proc.maps = r.proc.maps ∧
      Set.EqOn (r.step arena op).proc.mem.byte r.proc.mem.byte (region arena capacity)ᶜ := by
  have hheader : Memory.range arena 16 ⊆ region arena capacity :=
    Set.Ico_subset_Ico le_rfl (by simp only [arenaBase, sizeofMemArena]; omega)
  -- what sets the position writes in the header
  have hset : ∀ v, Set.EqOn (setCurrentPosition arena v r.proc.mem).byte r.proc.mem.byte
      (region arena capacity)ᶜ :=
    fun v => (setCurrentPosition_eqOn v).mono (Set.compl_subset_compl.mpr hheader)
  have halloc : ∀ (size : UInt64) n,
      (r.grant arena n (arenaAlloc arena size r.proc)).proc.maps = r.proc.maps ∧
        Set.EqOn (r.grant arena n (arenaAlloc arena size r.proc)).proc.mem.byte r.proc.mem.byte
          (region arena capacity)ᶜ := by
    intro size n
    obtain ⟨-, h⟩ | ⟨-, -, h⟩ | ⟨⟨hle, -⟩, h⟩ := hr.arenaAt.alloc_cases size
    · rw [h]
      exact ⟨rfl, fun _ _ => rfl⟩
    · rw [h]
      exact ⟨rfl, fun _ _ => rfl⟩
    · -- the block is cleared up to the new position, which is within the capacity
      rw [h, ArenaRun.grant, proc_settle, Proc.maps_withMem, Proc.mem_withMem]
      refine ⟨rfl, (hr.arenaAt.allocMem_eqOn size).mono (Set.compl_subset_compl.mpr ?_)⟩
      refine Set.union_subset hheader (Set.Ico_subset_Ico ?_ (by omega))
      exact (Nat.le_add_right arena _).trans (Nat.le_add_right _ _)
  cases op with
  | alloc size => exact halloc size _
  | pushArray elemSize len => exact halloc (elemSize * len) _
  | pop size => exact ⟨rfl, hset _⟩
  | popTo pos => exact ⟨rfl, hset _⟩
  | clear => exact ⟨rfl, hset _⟩
  | tempBegin => exact ⟨rfl, fun _ _ => rfl⟩
  | tempEnd i =>
    simp only [ArenaRun.step]
    cases hi : r.temps[i]? with
    | none => exact ⟨rfl, fun _ _ => rfl⟩
    | some temp =>
      obtain ⟨rfl, -⟩ := hr.temps temp (List.mem_of_getElem? hi)
      exact ⟨rfl, hset _⟩
  | write i offset bytes =>
    simp only [ArenaRun.step]
    cases hi : r.live[i]? with
    | none => exact ⟨rfl, fun _ _ => rfl⟩
    | some b =>
      dsimp only
      split
      · -- a live block lies behind the header and below the position
        have hlo := hr.base_le b (List.mem_of_getElem? hi)
        have hhi := hr.live_le b (List.mem_of_getElem? hi)
        have hpos := hr.arenaAt.position_le_toNat
        have hle : arena ≤ arenaBase arena := Nat.le_add_right _ _
        refine ⟨rfl, (Memory.store_eqOn _ _ _).mono (Set.compl_subset_compl.mpr ?_)⟩
        exact Set.Ico_subset_Ico (by omega) (by omega)
      · exact ⟨rfl, fun _ _ => rfl⟩

end ArenaRun

/-! ## Stacks -/

namespace StackRun

variable {stack : ℕ} {capacity : UInt64} {r r' : StackRun} {S : Set ℕ}

/-- The addresses of the struct and of all that a stack can hand out. -/
def region (stack : ℕ) (capacity : UInt64) : Set ℕ :=
  Set.Ico stack (stackBase stack + capacity.toNat)

/-- Two runs of a stack with the same blocks, the same bytes, and both or neither with its
mapping. -/
structure SameOn (stack : ℕ) (capacity : UInt64) (r r' : StackRun) : Prop where
  live_eq : r'.live = r.live
  eqOn : Set.EqOn r'.proc.mem.byte r.proc.mem.byte (region stack capacity)
  mem_maps_iff : stackMapping stack capacity ∈ r'.proc.maps ↔
    stackMapping stack capacity ∈ r.proc.maps

theorem struct_subset_region : Memory.range stack sizeofMemStack ⊆ region stack capacity :=
  Set.Ico_subset_Ico le_rfl (Nat.le_add_right _ _)

theorem memStack_eq {m m' : Memory} (h : Set.EqOn m'.byte m.byte (region stack capacity)) :
    memStack m' stack = memStack m stack :=
  memStack_eq_of_eqOn (h.mono struct_subset_region)

/-- Setting the offset is setting it in both. -/
theorem setCurrentOffset_congr {m m' : Memory}
    (h : Set.EqOn m'.byte m.byte (region stack capacity)) (v : UInt64) :
    Set.EqOn (setCurrentOffset stack v m').byte (setCurrentOffset stack v m).byte
      (region stack capacity) := by
  rw [setCurrentOffset, setCurrentOffset, memStack_eq h]
  exact Memory.store_congr h _ _

/-- What a push writes depends on the struct only. -/
theorem pushMem_congr {m m' : Memory} (h : Set.EqOn m'.byte m.byte (region stack capacity))
    (size padding : UInt64) :
    Set.EqOn (pushMem stack size padding m').byte (pushMem stack size padding m).byte
      (region stack capacity) := by
  unfold pushMem
  rw [memStack_eq h]
  refine Memory.fill_congr ?_ _ _
  -- the header of the block is written between the two changes of the struct
  have hheader := Memory.store_congr (setCurrentOffset_congr h
    ((memStack m stack).currentOffset + padding))
    (((memStack m stack).basePosition + (memStack m stack).currentOffset + padding -
      UInt64.ofNat sizeofMemStackHeader).toNat) [padding.toUInt8]
  rw [memStack_eq hheader]
  exact setCurrentOffset_congr hheader _

/-- Where the length that was mapped does not wrap, what a push does depends on the struct only. -/
theorem stackPushAlign_ite {s : Proc} (hs : StackAt stack capacity s)
    (hcap : capacity.toNat + sizeofMemStack < 2 ^ 64) (size : UInt64) (a : Alignment) :
    ∃ padding, padding.toNat = a.padding ∧ stackPushAlign stack size a.value s =
      if capacity.toNat < pushEnd stack size a s % 2 ^ 64 then .ok (NULL, s)
      else if pushEnd stack size a s < 2 ^ 64 then
        .ok (stackBase stack + offset stack s + a.padding,
          s.withMem (pushMem stack size padding s.mem))
      else .error .fault := by
  obtain ⟨padding, hpad, hpush⟩ := stackPushAlign_eq stack size a s
  refine ⟨padding, hpad, ?_⟩
  obtain ⟨hgt, h⟩ | ⟨hle, hpassed⟩ := stackPushAlign_cases stack size a s
  · rw [hs.capacity_eq] at hgt
    rw [h, if_pos hgt]
  rw [hs.capacity_eq] at hle
  rw [if_neg (Nat.not_lt.mpr hle)]
  obtain ⟨hmapped, h⟩ | ⟨hmapped, padding', hpad', h⟩ := hpassed
  · rw [h, if_neg fun hlt => hmapped ((hs.pushMapped_iff hcap hle).mpr hlt)]
  · obtain rfl : padding' = padding := UInt64.toNat_inj.mp (hpad'.trans hpad.symm)
    rw [h, if_pos ((hs.pushMapped_iff hcap hle).mp hmapped), hs.pushNext_eq a]

/-- The result of a push; the other operations return nothing. -/
def result (stack : ℕ) (r : StackRun) : StackOp → Except Halt ℕ
  | .push size => (·.1) <$> stackPush stack size r.proc
  | .pushAlign size a => (·.1) <$> stackPushAlign stack size a.value r.proc
  | _ => .ok NULL

theorem SameOn.offset_eq (h : SameOn stack capacity r r') :
    offset stack r'.proc = offset stack r.proc := by
  rw [offset, memStack_eq h.eqOn, offset]

/-- What is known of a stack is known by its bytes and its mapping. -/
theorem SameOn.stackAt (h : SameOn stack capacity r r') (hs : StackAt stack capacity r.proc) :
    StackAt stack capacity r'.proc := by
  have heq := memStack_eq h.eqOn
  refine ⟨by rw [heq, hs.base_eq], by rw [heq, hs.capacity_eq],
    ⟨h.mem_maps_iff.mpr hs.owns.mem_maps, hs.owns.pageSize_le, hs.owns.hi_le⟩, ?_, ?_⟩
  · rw [h.offset_eq]
    exact hs.offset_le
  · rw [h.offset_eq]
    exact hs.offset_lt

theorem SameOn.grant (h : SameOn stack capacity r r') (hs : StackAt stack capacity r.proc)
    (hcap : capacity.toNat + sizeofMemStack < 2 ^ 64) (size : UInt64) (a : Alignment) :
    SameOn stack capacity (r.grant stack size (stackPushAlign stack size a.value r.proc))
        (r'.grant stack size (stackPushAlign stack size a.value r'.proc)) ∧
      (·.1) <$> stackPushAlign stack size a.value r'.proc =
        (·.1) <$> stackPushAlign stack size a.value r.proc := by
  obtain ⟨padding, hpadding, hpush⟩ := stackPushAlign_ite hs hcap size a
  obtain ⟨padding', hpadding', hpush'⟩ := stackPushAlign_ite (h.stackAt hs) hcap size a
  -- the padding depends on the alignment only
  obtain rfl : padding' = padding := UInt64.toNat_inj.mp (hpadding'.trans hpadding.symm)
  have hend : pushEnd stack size a r'.proc = pushEnd stack size a r.proc := by
    rw [pushEnd, h.offset_eq, pushEnd]
  rw [hend, h.offset_eq] at hpush'
  rw [hpush, hpush']
  by_cases hgt : capacity.toNat < pushEnd stack size a r.proc % 2 ^ 64
  · rw [if_pos hgt, if_pos hgt, StackRun.grant, StackRun.grant, if_pos rfl, if_pos rfl]
    exact ⟨h, rfl⟩
  rw [if_neg hgt, if_neg hgt]
  by_cases hlt : pushEnd stack size a r.proc < 2 ^ 64
  · rw [if_pos hlt, if_pos hlt, StackRun.grant, StackRun.grant, h.live_eq, h.offset_eq]
    refine ⟨⟨rfl, pushMem_congr h.eqOn _ _, h.mem_maps_iff⟩, ?_⟩
    exact congrArg Except.ok (Eq.refl (stackBase stack + offset stack r.proc + a.padding))
  · rw [if_neg hlt, if_neg hlt]
    exact ⟨h, rfl⟩

/-- What is known of a run is known by the bytes and the mapping of the stack. -/
theorem SameOn.inv (h : SameOn stack capacity r r') (hr : Inv stack capacity r) :
    Inv stack capacity r' := by
  have hoffset := hr.stackAt.offset_le
  refine ⟨h.stackAt hr.stackAt, fun b hb => ?_, ?_⟩
  · rw [h.live_eq] at hb
    refine (hr.intact b hb).of_eqOn (h.eqOn ?_)
    have hmem := hr.range_subset hb (hr.header_mem hb)
    rw [Set.mem_Ico] at hmem
    rw [region, Set.mem_Ico]
    simp only [stackBase] at *
    omega
  · obtain ⟨w, htop, hframes⟩ := hr.refines
    exact ⟨w, by rwa [h.offset_eq], by rw [hframes, h.live_eq]⟩

/-- A step looks at the bytes of the stack only. -/
theorem SameOn.step (h : SameOn stack capacity r r') (hr : Inv stack capacity r)
    (hcap : capacity.toNat + sizeofMemStack < 2 ^ 64) (op : StackOp) :
    SameOn stack capacity (r.step stack op) (r'.step stack op) ∧
      r'.result stack op = r.result stack op := by
  cases op with
  | push size => exact h.grant hr.stackAt hcap size .arena
  | pushAlign size a => exact h.grant hr.stackAt hcap size a
  | pop i =>
    refine ⟨?_, rfl⟩
    simp only [StackRun.step, h.live_eq]
    cases hi : r.live[i]? with
    | none => exact h
    | some b =>
      have hb := List.mem_of_getElem? hi
      have hb' : b ∈ r'.live := h.live_eq ▸ hb
      dsimp only
      -- whether the address passes depends on neither memory
      obtain ⟨hpass, hpop⟩ | ⟨hpass, hpop⟩ := hr.stackPop_cases hb
      · obtain ⟨-, hpop'⟩ | ⟨hnot, -⟩ := (h.inv hr).stackPop_cases hb'
        · rw [hpop, hpop']
          exact ⟨rfl, setCurrentOffset_congr h.eqOn _, h.mem_maps_iff⟩
        · exact absurd hpass hnot
      · obtain ⟨hnot, -⟩ | ⟨-, hpop'⟩ := (h.inv hr).stackPop_cases hb'
        · exact absurd hnot hpass
        · rw [hpop, hpop']
          exact ⟨rfl, h.eqOn, h.mem_maps_iff⟩
  | popAll => exact ⟨⟨rfl, setCurrentOffset_congr h.eqOn 0, h.mem_maps_iff⟩, rfl⟩
  | write i d bytes =>
    refine ⟨?_, rfl⟩
    simp only [StackRun.step, h.live_eq]
    cases r.live[i]? with
    | none => exact h
    | some b =>
      dsimp only
      split
      · exact ⟨rfl, Memory.store_congr h.eqOn _ _, h.mem_maps_iff⟩
      · exact h

/-- A write of the user does not move the offset. -/
theorem Inv.offset_write (hr : Inv stack capacity r) {b : StackBlock} {d : ℕ} {bytes : List UInt8}
    (hb : b ∈ r.live) (hlen : d + bytes.length ≤ b.size) :
    offset stack (r.proc.withMem (r.proc.mem.store (b.pointer + d) bytes)) =
      offset stack r.proc := by
  -- the struct is in front of the block
  have hstruct : Set.EqOn (r.proc.mem.store (b.pointer + d) bytes).byte r.proc.mem.byte
      (Memory.range stack sizeofMemStack) := by
    refine (write_eqOn r.proc.mem hlen).mono (Set.subset_compl_comm.mp ?_)
    exact (block_subset_range b).trans (hr.range_subset_compl hb)
  rw [offset, Proc.mem_withMem, memStack_eq_of_eqOn hstruct, offset]

/-- Away from the struct and what the stack hands out nothing is written. -/
theorem Inv.step_region (hr : Inv stack capacity r) (op : StackOp) :
    (r.step stack op).proc.maps = r.proc.maps ∧
      Set.EqOn (r.step stack op).proc.mem.byte r.proc.mem.byte (region stack capacity)ᶜ := by
  have hle : stack ≤ stackBase stack := Nat.le_add_right _ _
  have hoffset := hr.stackAt.offset_le
  have hset : ∀ v, Set.EqOn (setCurrentOffset stack v r.proc.mem).byte r.proc.mem.byte
      (region stack capacity)ᶜ := fun v =>
    (AgentResources.setCurrentOffset_eqOn stack v _).mono
      (Set.compl_subset_compl.mpr struct_subset_region)
  have hpush : ∀ (size : UInt64) (a : Alignment),
      (r.grant stack size (stackPushAlign stack size a.value r.proc)).proc.maps = r.proc.maps ∧
        Set.EqOn (r.grant stack size (stackPushAlign stack size a.value r.proc)).proc.mem.byte
          r.proc.mem.byte (region stack capacity)ᶜ := by
    intro size a
    obtain ⟨-, h⟩ | ⟨-, -, h⟩ | ⟨hend, -, p, s', h, -, hpushed⟩ := hr.stackAt.push_cases size a
    · rw [h]
      exact ⟨rfl, fun _ _ => rfl⟩
    · rw [h]
      exact ⟨rfl, fun _ _ => rfl⟩
    · -- the header byte and the block lie between the old offset and the new one
      have hp := hpushed.pointer_eq
      rw [pushEnd] at hend
      rw [h]
      refine ⟨hpushed.maps_eq, hpushed.eqOn.mono (Set.compl_subset_compl.mpr ?_)⟩
      exact Set.union_subset struct_subset_region (Set.Ico_subset_Ico (by omega) (by omega))
  cases op with
  | push size => exact hpush size .arena
  | pushAlign size a => exact hpush size a
  | pop i =>
    simp only [StackRun.step]
    cases hi : r.live[i]? with
    | none => exact ⟨rfl, fun _ _ => rfl⟩
    | some b =>
      dsimp only
      obtain ⟨-, hpop⟩ | ⟨-, hpop⟩ := hr.stackPop_cases (List.mem_of_getElem? hi)
      · rw [hpop]
        exact ⟨rfl, hset _⟩
      · rw [hpop]
        exact ⟨rfl, fun _ _ => rfl⟩
  | popAll => exact ⟨rfl, hset 0⟩
  | write i d bytes =>
    simp only [StackRun.step]
    cases hi : r.live[i]? with
    | none => exact ⟨rfl, fun _ _ => rfl⟩
    | some b =>
      dsimp only
      split
      · next hlen =>
        have hb := List.mem_of_getElem? hi
        -- a frame lies behind the struct and below the offset
        have hlo := (hr.intact b hb).base_le
        have hhi := hr.end_le hb
        refine ⟨rfl, (Memory.store_eqOn _ _ _).mono (Set.compl_subset_compl.mpr ?_)⟩
        exact Set.Ico_subset_Ico (by omega) (by omega)
      · exact ⟨rfl, fun _ _ => rfl⟩

end StackRun

end AgentResources
