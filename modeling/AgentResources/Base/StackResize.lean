import AgentResources.Base.StackRun

/-!
# Resizing a block of a stack

`stack_resize_align` pushes a new block, copies the old one to it and then returns the old one. In a
run with resizes, `StackRun.ResizeSpares` says for which blocks and sizes that does no harm: the
push is granted, and the new size ends before the next newer block begins. The frames of the blocks
go on refining `Nesting`, where such a resize is one of a frame.

The padding of a push or a resize is computed without a division by zero and fits the byte of the
header exactly for the alignments other than zero (`stackPadding_exact_iff`).
-/

namespace AgentResources

/-- An operation of a run with resizes. -/
inductive StackResizeOp
  /-- One of the other operations. -/
  | op (o : StackOp)
  /-- `stack_resize_align` of the `i`-th live block to `newSize` bytes. -/
  | resize (i : ℕ) (newSize : UInt64) (a : Alignment)

namespace StackRun

variable {stack : ℕ} {capacity : UInt64} {r : StackRun} {b : StackBlock} {i : ℕ}
  {newSize : UInt64} {a : Alignment}

/-- One step of a run with resizes. A block resized to nothing is released with every newer one, a
block that is returned takes the place of the old one. -/
def resizeStep (stack : ℕ) (r : StackRun) : StackResizeOp → StackRun
  | .op o => r.step stack o
  | .resize i newSize a =>
    match r.live[i]? with
    | none => r
    | some b =>
      match stackResizeAlign stack b.pointer (UInt64.ofNat b.size) newSize a.value r.proc with
      | .error _ => r
      | .ok (p, s) =>
        { proc := s
          live :=
            if newSize = 0 then r.live.drop (i + 1)
            else if p = NULL then r.live
            else r.live.set i { b with pointer := p, size := newSize.toNat } }

/-- What a resize of the `i`-th live block promises when it returns `p`. The other live blocks keep
their bytes. The null pointer leaves the struct and the block as they are, but for a block resized
to nothing, which is released. Any other pointer has `newSize` bytes below the offset, away from the
other blocks with their padding and headers, and they begin with the old contents. -/
def Resized (stack : ℕ) (capacity : UInt64) (r : StackRun) (i : ℕ) (b : StackBlock)
    (newSize : UInt64) (p : ℕ) (s' : Proc) : Prop :=
  (∀ c ∈ r.live.eraseIdx i, Set.EqOn s'.mem.byte r.proc.mem.byte c.range) ∧
  (p = NULL → Set.EqOn s'.mem.byte r.proc.mem.byte b.range ∧
    memStack s'.mem stack =
      if newSize = 0 then { memStack r.proc.mem stack with currentOffset := UInt64.ofNat b.before }
      else memStack r.proc.mem stack) ∧
  (p ≠ NULL → stackBase stack ≤ p ∧ p + newSize.toNat ≤ stackBase stack + offset stack s' ∧
    offset stack s' ≤ capacity.toNat ∧
    (∀ c ∈ r.live.eraseIdx i, Disjoint (Set.Ico p (p + newSize.toNat))
      (Set.Ico (c.frame stack).1 (c.frame stack).2)) ∧
    s'.mem.load p (min b.size newSize.toNat) =
      r.proc.mem.load b.pointer (min b.size newSize.toNat))

/-- A resize returns, with what it promises. -/
def ResizeContract (stack : ℕ) (capacity : UInt64) (r : StackRun) : StackResizeOp → Prop
  | .op _ => True
  | .resize i newSize a => ∀ b, r.live[i]? = some b →
    ∃ p s', stackResizeAlign stack b.pointer (UInt64.ofNat b.size) newSize a.value r.proc =
      .ok (p, s') ∧ Resized stack capacity r i b newSize p s'

/-- A resize passes its checks and gets to its push. -/
def ReachesPush (stack : ℕ) (capacity : UInt64) (r : StackRun) (b : StackBlock)
    (newSize : UInt64) : Prop :=
  newSize ≠ 0 ∧ b.pointer < (stackBase stack + capacity.toNat) % 2 ^ 64 ∧
    b.pointer < (stackBase stack + offset stack r.proc) % 2 ^ 64 ∧ newSize.toNat ≠ b.size

/-- There is mapped room for the push of a resize, and the bytes it copies are mapped. -/
def ResizeRoom (stack : ℕ) (capacity : UInt64) (r : StackRun) (b : StackBlock) (newSize : UInt64)
    (a : Alignment) : Prop :=
  pushEnd stack newSize a r.proc ≤ capacity.toNat ∧ PushMapped stack newSize a r.proc ∧
    r.proc.Mapped b.pointer (min b.size newSize.toNat)

/-- A resize to nothing is of a block that can be popped; a resize that gets to its push has mapped
room for it, and takes the block no further than to where the next newer block begins. -/
def ResizeSpares (stack : ℕ) (capacity : UInt64) (r : StackRun) : StackResizeOp → Prop
  | .op _ => True
  | .resize i newSize a => ∀ b, r.live[i]? = some b →
    (newSize = 0 → PopPasses stack capacity b.pointer) ∧
    (r.ReachesPush stack capacity b newSize → r.ResizeRoom stack capacity b newSize a ∧
      ∀ c ∈ r.live.take i, b.pointer + newSize.toNat ≤ stackBase stack + c.before)

namespace Inv

/-- The size of a live block is a word. -/
theorem size_lt (hr : Inv stack capacity r) (hb : b ∈ r.live) : b.size < 2 ^ 64 := by
  have hbase := (hr.intact b hb).base_le
  have hend := hr.end_le hb
  have hoffset : offset stack r.proc < 2 ^ 64 := UInt64.toNat_lt _
  omega

/-- What a resize of a live block does, in numbers. -/
theorem stackResizeAlign_eq (hr : Inv stack capacity r) (hb : b ∈ r.live)
    (newSize alignment : UInt64) :
    stackResizeAlign stack b.pointer (UInt64.ofNat b.size) newSize alignment r.proc =
      if newSize = 0 then .ok (NULL, stackPop stack b.pointer r.proc)
      else if ¬ (b.pointer < (stackBase stack + capacity.toNat) % 2 ^ 64 ∧
          b.pointer < (stackBase stack + offset stack r.proc) % 2 ^ 64) then .ok (NULL, r.proc)
      else if newSize.toNat = b.size then .ok (b.pointer, r.proc)
      else do
        let (newPointer, s) ← stackPushAlign stack newSize alignment r.proc
        if newPointer = NULL then .error (.undefined .nullPointer)
        let s ← s.memMove newPointer b.pointer (min b.size newSize.toNat)
        return (b.pointer, s) := by
  have hbase := hr.stackAt.base_eq
  have hcap := hr.stackAt.capacity_eq
  obtain ⟨pad, hlo, -, haddr, hlt, -⟩ := hr.intact b hb
  have hne : b.pointer ≠ NULL := by
    simp only [haddr, stackBase, sizeofMemStack, NULL]
    omega
  have hcurrent : (UInt64.ofNat b.pointer).toNat = b.pointer := UInt64.toNat_ofNat_of_lt' hlt
  have hsize : (UInt64.ofNat b.size).toNat = b.size := UInt64.toNat_ofNat_of_lt' (hr.size_lt hb)
  -- the four comparisons of the source, in numbers; both ends wrap
  have hstart : (memStack r.proc.mem stack).basePosition ≤ UInt64.ofNat b.pointer := by
    rw [UInt64.le_iff_toNat_le, hbase, hcurrent]
    omega
  have hend : UInt64.ofNat b.pointer <
      (memStack r.proc.mem stack).basePosition + (memStack r.proc.mem stack).capacity ↔
        b.pointer < (stackBase stack + capacity.toNat) % 2 ^ 64 := by
    rw [UInt64.lt_iff_toNat_lt, hcurrent, UInt64.toNat_add, hbase, hcap]
  have htop : UInt64.ofNat b.pointer ≥
      (memStack r.proc.mem stack).basePosition + (memStack r.proc.mem stack).currentOffset ↔
        ¬ b.pointer < (stackBase stack + offset stack r.proc) % 2 ^ 64 := by
    rw [ge_iff_le, UInt64.le_iff_toNat_le, hcurrent, UInt64.toNat_add, hbase, offset, Nat.not_lt]
  have hsame : UInt64.ofNat b.size = newSize ↔ newSize.toNat = b.size := by
    rw [← UInt64.toNat_inj, hsize, eq_comm]
  have hmin : (if UInt64.ofNat b.size < newSize then UInt64.ofNat b.size else newSize).toNat =
      min b.size newSize.toNat := by
    split
    · next h =>
      rw [UInt64.lt_iff_toNat_lt, hsize] at h
      rw [hsize, min_eq_left h.le]
    · next h =>
      rw [UInt64.lt_iff_toNat_lt, hsize, Nat.not_lt] at h
      rw [min_eq_right h]
  rw [stackResizeAlign, if_neg hne]
  -- the two bounds are two branches of the source with the same result
  by_cases hzero : newSize = 0
  · rw [if_pos hzero, if_pos hzero]
  rw [if_neg hzero, if_neg hzero]
  simp only [hstart, hend, htop, hsame, hmin, true_and]
  by_cases hin : b.pointer < (stackBase stack + capacity.toNat) % 2 ^ 64
  · by_cases hbelow : b.pointer < (stackBase stack + offset stack r.proc) % 2 ^ 64
    · rw [if_neg (not_not.mpr hin), if_neg (not_not.mpr hbelow),
        if_neg (not_not.mpr ⟨hin, hbelow⟩)]
    · rw [if_neg (not_not.mpr hin), if_pos hbelow, if_pos fun h => hbelow h.2]
  · rw [if_pos hin, if_pos fun h => hin h.1]

/-- Copying into a block that was pushed touches neither the struct nor a live block. -/
theorem push_copy (hr : Inv stack capacity r) {p : ℕ} {s' : Proc}
    (hpush : stackPushAlign stack newSize a.value r.proc = .ok (p, s'))
    (hpushed : Pushed stack capacity newSize a r.proc p s') {k : ℕ} (hk : k ≤ newSize.toNat)
    (src : ℕ) :
    StackAt stack capacity (s'.withMem (s'.mem.store p (s'.mem.load src k))) ∧
      offset stack (s'.withMem (s'.mem.store p (s'.mem.load src k))) =
        pushEnd stack newSize a r.proc ∧
      ∀ c ∈ r.live, Set.EqOn (s'.mem.store p (s'.mem.load src k)).byte r.proc.mem.byte c.range := by
  have hp := hpushed.pointer_eq
  have hcopy : Set.EqOn (s'.mem.store p (s'.mem.load src k)).byte s'.mem.byte
      (Set.Ico p (p + newSize.toNat))ᶜ := by
    refine (Memory.store_eqOn _ _ _).mono (Set.compl_subset_compl.mpr ?_)
    rw [Memory.length_load]
    exact Set.Ico_subset_Ico le_rfl (Nat.add_le_add_left hk p)
  have hstruct : Set.EqOn (s'.mem.store p (s'.mem.load src k)).byte s'.mem.byte
      (Memory.range stack sizeofMemStack) := by
    refine hcopy.mono fun x hx => ?_
    rw [Set.mem_Ico] at hx
    rw [Set.mem_compl_iff, Set.mem_Ico, hp, stackBase]
    omega
  refine ⟨hpushed.stackAt.of_eqOn rfl hstruct, ?_, fun c hc => ?_⟩
  · rw [offset, Proc.mem_withMem, memStack_eq_of_eqOn hstruct]
    exact hpushed.offset_eq
  · -- a live block ends below the offset, where the new one begins
    refine (hcopy.mono fun x hx => ?_).trans (hr.push_eqOn hpush hc)
    have hmem := hr.range_subset hc hx
    rw [Set.mem_Ico] at hmem
    rw [Set.mem_compl_iff, Set.mem_Ico, hp]
    omega

/-- What a resize that reaches its push returns: the old block, if there is mapped room for the new
one. -/
theorem stackResizeAlign_of_reaches (hr : Inv stack capacity r) (hb : b ∈ r.live)
    (hreach : r.ReachesPush stack capacity b newSize) :
    (¬ r.ResizeRoom stack capacity b newSize a ∧
      ∃ halt, stackResizeAlign stack b.pointer (UInt64.ofNat b.size) newSize a.value r.proc =
        .error halt) ∨
    (r.ResizeRoom stack capacity b newSize a ∧
      ∃ s', stackResizeAlign stack b.pointer (UInt64.ofNat b.size) newSize a.value r.proc =
        .ok (b.pointer, s') ∧
      StackAt stack capacity s' ∧ offset stack s' = pushEnd stack newSize a r.proc ∧
      ∀ c ∈ r.live, Set.EqOn s'.mem.byte r.proc.mem.byte c.range) := by
  obtain ⟨hzero, hin, hbelow, hsize⟩ := hreach
  have heq := hr.stackResizeAlign_eq hb newSize a.value
  rw [if_neg hzero, if_neg (not_not.mpr ⟨hin, hbelow⟩), if_neg hsize] at heq
  rw [heq]
  obtain ⟨hgt, hpush⟩ | ⟨-, hmapped, hpush⟩ | ⟨hle, hmapped, p, s', hpush, hne, hpushed⟩ :=
    hr.stackAt.push_cases newSize a
  · -- the push returns the null pointer, and the copy goes there
    refine .inl ⟨fun hroom => ?_, .undefined .nullPointer, ?_⟩
    · exact absurd (hgt.trans_le ((Nat.mod_le _ _).trans hroom.1)) (lt_irrefl _)
    · rw [hpush]
      rfl
  · refine .inl ⟨fun hroom => hmapped hroom.2.1, .fault, ?_⟩
    rw [hpush]
    rfl
  have hmin := min_le_right b.size newSize.toNat
  -- the new block is mapped, so the copy is a question of the old one
  have hnew : s'.Mapped p (min b.size newSize.toNat) := by
    have hblock := (Proc.mapped_congr hpushed.maps_eq).mpr hmapped.2
    rw [hr.stackAt.pushNext_eq a, ← hpushed.pointer_eq] at hblock
    exact hblock.mono le_rfl (Nat.add_le_add_left hmin p)
  rw [hpush, Except.ok_bind]
  dsimp only
  rw [if_neg hne]
  by_cases hold : s'.Mapped b.pointer (min b.size newSize.toNat)
  · refine .inr ⟨⟨hle, hmapped, (Proc.mapped_congr hpushed.maps_eq).mp hold⟩, _, ?_,
      hr.push_copy hpush hpushed hmin b.pointer⟩
    rw [Proc.memMove_of_mapped hold hnew]
    rfl
  · refine .inl ⟨fun hroom => hold ((Proc.mapped_congr hpushed.maps_eq).mpr hroom.2.2),
      .fault, ?_⟩
    rw [Proc.memMove_of_not_mapped hold]
    rfl

/-- A live block ends where the padding of a newer one begins, or earlier. -/
theorem end_le_of_mem_take (hr : Inv stack capacity r) (hi : r.live[i]? = some b) {c : StackBlock}
    (hc : c ∈ r.live.take i) : b.pointer + b.size ≤ stackBase stack + c.before := by
  obtain ⟨w, -, hframes⟩ := hr.refines
  have hb : w.frames[i]? = some (b.frame stack) := by
    rw [hframes, List.getElem?_map, hi, Option.map_some]
  refine w.le_of_mem_take (g := c.frame stack) hb ?_
  rw [hframes, ← List.map_take]
  exact List.mem_map_of_mem hc

/-- An older block ends where the padding of the block begins, or earlier. -/
theorem end_le_of_mem_drop (hr : Inv stack capacity r) (hi : r.live[i]? = some b) {c : StackBlock}
    (hc : c ∈ r.live.drop (i + 1)) : c.pointer + c.size ≤ stackBase stack + b.before := by
  obtain ⟨w, -, hframes⟩ := hr.refines
  have hb : w.frames[i]? = some (b.frame stack) := by
    rw [hframes, List.getElem?_map, hi, Option.map_some]
  refine w.le_of_mem_drop (g := c.frame stack) hb ?_
  rw [hframes, ← List.map_drop]
  exact List.mem_map_of_mem hc

/-- Bytes from the start of a live block on are in no other block iff they end before the next newer
one begins. -/
theorem disjoint_frames_iff (hr : Inv stack capacity r) (hi : r.live[i]? = some b) (n : ℕ) :
    (∀ c ∈ r.live.eraseIdx i, Disjoint (Set.Ico b.pointer (b.pointer + n))
        (Set.Ico (c.frame stack).1 (c.frame stack).2)) ↔
      ∀ c ∈ r.live.take i, b.pointer + n ≤ stackBase stack + c.before := by
  rw [List.eraseIdx_eq_take_drop_succ]
  constructor
  · intro hdisjoint c hc
    have hend := hr.end_le_of_mem_take hi hc
    have hheader := (hr.intact c (List.mem_of_mem_take hc)).base_le
    by_contra hlt
    -- the first byte of the newer frame is in both
    have hmem : stackBase stack + c.before ∈ Set.Ico b.pointer (b.pointer + n) := by
      rw [Set.mem_Ico]
      omega
    refine Set.disjoint_left.mp (hdisjoint c (List.mem_append_left _ hc)) hmem ?_
    rw [StackBlock.frame, Set.mem_Ico]
    simp only [sizeofMemStackHeader] at hheader
    dsimp only
    omega
  · intro hnewer c hc
    refine Set.disjoint_left.mpr fun x hx hx' => ?_
    rw [StackBlock.frame, Set.mem_Ico] at hx'
    rw [Set.mem_Ico] at hx
    dsimp only at hx'
    rcases List.mem_append.mp hc with hc | hc
    · have := hnewer c hc
      omega
    · have hbase := (hr.intact b (List.mem_of_getElem? hi)).base_le
      have := hr.end_le_of_mem_drop hi hc
      omega

/-- A step that returns the block where it was, and keeps the bytes of all blocks, is what a resize
promises iff the new size ends before the next newer block begins. -/
theorem resized_pointer_iff (hr : Inv stack capacity r) (hi : r.live[i]? = some b)
    {s' : Proc} (hat : StackAt stack capacity s')
    (hend : b.pointer + newSize.toNat ≤ stackBase stack + offset stack s')
    (hkept : ∀ c ∈ r.live, Set.EqOn s'.mem.byte r.proc.mem.byte c.range) :
    Resized stack capacity r i b newSize b.pointer s' ↔
      ∀ c ∈ r.live.take i, b.pointer + newSize.toNat ≤ stackBase stack + c.before := by
  have hb := List.mem_of_getElem? hi
  have hbase := (hr.intact b hb).base_le
  have hne : b.pointer ≠ NULL := by
    simp only [stackBase, sizeofMemStack, NULL] at *
    omega
  have hload : s'.mem.load b.pointer (min b.size newSize.toNat) =
      r.proc.mem.load b.pointer (min b.size newSize.toNat) := by
    refine Memory.load_eq_of_eqOn ((hkept b hb).mono (Set.Subset.trans ?_ (block_subset_range b)))
    exact Set.Ico_subset_Ico le_rfl (Nat.add_le_add_left (min_le_left _ _) _)
  rw [← hr.disjoint_frames_iff hi]
  constructor
  · rintro ⟨-, -, hresized⟩
    exact (hresized hne).2.2.2.1
  · intro hdisjoint
    refine ⟨fun c hc => hkept c (List.mem_of_mem_eraseIdx hc), fun h => absurd h hne, fun _ => ?_⟩
    exact ⟨by omega, hend, hat.offset_le, hdisjoint, hload⟩

/-- A resize to nothing keeps its promise iff the block can be popped. -/
theorem resized_zero_iff (hr : Inv stack capacity r) (hi : r.live[i]? = some b) :
    Resized stack capacity r i b 0 NULL (stackPop stack b.pointer r.proc) ↔
      PopPasses stack capacity b.pointer := by
  have hb := List.mem_of_getElem? hi
  obtain ⟨hpasses, hpop⟩ | ⟨hrefused, hpop⟩ := hr.stackPop_cases hb
  · refine iff_of_true ⟨fun c hc => ?_, fun _ => ⟨?_, ?_⟩, fun h => absurd rfl h⟩ hpasses
    · rw [hpop, Proc.mem_withMem]
      exact hr.setCurrentOffset_eqOn _ (List.mem_of_mem_eraseIdx hc)
    · rw [hpop, Proc.mem_withMem]
      exact hr.setCurrentOffset_eqOn _ hb
    · rw [if_pos rfl, hpop, Proc.mem_withMem, memStack_setCurrentOffset]
  · refine iff_of_false ?_ hrefused
    rintro ⟨-, hnull, -⟩
    obtain ⟨-, hstruct⟩ := hnull rfl
    rw [if_pos rfl, hpop] at hstruct
    -- the offset is above the one from before the push
    have hoffset : offset stack r.proc = b.before := by
      rw [offset, hstruct]
      exact hr.toNat_before hb
    have hbase := (hr.intact b hb).base_le
    have hend := hr.end_le hb
    simp only [sizeofMemStackHeader] at hbase
    omega

/-- A resize keeps its promise iff it spares the other blocks. -/
theorem resizeContract_iff (hr : Inv stack capacity r) (op : StackResizeOp) :
    r.ResizeContract stack capacity op ↔ r.ResizeSpares stack capacity op := by
  cases op with
  | op o => exact Iff.rfl
  | resize i newSize a =>
    refine forall_congr' fun b => forall_congr' fun hi => ?_
    have hb := List.mem_of_getElem? hi
    have heq := hr.stackResizeAlign_eq hb newSize a.value
    by_cases hzero : newSize = 0
    · -- a release: the promise is that the block can be popped
      rw [if_pos hzero] at heq
      subst hzero
      rw [heq, ← hr.resized_zero_iff hi]
      constructor
      · rintro ⟨p, s', hout, hresized⟩
        obtain ⟨rfl, rfl⟩ := Prod.mk.inj (Except.ok.inj hout)
        exact ⟨fun _ => hresized, fun hreach => absurd rfl hreach.1⟩
      · exact fun hspares => ⟨_, _, rfl, hspares.1 rfl⟩
    by_cases hin : b.pointer < (stackBase stack + capacity.toNat) % 2 ^ 64 ∧
        b.pointer < (stackBase stack + offset stack r.proc) % 2 ^ 64
    · by_cases hsize : newSize.toNat = b.size
      · -- the same size: nothing changes, and the promise is kept
        rw [if_neg hzero, if_neg (not_not.mpr hin), if_pos hsize] at heq
        have hresized : Resized stack capacity r i b newSize b.pointer r.proc := by
          refine (hr.resized_pointer_iff hi hr.stackAt ?_ fun _ _ _ _ => rfl).mpr
            fun c hc => ?_
          · rw [hsize]
            exact hr.end_le hb
          · rw [hsize]
            exact hr.end_le_of_mem_take hi hc
        exact iff_of_true ⟨_, _, heq, hresized⟩
          ⟨fun h => absurd h hzero, fun hreach => absurd hsize hreach.2.2.2⟩
      · have hreach : r.ReachesPush stack capacity b newSize := ⟨hzero, hin.1, hin.2, hsize⟩
        obtain ⟨hnone, halt, hout⟩ | ⟨hroom, s', hout, hat, hoffset, hkept⟩ :=
          hr.stackResizeAlign_of_reaches (a := a) hb hreach
        · -- the program stops, so nothing is returned
          rw [hout]
          exact iff_of_false (by rintro ⟨_, _, h, -⟩; cases h)
            fun hspares => hnone (hspares.2 hreach).1
        · -- the old block is returned as one of the new size
          have hend := hr.end_le hb
          have hbelow : b.pointer + newSize.toNat ≤ stackBase stack + offset stack s' := by
            rw [hoffset, pushEnd]
            omega
          have hiff := hr.resized_pointer_iff hi hat hbelow hkept
          rw [hout]
          constructor
          · rintro ⟨p, s'', hout', hresized⟩
            obtain ⟨rfl, rfl⟩ := Prod.mk.inj (Except.ok.inj hout')
            exact ⟨fun h => absurd h hzero, fun _ => ⟨hroom, hiff.mp hresized⟩⟩
          · exact fun hspares => ⟨_, _, rfl, hiff.mpr (hspares.2 hreach).2⟩
    · -- the pointer is turned away
      rw [if_neg hzero, if_pos hin] at heq
      have hresized : Resized stack capacity r i b newSize NULL r.proc := by
        refine ⟨fun _ _ _ _ => rfl, fun _ => ⟨fun _ _ => rfl, ?_⟩, fun h => absurd rfl h⟩
        rw [if_neg hzero]
      exact iff_of_true ⟨_, _, heq, hresized⟩
        ⟨fun h => absurd h hzero, fun hreach => absurd ⟨hreach.2.1, hreach.2.2.1⟩ hin⟩

/-- Moving the end of a live block below the offset, and not into a newer block, keeps the
invariant. -/
theorem setSize (hr : Inv stack capacity r) (hi : r.live[i]? = some b) {s' : Proc} {n : ℕ}
    (hat : StackAt stack capacity s') (hoffset : offset stack r.proc ≤ offset stack s')
    (hkept : ∀ c ∈ r.live, Set.EqOn s'.mem.byte r.proc.mem.byte c.range)
    (hend : b.pointer + n ≤ stackBase stack + offset stack s')
    (hnewer : ∀ c ∈ r.live.take i, b.pointer + n ≤ stackBase stack + c.before) :
    Inv stack capacity { proc := s', live := r.live.set i { b with size := n } } := by
  have hb := List.mem_of_getElem? hi
  have hintact : ∀ c ∈ r.live, Intact stack s' c := fun c hc =>
    (hr.intact c hc).of_eqOn (hkept c hc (hr.header_mem hc))
  refine ⟨hat, fun c hc => ?_, ?_⟩
  · rcases List.mem_or_eq_of_mem_set hc with hc | rfl
    · exact hintact c hc
    · exact hintact b hb
  · -- the frame of the block is resized in the nesting
    obtain ⟨w, htop, hframes⟩ := hr.refines
    have hframe : w.frames[i]? = some (b.frame stack) := by
      rw [hframes, List.getElem?_map, hi, Option.map_some]
    have hnewer' : ∀ g ∈ w.frames.take i, b.pointer + n ≤ g.1 := by
      rw [hframes, ← List.map_take, List.forall_mem_map]
      exact hnewer
    refine ⟨w.resize i hframe (htop.trans (Nat.add_le_add_left hoffset _)) hend hnewer', le_rfl, ?_⟩
    rw [Nesting.frames_resize, hframes, List.map_set]
    rfl

/-- A step of a run with resizes keeps the invariant, if the resize spares the other blocks. -/
theorem resizeStep (hr : Inv stack capacity r) {op : StackResizeOp}
    (hspares : r.ResizeSpares stack capacity op) :
    Inv stack capacity (r.resizeStep stack op) := by
  cases op with
  | op o => exact hr.step o
  | resize i newSize a =>
    cases hi : r.live[i]? with
    | none => simpa only [StackRun.resizeStep, hi] using hr
    | some b =>
      have hb := List.mem_of_getElem? hi
      have heq := hr.stackResizeAlign_eq hb newSize a.value
      simp only [StackRun.resizeStep, hi]
      by_cases hzero : newSize = 0
      · -- a resize to nothing is a pop
        rw [if_pos hzero] at heq
        rw [heq]
        dsimp only
        rw [if_pos hzero]
        exact hr.pop hi
      by_cases hin : b.pointer < (stackBase stack + capacity.toNat) % 2 ^ 64 ∧
          b.pointer < (stackBase stack + offset stack r.proc) % 2 ^ 64
      · have hbase := (hr.intact b hb).base_le
        have hne : b.pointer ≠ NULL := by
          simp only [stackBase, sizeofMemStack, NULL] at *
          omega
        by_cases hsize : newSize.toNat = b.size
        · -- the block is returned as it is
          rw [if_neg hzero, if_neg (not_not.mpr hin), if_pos hsize] at heq
          rw [heq]
          dsimp only
          rw [if_neg hzero, if_neg hne]
          refine hr.setSize hi hr.stackAt le_rfl (fun _ _ _ _ => rfl) ?_ fun c hc => ?_
          · rw [hsize]
            exact hr.end_le hb
          · rw [hsize]
            exact hr.end_le_of_mem_take hi hc
        · -- a push follows, which the hypotheses have room for
          have hreach : r.ReachesPush stack capacity b newSize := ⟨hzero, hin.1, hin.2, hsize⟩
          obtain ⟨hroom, hnewer⟩ := (hspares b hi).2 hreach
          obtain ⟨hnone, -⟩ | ⟨-, s', hout, hat, hoffset, hkept⟩ :=
            hr.stackResizeAlign_of_reaches (a := a) hb hreach
          · exact absurd hroom hnone
          · have hend := hr.end_le hb
            rw [hout]
            dsimp only
            rw [if_neg hzero, if_neg hne]
            refine hr.setSize hi hat ?_ hkept ?_ hnewer
            · rw [hoffset, pushEnd, Nat.add_assoc]
              exact Nat.le_add_right _ _
            · rw [hoffset, pushEnd]
              omega
      · -- turned away: the state is as it was
        rw [if_neg hzero, if_pos hin] at heq
        rw [heq]
        dsimp only
        rw [if_neg hzero, if_pos rfl]
        exact hr

end Inv

end StackRun

section Padding

variable (stack pointer : ℕ) (size oldSize newSize alignment : UInt64) (s : Proc)

/-- A push ends with a padding at hand, and the byte it writes to the header is that padding. -/
def PaddingExact : Prop :=
  ∃ padding, stackPushAlign stack size alignment s = pushPadded stack size padding s ∧
    padding.toUInt8.toNat = padding.toNat

/-- A resize gets to its push. -/
def ResizePushes : Prop :=
  let st := memStack s.mem stack
  pointer = NULL ∨ newSize ≠ 0 ∧
    (st.basePosition ≤ UInt64.ofNat pointer ∧
      UInt64.ofNat pointer < st.basePosition + st.capacity) ∧
    UInt64.ofNat pointer < st.basePosition + st.currentOffset ∧ oldSize ≠ newSize

instance : Decidable (ResizePushes stack pointer oldSize newSize s) :=
  inferInstanceAs (Decidable (_ ∨ _))

variable {alignment}

/-- A push writes the padding it uses to the header iff the alignment is not zero. -/
theorem paddingExact_iff (hpow : isPow alignment) :
    PaddingExact stack size alignment s ↔ alignment ≠ 0 := by
  constructor
  · rintro ⟨padding, hpush, -⟩ rfl
    rw [stackPushAlign_zero] at hpush
    exact pushPadded_ne_divisionByZero _ _ _ _ hpush.symm
  · intro hne
    obtain ⟨a, rfl⟩ := exists_alignment hpow hne
    obtain ⟨padding, hpad, hpush⟩ := stackPushAlign_eq stack size a s
    refine ⟨padding, hpush, ?_⟩
    have hle := a.padding_le
    rw [UInt64.toNat_toUInt8, hpad, Nat.mod_eq_of_lt (by omega)]

/-- A resize is the push, with a copy if there is an old block. -/
theorem stackResizeAlign_of_pushes (alignment : UInt64)
    (h : ResizePushes stack pointer oldSize newSize s) :
    ∃ f : ℕ × Proc → Except Halt (ℕ × Proc), (∀ out, f out ≠ .error (.undefined .divisionByZero)) ∧
      stackResizeAlign stack pointer oldSize newSize alignment s =
        stackPushAlign stack newSize alignment s >>= f := by
  rw [stackResizeAlign]
  by_cases hnull : pointer = NULL
  · refine ⟨.ok, fun _ => nofun, ?_⟩
    rw [if_pos hnull]
    exact (bind_pure _).symm
  · obtain ⟨hzero, hin, hbelow, hsize⟩ := h.resolve_left hnull
    dsimp only
    rw [if_neg hnull, if_neg hzero, if_neg (not_not.mpr hin), if_neg (UInt64.not_le.mpr hbelow),
      if_neg hsize]
    refine ⟨_, fun out => ?_, rfl⟩
    obtain ⟨newPointer, s'⟩ := out
    dsimp only
    split
    · nofun
    · intro hout
      rcases Except.bind_eq_error.mp hout with hcopy | ⟨_, -, hret⟩
      · cases Proc.memMove_eq_error hcopy
      · cases hret

/-- A resize that does not get to its push returns. -/
theorem stackResizeAlign_of_not_pushes (alignment : UInt64)
    (h : ¬ ResizePushes stack pointer oldSize newSize s) :
    ∃ out, stackResizeAlign stack pointer oldSize newSize alignment s = .ok out := by
  obtain ⟨hnull, hrest⟩ := not_or.mp h
  rw [stackResizeAlign, if_neg hnull]
  dsimp only
  split
  · exact ⟨_, rfl⟩
  next hzero =>
  split
  · exact ⟨_, rfl⟩
  next hin =>
  split
  · exact ⟨_, rfl⟩
  next hbelow =>
  split
  · exact ⟨_, rfl⟩
  next hsize =>
  exact absurd ⟨hzero, not_not.mp hin, UInt64.not_le.mp hbelow, hsize⟩ hrest

/-- A push divides by no zero and its header holds the padding iff the alignment is not zero; a
resize, iff the alignment is not zero or it stops before its push. -/
theorem stackPadding_exact_iff (hpow : isPow alignment) :
    (PaddingExact stack size alignment s ↔ alignment ≠ 0) ∧
    (stackResizeAlign stack pointer oldSize newSize alignment s ≠
          .error (.undefined .divisionByZero) ∧
        (ResizePushes stack pointer oldSize newSize s → PaddingExact stack newSize alignment s) ↔
      (ResizePushes stack pointer oldSize newSize s → alignment ≠ 0)) := by
  refine ⟨paddingExact_iff stack size s hpow, ?_⟩
  by_cases hpushes : ResizePushes stack pointer oldSize newSize s
  · obtain ⟨f, hf, heq⟩ := stackResizeAlign_of_pushes _ _ _ _ _ alignment hpushes
    simp only [hpushes, true_implies, paddingExact_iff stack newSize s hpow]
    refine and_iff_right_of_imp fun hne => ?_
    obtain ⟨padding, hpush, -⟩ := (paddingExact_iff stack newSize s hpow).mpr hne
    rw [heq, hpush]
    intro hout
    rcases Except.bind_eq_error.mp hout with hpadded | ⟨out, -, hcopy⟩
    · exact pushPadded_ne_divisionByZero _ _ _ _ hpadded
    · exact hf out hcopy
  · obtain ⟨out, hout⟩ := stackResizeAlign_of_not_pushes _ _ _ _ _ alignment hpushes
    rw [hout]
    exact iff_of_true ⟨nofun, fun h => absurd h hpushes⟩ fun h => absurd h hpushes

theorem stackPadding_exact_iff_arena :
    (PaddingExact 4096 8 ARENA_ALIGN (stackCreate Kernel.above 64 Proc.fresh).2 ↔
      ARENA_ALIGN ≠ 0) ∧
    (stackResizeAlign 4096 NULL 0 8 ARENA_ALIGN (stackCreate Kernel.above 64 Proc.fresh).2 ≠
          .error (.undefined .divisionByZero) ∧
        (ResizePushes 4096 NULL 0 8 (stackCreate Kernel.above 64 Proc.fresh).2 →
          PaddingExact 4096 8 ARENA_ALIGN (stackCreate Kernel.above 64 Proc.fresh).2) ↔
      (ResizePushes 4096 NULL 0 8 (stackCreate Kernel.above 64 Proc.fresh).2 →
        ARENA_ALIGN ≠ 0)) :=
  stackPadding_exact_iff 4096 NULL 8 0 8 (stackCreate Kernel.above 64 Proc.fresh).2
    Alignment.arena.isPow_value

/-- A push to the alignment zero divides by it. -/
theorem not_stackPadding_exact :
    ¬ ∀ (stack pointer : ℕ) (size oldSize newSize alignment : UInt64) (s : Proc),
      isPow alignment →
        PaddingExact stack size alignment s ∧
          stackResizeAlign stack pointer oldSize newSize alignment s ≠
            .error (.undefined .divisionByZero) ∧
          (ResizePushes stack pointer oldSize newSize s →
            PaddingExact stack newSize alignment s) := by
  intro hall
  obtain ⟨⟨padding, hpush, -⟩, -⟩ :=
    hall 4096 NULL 8 0 8 0 (stackCreate Kernel.above 64 Proc.fresh).2 (by decide)
  rw [stackPushAlign_zero] at hpush
  exact pushPadded_ne_divisionByZero _ _ _ _ hpush.symm

end Padding

end AgentResources
