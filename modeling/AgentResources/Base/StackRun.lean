import AgentResources.Base.Stack
import AgentResources.Foundations.Nesting
import AgentResources.Foundations.Run

/-!
# Runs of a stack

A run starts with `stackCreate` and goes on with pushes, pops and writes of the user into live
blocks. A run keeps, as ghost state, the blocks that are live, and for each the offset from right
before it was pushed. A pop releases a block and every newer one.

What a pop needs to go back is one byte in front of the block, inside the memory the stack hands
out. `Inv` says that this byte is intact for every live block; the blocks with their headers refine
the abstract stack of frames `Nesting`, which keeps them apart. The sum a push checks may wrap, but
then the push clears addresses that are not mapped and does not return. So every push that returns
keeps the invariant.

## Main definitions

* `StackOp`, `StackBlock`, `StackRun.step`: the operations, a pushed block and the step of a run;
* `StackRun.Inv`: the invariant of runs;
* `StackRun.BoundedStep`, `StackRun.SafeStep`, `StackRun.UndoStep`, `StackRun.AlignedPush`: what a
  user relies on.

## Main results

* `stackRun_bounded`: blocks stay inside the stack along every run;
* `stackRun_undo`: along well-nested runs a pop restores the offset and spares older blocks;
* `stackRun_aligned_iff`: a block is aligned iff the address it was pushed at was.
-/

namespace AgentResources

/-- An operation on a stack, or a write of the user into a live block. -/
inductive StackOp
  /-- `stack_push` of `size` bytes. -/
  | push (size : UInt64)
  /-- `stack_push_align` of `size` bytes. -/
  | pushAlign (size : UInt64) (a : Alignment)
  /-- `stack_pop` of the `i`-th live block. -/
  | pop (i : ℕ)
  /-- `stack_pop_all` -/
  | popAll
  /-- The user writes `bytes` at `offset` into the `i`-th live block. -/
  | write (i offset : ℕ) (bytes : List UInt8)

/-- The size and the alignment an operation asks for. -/
def StackOp.request : StackOp → Option (UInt64 × Alignment)
  | .push size => some (size, .arena)
  | .pushAlign size a => some (size, a)
  | _ => none

/-- A block that was pushed. -/
structure StackBlock where
  /-- The offset of the stack right before the push. -/
  before : ℕ
  /-- The address of the block. -/
  pointer : ℕ
  /-- The size that was asked for. -/
  size : ℕ
  deriving DecidableEq

/-- The addresses of a block and its header. -/
def StackBlock.range (b : StackBlock) : Set ℕ :=
  Set.Ico (b.pointer - sizeofMemStackHeader) (b.pointer + b.size)

/-- The frame of a block: its padding, with the header, and the block. -/
def StackBlock.frame (stack : ℕ) (b : StackBlock) : ℕ × ℕ :=
  (stackBase stack + b.before, b.pointer + b.size)

/-- The state of a run. -/
structure StackRun where
  /-- The process. -/
  proc : Proc
  /-- The live blocks, newest first. -/
  live : List StackBlock

namespace StackRun

variable {stack : ℕ} {capacity : UInt64} {r : StackRun} {op : StackOp} {b : StackBlock}

/-- The state right after `stackCreate`. -/
def start (k : Kernel) (capacity : UInt64) (s : Proc) : StackRun where
  proc := (stackCreate k capacity s).2
  live := []

/-- Continue after a push of `size` bytes. A push that does not return leaves the run where it
is. -/
def grant (stack : ℕ) (r : StackRun) (size : UInt64) : Except Halt (ℕ × Proc) → StackRun
  | .error _ => r
  | .ok (p, s) =>
    { proc := s
      live := if p = NULL then r.live else ⟨offset stack r.proc, p, size.toNat⟩ :: r.live }

/-- One step of a run. A pop of a block that is not there and a write that is not inside a live
block are no operations at all. -/
def step (stack : ℕ) (r : StackRun) : StackOp → StackRun
  | .push size => r.grant stack size (stackPush stack size r.proc)
  | .pushAlign size a => r.grant stack size (stackPushAlign stack size a.value r.proc)
  | .pop i =>
    match r.live[i]? with
    | none => r
    | some b => { proc := stackPop stack b.pointer r.proc, live := r.live.drop (i + 1) }
  | .popAll => { proc := stackPopAll stack r.proc, live := [] }
  | .write i offset bytes =>
    match r.live[i]? with
    | none => r
    | some b =>
      if offset + bytes.length ≤ b.size then
        { r with proc := r.proc.withMem (r.proc.mem.store (b.pointer + offset) bytes) }
      else r

/-- A block whose header still says how long its padding is. -/
def Intact (stack : ℕ) (s : Proc) (b : StackBlock) : Prop :=
  ∃ pad, sizeofMemStackHeader ≤ pad ∧ pad ≤ 128 ∧ b.pointer = stackBase stack + b.before + pad ∧
    b.pointer < 2 ^ 64 ∧ s.mem.byte (b.pointer - sizeofMemStackHeader) = UInt8.ofNat pad

/-- A run is in the abstract state `w`: the frames are those of the live blocks, and they are below
the offset. -/
def Refines (stack : ℕ) (r : StackRun) (w : Nesting ℕ) : Prop :=
  w.top ≤ stackBase stack + offset stack r.proc ∧ w.frames = r.live.map (·.frame stack)

/-- What a run keeps: the struct and the headers of live blocks are intact, and the blocks are
nested. -/
structure Inv (stack : ℕ) (capacity : UInt64) (r : StackRun) : Prop where
  stackAt : StackAt stack capacity r.proc
  intact : ∀ b ∈ r.live, Intact stack r.proc b
  refines : ∃ w, Refines stack r w

/-- Both kinds of push are one to an alignment. -/
theorem step_of_request {size : UInt64} {a : Alignment} (h : op.request = some (size, a)) :
    r.step stack op = r.grant stack size (stackPushAlign stack size a.value r.proc) := by
  cases op with
  | push size' =>
    obtain ⟨rfl, rfl⟩ : size' = size ∧ Alignment.arena = a := by
      simpa [StackOp.request] using h
    rfl
  | pushAlign size' a' =>
    obtain ⟨rfl, rfl⟩ : size' = size ∧ a' = a := by simpa [StackOp.request] using h
    rfl
  | _ => simp [StackOp.request] at h

/-! ## The invariant -/

/-- A header survives what leaves its byte alone. -/
theorem Intact.of_eqOn {s s' : Proc} (h : Intact stack s b)
    (heq : s'.mem.byte (b.pointer - sizeofMemStackHeader) =
      s.mem.byte (b.pointer - sizeofMemStackHeader)) : Intact stack s' b := by
  obtain ⟨pad, hlo, hhi, haddr, hlt, hbyte⟩ := h
  exact ⟨pad, hlo, hhi, haddr, hlt, heq.trans hbyte⟩

/-- The header of a block lies in its frame. -/
theorem Intact.base_le {s : Proc} (h : Intact stack s b) :
    stackBase stack + b.before + sizeofMemStackHeader ≤ b.pointer := by
  obtain ⟨pad, hlo, -, haddr, -⟩ := h
  omega

theorem Intact.range_subset {s : Proc} (h : Intact stack s b) :
    b.range ⊆ Set.Ico (b.frame stack).1 (b.frame stack).2 := by
  have hbase := h.base_le
  refine Set.Ico_subset_Ico ?_ le_rfl
  rw [StackBlock.frame]
  dsimp only
  omega

namespace Inv

/-- A live block ends below the offset. -/
theorem end_le (hr : Inv stack capacity r) (hb : b ∈ r.live) :
    b.pointer + b.size ≤ stackBase stack + offset stack r.proc := by
  obtain ⟨w, htop, hframes⟩ := hr.refines
  refine (w.le_top (b.frame stack) ?_).trans htop
  rw [hframes]
  exact List.mem_map_of_mem hb

/-- The frames of live blocks are pairwise disjoint. -/
theorem pairwise_frame (hr : Inv stack capacity r) :
    r.live.Pairwise fun b c => Disjoint (Set.Ico (b.frame stack).1 (b.frame stack).2)
      (Set.Ico (c.frame stack).1 (c.frame stack).2) := by
  obtain ⟨w, -, hframes⟩ := hr.refines
  have hdisjoint := w.pairwise_disjoint
  rwa [hframes, List.pairwise_map] at hdisjoint

/-- Live blocks with their headers are pairwise disjoint. -/
theorem pairwise_range (hr : Inv stack capacity r) :
    r.live.Pairwise fun b c => Disjoint b.range c.range := by
  refine hr.pairwise_frame.imp_of_mem fun {b c} hb hc hdisjoint => ?_
  exact hdisjoint.mono (hr.intact b hb).range_subset (hr.intact c hc).range_subset

/-- Two different live blocks are disjoint. -/
theorem disjoint_of_ne (hr : Inv stack capacity r) {c : StackBlock} (hb : b ∈ r.live)
    (hc : c ∈ r.live) (hne : b ≠ c) : Disjoint b.range c.range := by
  have hsymm : Std.Symm fun b c : StackBlock => Disjoint b.range c.range :=
    ⟨fun _ _ h => h.symm⟩
  exact hr.pairwise_range.forall hb hc hne

/-- A live block lies after the struct and below the offset. -/
theorem range_subset (hr : Inv stack capacity r) (hb : b ∈ r.live) :
    b.range ⊆ Set.Ico (stackBase stack) (stackBase stack + offset stack r.proc) := by
  have hbase := (hr.intact b hb).base_le
  have hend := hr.end_le hb
  exact Set.Ico_subset_Ico (by omega) hend

/-- The bytes of a live block are not those of the struct. -/
theorem range_subset_compl (hr : Inv stack capacity r) (hb : b ∈ r.live) :
    b.range ⊆ (Memory.range stack sizeofMemStack)ᶜ := by
  intro x hx
  have hmem := hr.range_subset hb hx
  rw [Set.mem_Ico, stackBase] at hmem
  rw [Set.mem_compl_iff, Set.mem_Ico]
  omega

/-- The address of the header is one of the block's own. -/
theorem header_mem (hr : Inv stack capacity r) (hb : b ∈ r.live) :
    b.pointer - sizeofMemStackHeader ∈ b.range := by
  have hbase := (hr.intact b hb).base_le
  rw [StackBlock.range, Set.mem_Ico]
  simp only [sizeofMemStackHeader] at *
  omega

/-- A push of the user writes to the struct and above the offset, so live blocks are kept. -/
theorem push_eqOn (hr : Inv stack capacity r) {size : UInt64} {a : Alignment} {p : ℕ} {s' : Proc}
    (hpush : stackPushAlign stack size a.value r.proc = .ok (p, s')) (hb : b ∈ r.live) :
    Set.EqOn s'.mem.byte r.proc.mem.byte b.range := by
  obtain ⟨-, h⟩ | ⟨-, -, h⟩ | ⟨-, -, p', s'', h, -, hpushed⟩ := hr.stackAt.push_cases size a
  · rw [h, Except.ok.injEq, Prod.mk.injEq] at hpush
    rw [← hpush.2]
    exact fun _ _ => rfl
  · rw [h] at hpush
    cases hpush
  · rw [h, Except.ok.injEq, Prod.mk.injEq] at hpush
    obtain ⟨rfl, rfl⟩ := hpush
    -- the struct is before the block, and what the push writes is behind it
    refine hpushed.eqOn.mono ?_
    rw [Set.compl_union]
    refine Set.subset_inter (hr.range_subset_compl hb) fun x hx => ?_
    have hmem := hr.range_subset hb hx
    rw [Set.mem_Ico] at hmem
    rw [Set.mem_compl_iff, Set.mem_Ico]
    omega

/-- A push keeps the invariant. -/
theorem grant (hr : Inv stack capacity r) (size : UInt64) (a : Alignment) :
    Inv stack capacity
      (r.grant stack size (stackPushAlign stack size a.value r.proc)) := by
  obtain ⟨-, h⟩ | ⟨-, -, h⟩ | ⟨-, -, p, s', h, hne, hpushed⟩ := hr.stackAt.push_cases size a
  · rw [h, StackRun.grant, if_pos rfl]
    exact hr
  · rw [h]
    exact hr
  -- the push writes above the offset, so the blocks and their headers stay
  have hkeep := fun b hb => hr.push_eqOn (b := b) h hb
  have hlt := hpushed.stackAt.offset_lt
  have hp := hpushed.pointer_eq
  have hoffset := hpushed.offset_eq
  rw [h, StackRun.grant, if_neg hne]
  refine ⟨hpushed.stackAt, ?_, ?_⟩
  · rw [List.forall_mem_cons]
    refine ⟨⟨a.padding, a.sizeofMemStackHeader_le_padding, a.padding_le, hp, ?_,
      hpushed.header_eq⟩, ?_⟩
    · rw [hoffset, pushEnd] at hlt
      dsimp only
      omega
    · exact fun b hb => (hr.intact b hb).of_eqOn (hkeep b hb (hr.header_mem hb))
  · -- and the new frame goes on top of the nesting
    obtain ⟨w, htop, hframes⟩ := hr.refines
    refine ⟨w.push (stackBase stack + offset stack r.proc) (p + size.toNat) htop (by omega),
      ?_, ?_⟩
    · rw [Nesting.top_push, hoffset, pushEnd, hp]
      omega
    · rw [Nesting.frames_push, hframes]
      rfl

/-- A pop of a live block moves the offset back to where the block's padding begins, if its address
passes the comparisons. -/
theorem stackPop_cases (hr : Inv stack capacity r) (hb : b ∈ r.live) :
    (PopPasses stack capacity b.pointer ∧ stackPop stack b.pointer r.proc =
        r.proc.withMem (setCurrentOffset stack (UInt64.ofNat b.before) r.proc.mem)) ∨
    (¬ PopPasses stack capacity b.pointer ∧ stackPop stack b.pointer r.proc = r.proc) := by
  obtain ⟨pad, -, hhi, haddr, hlt, hbyte⟩ := hr.intact b hb
  rw [haddr] at hlt hbyte ⊢
  exact hr.stackAt.pop_cases hhi hlt hbyte

/-- The offset from before a live block was pushed is below the present one. -/
theorem before_le (hr : Inv stack capacity r) (hb : b ∈ r.live) :
    b.before ≤ offset stack r.proc := by
  have hbase := (hr.intact b hb).base_le
  have hend := hr.end_le hb
  omega

theorem toNat_before (hr : Inv stack capacity r) (hb : b ∈ r.live) :
    (UInt64.ofNat b.before).toNat = b.before := by
  have hle := hr.before_le hb
  have hlt : offset stack r.proc < 2 ^ 64 := UInt64.toNat_lt _
  rw [UInt64.toNat_ofNat', Nat.mod_eq_of_lt (by omega)]

/-- Moving the offset leaves live blocks alone. -/
theorem setCurrentOffset_eqOn (hr : Inv stack capacity r) (v : UInt64) (hb : b ∈ r.live) :
    Set.EqOn (setCurrentOffset stack v r.proc.mem).byte r.proc.mem.byte b.range :=
  (AgentResources.setCurrentOffset_eqOn stack v _).mono (hr.range_subset_compl hb)

/-- A pop of a live block keeps the invariant. -/
theorem pop (hr : Inv stack capacity r) {i : ℕ} (hi : r.live[i]? = some b) :
    Inv stack capacity
      { proc := stackPop stack b.pointer r.proc, live := r.live.drop (i + 1) } := by
  have hb : b ∈ r.live := List.mem_of_getElem? hi
  obtain ⟨w, htop, hframes⟩ := hr.refines
  have hframe : w.frames[i]? = some (b.frame stack) := by
    rw [hframes, List.getElem?_map, hi, Option.map_some]
  have hdrop : (w.release i hframe).frames = (r.live.drop (i + 1)).map (·.frame stack) := by
    rw [Nesting.frames_release, hframes, List.map_drop]
  have hmem : ∀ c ∈ r.live.drop (i + 1), c ∈ r.live := fun c hc => List.mem_of_mem_drop hc
  have hbefore := hr.before_le hb
  -- whether the address passes or not, the block and the newer ones are given up
  obtain ⟨-, h⟩ | ⟨-, h⟩ := hr.stackPop_cases hb
  · rw [h]
    refine ⟨hr.stackAt.setCurrent_of_le ?_, fun c hc => ?_, w.release i hframe, ?_, hdrop⟩
    · rw [hr.toNat_before hb]
      exact hbefore
    · exact (hr.intact c (hmem c hc)).of_eqOn
        (hr.setCurrentOffset_eqOn _ (hmem c hc) (hr.header_mem (hmem c hc)))
    · rw [Nesting.top_release, offset_setCurrentOffset, hr.toNat_before hb]
      exact le_rfl
  · rw [h]
    refine ⟨hr.stackAt, fun c hc => hr.intact c (hmem c hc), w.release i hframe, ?_, hdrop⟩
    rw [Nesting.top_release]
    exact Nat.add_le_add_left hbefore _

/-- The bytes a user may write are those of the block. -/
theorem write_eqOn {d : ℕ} {bytes : List UInt8} (m : Memory)
    (hlen : d + bytes.length ≤ b.size) :
    Set.EqOn (m.store (b.pointer + d) bytes).byte m.byte
      (Set.Ico b.pointer (b.pointer + b.size))ᶜ := by
  refine (Memory.store_eqOn _ _ _).mono (Set.compl_subset_compl.mpr ?_)
  exact Set.Ico_subset_Ico (by omega) (by omega)

theorem block_subset_range (b : StackBlock) :
    Set.Ico b.pointer (b.pointer + b.size) ⊆ b.range :=
  Set.Ico_subset_Ico (Nat.sub_le _ _) le_rfl

/-- A write inside a live block leaves every other block alone. -/
theorem write_eqOn_of_ne (hr : Inv stack capacity r) {c : StackBlock} {d : ℕ}
    {bytes : List UInt8} (hb : b ∈ r.live) (hc : c ∈ r.live) (hne : b ≠ c)
    (hlen : d + bytes.length ≤ b.size) :
    Set.EqOn (r.proc.mem.store (b.pointer + d) bytes).byte r.proc.mem.byte c.range := by
  refine (write_eqOn r.proc.mem hlen).mono (Set.subset_compl_comm.mp ?_)
  refine (block_subset_range b).trans ?_
  exact Set.subset_compl_iff_disjoint_right.mpr (hr.disjoint_of_ne hb hc hne)

/-- A write inside a live block keeps the invariant. -/
theorem write (hr : Inv stack capacity r) {d : ℕ} {bytes : List UInt8} (hb : b ∈ r.live)
    (hlen : d + bytes.length ≤ b.size) :
    Inv stack capacity
      { r with proc := r.proc.withMem (r.proc.mem.store (b.pointer + d) bytes) } := by
  have hstruct : Set.EqOn (r.proc.mem.store (b.pointer + d) bytes).byte r.proc.mem.byte
      (Memory.range stack sizeofMemStack) := by
    refine (write_eqOn r.proc.mem hlen).mono (Set.subset_compl_comm.mp ?_)
    exact (block_subset_range b).trans (hr.range_subset_compl hb)
  refine ⟨hr.stackAt.of_eqOn rfl hstruct, fun c hc => (hr.intact c hc).of_eqOn ?_, ?_⟩
  · rw [Proc.mem_withMem]
    by_cases hne : b = c
    · -- its own header ends where the block begins
      subst hne
      have hheader := (hr.intact b hb).base_le
      refine write_eqOn r.proc.mem hlen ?_
      rw [Set.mem_compl_iff, Set.mem_Ico]
      simp only [sizeofMemStackHeader] at *
      omega
    · exact hr.write_eqOn_of_ne hb hc hne hlen (hr.header_mem hc)
  · obtain ⟨w, htop, hframes⟩ := hr.refines
    refine ⟨w, ?_, hframes⟩
    rw [offset, Proc.mem_withMem, memStack_eq_of_eqOn hstruct]
    exact htop

/-- Every step keeps the invariant. -/
theorem step (hr : Inv stack capacity r) (op : StackOp) :
    Inv stack capacity (r.step stack op) := by
  cases op with
  | push size => exact hr.grant size .arena
  | pushAlign size a => exact hr.grant size a
  | pop i =>
    cases hi : r.live[i]? with
    | none => simpa only [StackRun.step, hi] using hr
    | some b => simpa only [StackRun.step, hi] using hr.pop hi
  | popAll =>
    refine ⟨hr.stackAt.setCurrent_of_le (Nat.zero_le _), by simp [StackRun.step], ?_⟩
    exact ⟨Nesting.empty 0, Nat.zero_le _, rfl⟩
  | write i offset bytes =>
    cases hi : r.live[i]? with
    | none => simpa only [StackRun.step, hi] using hr
    | some b =>
      simp only [StackRun.step, hi]
      split
      · next hlen => exact hr.write (List.mem_of_getElem? hi) hlen
      · exact hr

/-- A run begins with the invariant. -/
theorem start {k : Kernel} {s : Proc} (h : (stackCreate k capacity s).1 ≠ NULL) :
    Inv (stackCreate k capacity s).1 capacity (StackRun.start k capacity s) where
  stackAt := (stackAt_create h).1
  intact := by simp [StackRun.start]
  refines := ⟨Nesting.empty 0, Nat.zero_le _, rfl⟩

end Inv

/-! ## Bounds -/

/-- The offset is within the capacity after the step, a block that was pushed lies with its header
inside the stack at the size that was asked for, and a push that returns the null pointer changes
nothing. A push returns unless its sum, or the length that was mapped, wraps. -/
structure BoundedStep (stack : ℕ) (capacity : UInt64) (r : StackRun) (op : StackOp) : Prop where
  offset_le : offset stack (r.step stack op).proc ≤ capacity.toNat
  answers : ∀ size a, op.request = some (size, a) → capacity.toNat + sizeofMemStack < 2 ^ 64 →
    pushEnd stack size a r.proc < 2 ^ 64 →
      ∃ out, stackPushAlign stack size a.value r.proc = .ok out
  inside : ∀ size a p s', op.request = some (size, a) →
    stackPushAlign stack size a.value r.proc = .ok (p, s') → p ≠ NULL →
      stackBase stack ≤ p - sizeofMemStackHeader ∧
        p + size.toNat ≤ stackBase stack + capacity.toNat
  refused : ∀ size a s', op.request = some (size, a) →
    stackPushAlign stack size a.value r.proc = .ok (NULL, s') → s' = r.proc

/-- Every step is bounded. -/
theorem Inv.boundedStep (hr : Inv stack capacity r) (op : StackOp) :
    r.BoundedStep stack capacity op where
  offset_le := (hr.step op).stackAt.offset_le
  answers size a _ hcap hlt := hr.stackAt.exists_push hcap hlt
  inside size a p s' _ hpush hne := by
    obtain ⟨-, h⟩ | ⟨-, -, h⟩ | ⟨hle, -, p', s'', h, -, hpushed⟩ := hr.stackAt.push_cases size a
    · rw [h, Except.ok.injEq, Prod.mk.injEq] at hpush
      exact absurd hpush.1.symm hne
    · rw [h] at hpush
      cases hpush
    · rw [h, Except.ok.injEq, Prod.mk.injEq] at hpush
      obtain ⟨rfl, rfl⟩ := hpush
      have hp := hpushed.pointer_eq
      have hheader := a.sizeofMemStackHeader_le_padding
      rw [pushEnd] at hle
      omega
  refused size a s' _ hpush := by
    obtain ⟨-, h⟩ | ⟨-, -, h⟩ | ⟨-, -, p', s'', h, hne, -⟩ := hr.stackAt.push_cases size a
    · rw [h, Except.ok.injEq, Prod.mk.injEq] at hpush
      exact hpush.2.symm
    · rw [h] at hpush
      cases hpush
    · -- a push that was granted does not return the null pointer
      rw [h, Except.ok.injEq, Prod.mk.injEq] at hpush
      exact absurd hpush.1 hne

/-- A push that passes the check on the wrapped sum is one whose sum does not wrap. -/
def Fits (stack : ℕ) (capacity : UInt64) (r : StackRun) (op : StackOp) : Prop :=
  ∀ size a, op.request = some (size, a) →
    pushEnd stack size a r.proc % 2 ^ 64 ≤ capacity.toNat → pushEnd stack size a r.proc < 2 ^ 64

/-! ## Isolation of blocks -/

/-- The step is bounded; a block that was pushed is zero and away, with its header, from every live
block; live blocks are disjoint; and no live block is written to but by its user. -/
structure SafeStep (stack : ℕ) (capacity : UInt64) (r : StackRun) (op : StackOp) : Prop
    extends BoundedStep stack capacity r op where
  zeroed : ∀ size a p s', op.request = some (size, a) →
    stackPushAlign stack size a.value r.proc = .ok (p, s') → p ≠ NULL →
      ∀ x ∈ Memory.range p size.toNat, s'.mem.byte x = 0
  disjoint : ∀ size a p s', op.request = some (size, a) →
    stackPushAlign stack size a.value r.proc = .ok (p, s') → p ≠ NULL →
      ∀ b ∈ r.live, Disjoint (Set.Ico (p - sizeofMemStackHeader) (p + size.toNat)) b.range
  pairwise : (r.step stack op).live.Pairwise fun b c => Disjoint b.range c.range
  kept : ∀ b ∈ r.live, (∀ i d bytes, op = .write i d bytes → r.live[i]? ≠ some b) →
    Set.EqOn (r.step stack op).proc.mem.byte r.proc.mem.byte b.range

/-- No live block is written to but by its user. -/
theorem Inv.step_eqOn (hr : Inv stack capacity r) (hb : b ∈ r.live)
    (hwrite : ∀ i d bytes, op = .write i d bytes → r.live[i]? ≠ some b) :
    Set.EqOn (r.step stack op).proc.mem.byte r.proc.mem.byte b.range := by
  have hgrant : ∀ size a, op.request = some (size, a) →
      Set.EqOn (r.step stack op).proc.mem.byte r.proc.mem.byte b.range := by
    intro size a hreq
    rw [step_of_request hreq]
    cases hpush : stackPushAlign stack size a.value r.proc with
    | error _ => exact fun _ _ => rfl
    | ok out => exact hr.push_eqOn hpush hb
  cases op with
  | push size => exact hgrant size .arena rfl
  | pushAlign size a => exact hgrant size a rfl
  | pop i =>
    cases hi : r.live[i]? with
    | none => simp only [StackRun.step, hi, Set.eqOn_refl]
    | some c =>
      simp only [StackRun.step, hi]
      obtain ⟨-, h⟩ | ⟨-, h⟩ := hr.stackPop_cases (List.mem_of_getElem? hi)
      · rw [h, Proc.mem_withMem]
        exact hr.setCurrentOffset_eqOn _ hb
      · rw [h]
        exact fun _ _ => rfl
  | popAll => exact hr.setCurrentOffset_eqOn 0 hb
  | write i d bytes =>
    cases hi : r.live[i]? with
    | none => simp only [StackRun.step, hi, Set.eqOn_refl]
    | some c =>
      have hne : c ≠ b := by
        rintro rfl
        exact hwrite i d bytes rfl hi
      simp only [StackRun.step, hi]
      split
      · next hlen => exact hr.write_eqOn_of_ne (List.mem_of_getElem? hi) hb hne hlen
      · exact fun _ _ => rfl

/-- Every step is safe. -/
theorem Inv.safeStep (hr : Inv stack capacity r) (op : StackOp) :
    r.SafeStep stack capacity op where
  toBoundedStep := hr.boundedStep op
  zeroed size a p s' _ hpush hne := by
    obtain ⟨-, h⟩ | ⟨-, -, h⟩ | ⟨-, -, p', s'', h, -, hpushed⟩ := hr.stackAt.push_cases size a
    · rw [h, Except.ok.injEq, Prod.mk.injEq] at hpush
      exact absurd hpush.1.symm hne
    · rw [h] at hpush
      cases hpush
    · rw [h, Except.ok.injEq, Prod.mk.injEq] at hpush
      obtain ⟨rfl, rfl⟩ := hpush
      exact hpushed.zeroed
  disjoint size a p s' hreq hpush hne b hb := by
    -- the new block is the newest of the run after the step
    have hpairwise := (hr.step op).pairwise_range
    rw [step_of_request hreq, hpush, StackRun.grant, if_neg hne] at hpairwise
    exact List.rel_of_pairwise_cons hpairwise hb
  pairwise := (hr.step op).pairwise_range
  kept b hb hwrite := hr.step_eqOn hb hwrite

/-! ## Undoing -/

/-- The operations of a well-nested run: pushes of at least one byte whose sum does not wrap, pops
of the newest block, and writes of the user. -/
def WellNested (stack : ℕ) (r : StackRun) : StackOp → Prop
  | .push size => 0 < size.toNat ∧ pushEnd stack size .arena r.proc < 2 ^ 64
  | .pushAlign size a => 0 < size.toNat ∧ pushEnd stack size a r.proc < 2 ^ 64
  | .pop i => i = 0
  | .popAll => False
  | .write _ _ _ => True

/-- The stack ends at or below twice its base address, in the word the code computes. -/
def BelowTwiceBase (stack : ℕ) (capacity : UInt64) : Prop :=
  stackBase stack + capacity.toNat ≤ (stackBase stack + stackBase stack) % 2 ^ 64

/-- A push returns. A pop of the newest block takes the offset back to where it was before the push
and leaves the older blocks; live blocks are disjoint, headers included; and a live block keeps its
bytes and its header, unless the user writes into it. -/
structure UndoStep (stack : ℕ) (r : StackRun) (op : StackOp) : Prop where
  answers : ∀ size a, op.request = some (size, a) →
    ∃ out, stackPushAlign stack size a.value r.proc = .ok out
  restores : ∀ b older, op = .pop 0 → r.live = b :: older →
    offset stack (r.step stack op).proc = b.before ∧ (r.step stack op).live = older
  disjoint : (r.step stack op).live.Pairwise fun b c => Disjoint b.range c.range
  kept : ∀ b ∈ r.live, (∀ i d bytes, op = .write i d bytes → r.live[i]? ≠ some b) →
    Set.EqOn (r.step stack op).proc.mem.byte r.proc.mem.byte b.range

/-- A well-nested run keeps the invariant, and its live blocks are not empty. -/
structure NestedInv (stack : ℕ) (capacity : UInt64) (r : StackRun) : Prop
    extends Inv stack capacity r where
  size_pos : ∀ b ∈ r.live, 0 < b.size

theorem WellNested.of_request {size : UInt64} {a : Alignment} (h : r.WellNested stack op)
    (hreq : op.request = some (size, a)) :
    0 < size.toNat ∧ pushEnd stack size a r.proc < 2 ^ 64 := by
  cases op with
  | push size' =>
    obtain ⟨rfl, rfl⟩ : size' = size ∧ Alignment.arena = a := by
      simpa [StackOp.request] using hreq
    exact h
  | pushAlign size' a' =>
    obtain ⟨rfl, rfl⟩ : size' = size ∧ a' = a := by simpa [StackOp.request] using hreq
    exact h
  | _ => simp [StackOp.request] at hreq

/-- Where the stack ends below twice its base, the length that is mapped does not wrap. -/
theorem BelowTwiceBase.capacity_lt (h : BelowTwiceBase stack capacity) :
    capacity.toNat + sizeofMemStack < 2 ^ 64 := by
  have hmod := Nat.mod_lt (stackBase stack + stackBase stack) (Nat.two_pow_pos 64)
  rw [BelowTwiceBase] at h
  simp only [stackBase] at *
  omega

namespace NestedInv

/-- A pop of a live block takes the offset back. -/
theorem stackPop_eq (hr : NestedInv stack capacity r) (hbelow : BelowTwiceBase stack capacity)
    (hb : b ∈ r.live) :
    stackPop stack b.pointer r.proc =
      r.proc.withMem (setCurrentOffset stack (UInt64.ofNat b.before) r.proc.mem) := by
  obtain ⟨-, h⟩ | ⟨hend, -⟩ := hr.toInv.stackPop_cases hb
  · exact h
  · refine absurd ?_ hend
    rw [PopPasses]
    -- the block is not empty, so it begins below the end of the stack
    have hsize := hr.size_pos b hb
    have hle := hr.end_le hb
    have hoffset := hr.stackAt.offset_le
    rw [BelowTwiceBase] at hbelow
    have hmod := Nat.mod_lt (stackBase stack + stackBase stack) (Nat.two_pow_pos 64)
    rw [Nat.mod_eq_of_lt (by omega : stackBase stack + capacity.toNat < 2 ^ 64)]
    constructor
    · omega
    · omega

/-- A step of a well-nested run keeps its invariant. -/
theorem step (hr : NestedInv stack capacity r) (hop : r.WellNested stack op) :
    NestedInv stack capacity (r.step stack op) := by
  refine ⟨hr.toInv.step op, ?_⟩
  -- a push of a well nested run is not of zero bytes
  have hgrant : ∀ size a, op.request = some (size, a) →
      ∀ b ∈ (r.step stack op).live, 0 < b.size := by
    intro size a hreq
    rw [step_of_request hreq]
    cases stackPushAlign stack size a.value r.proc with
    | error _ => exact hr.size_pos
    | ok out =>
      rw [StackRun.grant]
      split
      · exact hr.size_pos
      · exact List.forall_mem_cons.mpr ⟨(hop.of_request hreq).1, hr.size_pos⟩
  cases op with
  | push size => exact hgrant size .arena rfl
  | pushAlign size a => exact hgrant size a rfl
  | pop i =>
    cases hi : r.live[i]? with
    | none => simpa only [StackRun.step, hi] using hr.size_pos
    | some b =>
      simp only [StackRun.step, hi]
      exact fun c hc => hr.size_pos c (List.mem_of_mem_drop hc)
  | popAll => exact hop.elim
  | write i d bytes =>
    cases hi : r.live[i]? with
    | none => simpa only [StackRun.step, hi] using hr.size_pos
    | some b =>
      simp only [StackRun.step, hi]
      split
      · exact hr.size_pos
      · exact hr.size_pos

/-- A step of a well-nested run undoes and spares what it should. -/
theorem undoStep (hr : NestedInv stack capacity r) (hop : r.WellNested stack op)
    (hbelow : BelowTwiceBase stack capacity) : r.UndoStep stack op where
  answers _ _ hreq := hr.stackAt.exists_push hbelow.capacity_lt (hop.of_request hreq).2
  restores b older hpop hlive := by
    subst hpop
    have hb : b ∈ r.live := hlive ▸ List.mem_cons_self
    simp only [StackRun.step, hlive, List.getElem?_cons_zero]
    refine ⟨?_, rfl⟩
    rw [hr.stackPop_eq hbelow hb, offset_setCurrentOffset, hr.toInv.toNat_before hb]
  disjoint := (hr.toInv.step op).pairwise_range
  kept _ hb hwrite := hr.toInv.step_eqOn hb hwrite

end NestedInv

/-! ## Alignment -/

/-- A block that was pushed is aligned, to 128 bytes at most. -/
def AlignedPush (stack : ℕ) (r : StackRun) (op : StackOp) : Prop :=
  ∀ size a p s', op.request = some (size, a) →
    stackPushAlign stack size a.value r.proc = .ok (p, s') → p ≠ NULL →
      min a.value.toNat 128 ∣ p

/-- A push that passes the check, and whose header and block are mapped, starts at an aligned
address. -/
def StartsAligned (stack : ℕ) (r : StackRun) (op : StackOp) : Prop :=
  ∀ size a, op.request = some (size, a) →
    pushEnd stack size a r.proc % 2 ^ 64 ≤ (memStack r.proc.mem stack).capacity.toNat →
    PushMapped stack size a r.proc →
      min a.value.toNat 128 ∣
        (memStack r.proc.mem stack).basePosition.toNat + offset stack r.proc

/-- The padding is a multiple of the alignment, so it takes no address to another residue. -/
theorem alignedPush_iff : r.AlignedPush stack op ↔ r.StartsAligned stack op := by
  -- neither the padding nor the word size moves the remainder
  have hdvd : ∀ a : Alignment, min a.value.toNat 128 ∣ pushNext stack a r.proc ↔
      min a.value.toNat 128 ∣
        (memStack r.proc.mem stack).basePosition.toNat + offset stack r.proc := by
    intro a
    rw [pushNext, Nat.dvd_mod_iff a.min_dvd_word, Nat.dvd_add_left a.min_dvd_padding]
  constructor
  · intro haligned size a hreq hle hmapped
    obtain ⟨hgt, -⟩ | ⟨-, ⟨hnot, -⟩ | ⟨-, padding, -, h⟩⟩ :=
      stackPushAlign_cases stack size a r.proc
    · exact absurd hgt (Nat.not_lt.mpr hle)
    · exact absurd hmapped hnot
    · rw [← hdvd]
      by_cases hnull : pushNext stack a r.proc = NULL
      · rw [hnull]
        exact Nat.dvd_zero _
      · exact haligned size a _ _ hreq h hnull
  · intro hstarts size a p s' hreq hp hne
    obtain ⟨-, h⟩ | ⟨hle, ⟨-, h⟩ | ⟨hmapped, padding, -, h⟩⟩ :=
      stackPushAlign_cases stack size a r.proc
    · rw [hp, Except.ok.injEq, Prod.mk.injEq] at h
      exact absurd h.1 hne
    · rw [hp] at h
      cases h
    · rw [hp, Except.ok.injEq, Prod.mk.injEq] at h
      rw [h.1, hdvd]
      exact hstarts size a hreq hle hmapped

end StackRun

open StackRun in
/-- Along every run blocks lie inside the stack, whatever sizes are asked for. -/
theorem stackRun_bounded (k : Kernel) (capacity : UInt64) (s : Proc) (ops : List StackOp)
    (hcreate : (stackCreate k capacity s).1 ≠ NULL) :
    Run.Along (step (stackCreate k capacity s).1)
      (BoundedStep (stackCreate k capacity s).1 capacity) (start k capacity s) ops :=
  Run.along_of_invariant (fun _ op hr _ => hr.step op) (fun _ op hr _ => hr.boundedStep op)
    (Inv.start hcreate) (Run.along_of_forall_mem fun _ _ _ => trivial)

open StackRun in
/-- The first push passes the check on a wrapped sum and does not return. -/
theorem stackRun_bounded_popOlder :
    Run.Along (step (stackCreate Kernel.above 64 Proc.fresh).1)
      (BoundedStep (stackCreate Kernel.above 64 Proc.fresh).1 64)
      (start Kernel.above 64 Proc.fresh)
      [.push 18446744073709551600, .push 8, .pushAlign 5 ⟨2, 1, rfl⟩, .pop 1, .push 64] :=
  stackRun_bounded Kernel.above 64 Proc.fresh _ (by decide +kernel)

open StackRun in
/-- Along every well-nested run of a stack below twice its base address, a pop restores the offset
from before the push, and live blocks and their headers are disjoint and kept. -/
theorem stackRun_undo (k : Kernel) (capacity : UInt64) (s : Proc) (ops : List StackOp)
    (hcreate : (stackCreate k capacity s).1 ≠ NULL)
    (hbelow : BelowTwiceBase (stackCreate k capacity s).1 capacity)
    (hops : Run.Along (step (stackCreate k capacity s).1)
      (WellNested (stackCreate k capacity s).1) (start k capacity s) ops) :
    Run.Along (step (stackCreate k capacity s).1)
      (UndoStep (stackCreate k capacity s).1) (start k capacity s) ops :=
  Run.along_of_invariant (fun _ _ hr hop => NestedInv.step hr hop)
    (fun _ _ hr hop => hr.undoStep hop hbelow)
    (show NestedInv _ capacity _ from ⟨Inv.start hcreate, by simp [start]⟩) hops

open StackRun in
theorem stackRun_undo_nested :
    Run.Along (step (stackCreate Kernel.above 256 Proc.fresh).1)
      (UndoStep (stackCreate Kernel.above 256 Proc.fresh).1) (start Kernel.above 256 Proc.fresh)
      [.pushAlign 3 ⟨1, 0, rfl⟩, .write 0 1 [7, 8], .pushAlign 20 ⟨64, 6, rfl⟩, .write 0 0 [255],
        .pop 0, .push 8, .pop 0, .pop 0] :=
  stackRun_undo Kernel.above 256 Proc.fresh _ (by decide +kernel)
    (by rw [BelowTwiceBase]; decide +kernel)
    ⟨⟨by decide, by decide +kernel⟩, trivial, ⟨by decide, by decide +kernel⟩, trivial, rfl,
      ⟨by decide, by decide +kernel⟩, rfl, rfl, trivial⟩

open StackRun in
/-- `calculate_padding` gives the least padding exactly at an aligned address and with a header, and
along every run the blocks are aligned iff the pushes that pass the check start aligned. -/
theorem stackRun_aligned_iff (a : Alignment) (pointer headerSize : UInt64) (k : Kernel)
    (capacity : UInt64) (s : Proc) (ops : List StackOp) :
    (headerSize.toNat + a.value.toNat ≤ 2 ^ 64 →
      ((∃ padding, calculatePadding pointer a.value headerSize = .ok padding ∧
          IsLeast {n | headerSize.toNat ≤ n ∧ a.value.toNat ∣ pointer.toNat + n}
            padding.toNat) ↔
        a.value.toNat ∣ pointer.toNat ∧ headerSize ≠ 0)) ∧
    (Run.Along (step (stackCreate k capacity s).1) (AlignedPush (stackCreate k capacity s).1)
        (start k capacity s) ops ↔
      Run.Along (step (stackCreate k capacity s).1)
        (StartsAligned (stackCreate k capacity s).1) (start k capacity s) ops) := by
  refine ⟨calculatePadding_isLeast_iff a pointer headerSize, ?_⟩
  exact Run.along_iff_of_invariant (fun _ => True) (fun _ _ _ _ _ => trivial)
    (fun _ _ _ _ => alignedPush_iff) trivial (Run.along_of_forall_mem fun _ _ _ => trivial)

open StackRun in
theorem stackRun_aligned_iff_single :
    ((∃ padding, calculatePadding 32 Alignment.arena.value 2 = .ok padding ∧
        IsLeast {n | (2 : UInt64).toNat ≤ n ∧ Alignment.arena.value.toNat ∣ (32 : UInt64).toNat + n}
          padding.toNat) ↔
      Alignment.arena.value.toNat ∣ (32 : UInt64).toNat ∧ (2 : UInt64) ≠ 0) ∧
    (Run.Along (step (stackCreate Kernel.above 64 Proc.fresh).1)
        (AlignedPush (stackCreate Kernel.above 64 Proc.fresh).1) (start Kernel.above 64 Proc.fresh)
        [.pushAlign 5 ⟨8, 3, rfl⟩] ↔
      Run.Along (step (stackCreate Kernel.above 64 Proc.fresh).1)
        (StartsAligned (stackCreate Kernel.above 64 Proc.fresh).1)
        (start Kernel.above 64 Proc.fresh) [.pushAlign 5 ⟨8, 3, rfl⟩]) :=
  have h := stackRun_aligned_iff .arena 32 2 Kernel.above 64 Proc.fresh [.pushAlign 5 ⟨8, 3, rfl⟩]
  ⟨h.1 (by decide), h.2⟩

open StackRun in
/-- The first block of a stack is pushed 24 bytes into a page, and its padding is 16 bytes. -/
theorem not_stackRun_aligned :
    ¬ ((∀ (a : Alignment) (pointer headerSize : UInt64),
        headerSize.toNat + a.value.toNat ≤ 2 ^ 64 →
          ∃ padding, calculatePadding pointer a.value headerSize = .ok padding ∧
            IsLeast {n | headerSize.toNat ≤ n ∧ a.value.toNat ∣ pointer.toNat + n}
              padding.toNat) ∧
      ∀ (k : Kernel) (capacity : UInt64) (s : Proc) (ops : List StackOp),
        (stackCreate k capacity s).1 ≠ NULL →
          Run.Along (step (stackCreate k capacity s).1) (AlignedPush (stackCreate k capacity s).1)
            (start k capacity s) ops) := by
  rintro ⟨-, hall⟩
  obtain ⟨hfirst, -⟩ := hall Kernel.above 64 Proc.fresh [.push 8] (by decide +kernel)
  have hat : StackAt (stackCreate Kernel.above 64 Proc.fresh).1 64
      (start Kernel.above 64 Proc.fresh).proc := (Inv.start (by decide +kernel)).stackAt
  obtain ⟨⟨p, s'⟩, hout⟩ : ∃ out, stackPushAlign (stackCreate Kernel.above 64 Proc.fresh).1 8
      Alignment.arena.value (start Kernel.above 64 Proc.fresh).proc = .ok out :=
    hat.exists_push (by decide) (by decide +kernel)
  have hp : (stackPushAlign (stackCreate Kernel.above 64 Proc.fresh).1 8
      Alignment.arena.value (start Kernel.above 64 Proc.fresh).proc).toOption.map Prod.fst =
        some 4136 := by decide +kernel
  rw [hout] at hp
  obtain rfl : p = 4136 := Option.some.inj hp
  exact absurd (hfirst 8 .arena 4136 s' rfl hout (by decide)) (by decide)

end AgentResources
