import AgentResources.Base.Locality
import AgentResources.Foundations.Block

/-!
# What the allocators are for

Seen from outside an arena is a number, its position, and a list of blocks with what they hold. A
stack is an offset and a list of frames. Neither has an address, a header or a wrapped sum:
`ArenaModel` and `StackModel` are arithmetic. The code is that arithmetic: every step of an
allocator whose sum does not wrap is the step of its model, with the same answer, and what the
live blocks hold are the bytes of the model's blocks.

`reach` is what is left in the model of the comparison of `stack_pop` with twice the base address:
a block that begins at or above it is not popped. In a stack that ends below twice its base
address `reach` is the capacity.

## Main definitions

* `ArenaModel`, `StackModel`: the models, with their steps and answers;
* `ArenaRun.model`, `StackRun.model`: what a run looks like from outside.

## Main results

* `ArenaRun.Inv.model_step`, `StackRun.Inv.model_step`: a step is the step of the model.
-/

namespace AgentResources

/-! ## Arenas -/

/-- An arena, seen from outside. -/
@[ext]
structure ArenaModel where
  /-- The number of bytes it can hand out. -/
  capacity : ℕ
  /-- The number of bytes handed out. -/
  position : ℕ
  /-- The positions remembered by temporary arenas, newest first. -/
  temps : List ℕ
  /-- The live blocks, newest first. -/
  blocks : List Block
  deriving DecidableEq

namespace ArenaModel

variable {m : ArenaModel}

/-- A new arena. -/
def fresh (capacity : ℕ) : ArenaModel := ⟨capacity, 0, [], []⟩

/-- Move the position, which releases the blocks that reach above it. -/
def move (m : ArenaModel) (p : ℕ) : ArenaModel :=
  { m with position := p, blocks := m.blocks.filter (·.top ≤ p) }

/-- Hand out `n` zeroed bytes, if there are as many. -/
def grant (m : ArenaModel) (n : ℕ) : ArenaModel :=
  if m.position + n ≤ m.capacity then
    { m with position := m.position + n, blocks := .zeros m.position n :: m.blocks }
  else m

theorem grant_of_le {n : ℕ} (h : m.position + n ≤ m.capacity) :
    m.grant n = { m with
      position := m.position + n
      blocks := .zeros m.position n :: m.blocks } := if_pos h

theorem grant_of_lt {n : ℕ} (h : m.capacity < m.position + n) : m.grant n = m :=
  if_neg (Nat.not_le.mpr h)

/-- One step. -/
def step (m : ArenaModel) : ArenaOp → ArenaModel
  | .alloc size => m.grant size.toNat
  | .pushArray elemSize len => m.grant (elemSize.toNat * len.toNat)
  | .pop size => m.move (m.position - size.toNat)
  | .popTo pos => m.move (min m.position pos.toNat)
  | .clear => m.move 0
  | .tempBegin => { m with temps := m.position :: m.temps }
  | .tempEnd i =>
    match m.temps[i]? with
    | none => m
    | some p => m.move p
  | .write i d bytes => { m with blocks := m.blocks.modify i (·.write d bytes) }

/-- Where the block begins that a request is answered with. -/
def answer (m : ArenaModel) (op : ArenaOp) : Option ℕ :=
  op.request.bind fun n => if m.position + n ≤ m.capacity then some m.position else none

end ArenaModel

/-! ## Stacks -/

/-- A frame of a stack. -/
structure Frame where
  /-- The offset from before the push. -/
  before : ℕ
  /-- The block that was pushed, which begins after the padding. -/
  block : Block
  deriving DecidableEq

/-- A stack, seen from outside. -/
@[ext]
structure StackModel where
  /-- The number of bytes it can hand out, paddings included. -/
  capacity : ℕ
  /-- Blocks from here on are not popped. -/
  reach : ℕ
  /-- The number of bytes handed out, paddings included. -/
  offset : ℕ
  /-- The live frames, newest first. -/
  frames : List Frame
  deriving DecidableEq

namespace StackModel

/-- A new stack. -/
def fresh (capacity reach : ℕ) : StackModel := ⟨capacity, reach, 0, []⟩

/-- Push a block of `size` zeroed bytes behind `padding` others, if there are as many. -/
def push (m : StackModel) (size padding : ℕ) : StackModel :=
  if m.offset + padding + size ≤ m.capacity then
    { m with
      offset := m.offset + padding + size
      frames := ⟨m.offset, .zeros (m.offset + padding) size⟩ :: m.frames }
  else m

theorem push_of_le {m : StackModel} {size padding : ℕ}
    (h : m.offset + padding + size ≤ m.capacity) :
    m.push size padding = { m with
      offset := m.offset + padding + size
      frames := ⟨m.offset, .zeros (m.offset + padding) size⟩ :: m.frames } := if_pos h

theorem push_of_lt {m : StackModel} {size padding : ℕ}
    (h : m.capacity < m.offset + padding + size) : m.push size padding = m :=
  if_neg (Nat.not_le.mpr h)

/-- One step. -/
def step (m : StackModel) : StackOp → StackModel
  | .push size => m.push size.toNat Alignment.arena.padding
  | .pushAlign size a => m.push size.toNat a.padding
  | .pop i =>
    match m.frames[i]? with
    | none => m
    | some f =>
      { m with
        offset := if f.block.offset < m.reach then f.before else m.offset
        frames := m.frames.drop (i + 1) }
  | .popAll => { m with offset := 0, frames := [] }
  | .write i d bytes =>
    { m with frames := m.frames.modify i fun f => { f with block := f.block.write d bytes } }

/-- Where the block begins that a push is answered with. -/
def answer (m : StackModel) (op : StackOp) : Option ℕ :=
  op.request.bind fun (size, a) =>
    if m.offset + a.padding + size.toNat ≤ m.capacity then some (m.offset + a.padding) else none

theorem answer_of_request {m : StackModel} {op : StackOp} {size : UInt64} {a : Alignment}
    (h : op.request = some (size, a)) :
    m.answer op = if m.offset + a.padding + size.toNat ≤ m.capacity then
      some (m.offset + a.padding) else none := by
  rw [answer, h, Option.bind_some]

end StackModel

/-! ## The model of an arena -/

namespace ArenaRun

variable {arena : ℕ} {capacity : UInt64} {r : ArenaRun} {op : ArenaOp}

/-- A live block, with what it holds. -/
def block (arena : ℕ) (m : Memory) (b : ℕ × ℕ) : Block :=
  .read (arenaBase arena) m b.1 (b.2 - b.1)

/-- What a run looks like from outside. -/
def model (arena : ℕ) (capacity : UInt64) (r : ArenaRun) : ArenaModel where
  capacity := capacity.toNat
  position := position arena r.proc
  temps := r.temps.map (·.startPosition.toNat)
  blocks := r.live.map (block arena r.proc.mem)

/-- No live block ends before it begins. -/
def Ordered (r : ArenaRun) : Prop := ∀ b ∈ r.live, b.1 ≤ b.2

theorem top_block {b : ℕ × ℕ} (m : Memory) (hbase : arenaBase arena ≤ b.1) (hle : b.1 ≤ b.2) :
    arenaBase arena + (block arena m b).top = b.2 := by
  rw [block, Block.top_read hbase]
  omega

/-- Continuing with live blocks drops the blocks that reach above the position. -/
theorem model_settle {p : Proc} {live : List (ℕ × ℕ)}
    (hlive : ∀ b ∈ live, arenaBase arena ≤ b.1 ∧ b.1 ≤ b.2) :
    (r.settle arena p live).model arena capacity =
      { r.model arena capacity with
        position := position arena p
        blocks := (live.map (block arena p.mem)).filter (·.top ≤ position arena p) } := by
  rw [model, live_settle, proc_settle, List.filter_map]
  congr 2
  refine List.filter_congr fun b hb => ?_
  have htop := top_block p.mem (hlive b hb).1 (hlive b hb).2
  rw [Function.comp_apply, decide_eq_decide]
  omega

/-- Live blocks hold what they held where only the header has changed. -/
theorem map_block_eq {m m' : Memory} {live : List (ℕ × ℕ)}
    (hbase : ∀ b ∈ live, arenaBase arena ≤ b.1)
    (heq : Set.EqOn m'.byte m.byte (Memory.range arena 16)ᶜ) :
    live.map (block arena m') = live.map (block arena m) := by
  refine List.map_congr_left fun b hb => Block.read_congr (heq.mono ?_)
  have hle := hbase b hb
  simp only [arenaBase, sizeofMemArena] at hle
  exact Memory.range_subset_compl (.inr (by omega))

/-- A change of the header only is a move of the position. -/
theorem HeaderInv.model_move (hr : HeaderInv arena capacity r) (ho : r.Ordered) {p : Proc}
    (heq : Set.EqOn p.mem.byte r.proc.mem.byte (Memory.range arena 16)ᶜ) :
    (r.settle arena p r.live).model arena capacity =
      (r.model arena capacity).move (position arena p) := by
  rw [model_settle fun b hb => ⟨hr.base_le b hb, ho b hb⟩, map_block_eq hr.base_le heq]
  rfl

/-- No block of a run reaches above the position. -/
theorem HeaderInv.model_settle_self (hr : HeaderInv arena capacity r) (ho : r.Ordered) :
    (r.settle arena r.proc r.live).model arena capacity = r.model arena capacity := by
  rw [hr.model_move ho fun _ _ => rfl]
  ext1
  · rfl
  · rfl
  · rfl
  refine List.filter_eq_self.mpr fun b hb => ?_
  obtain ⟨x, hx, rfl⟩ := List.mem_map.mp hb
  have htop := top_block r.proc.mem (hr.base_le x hx) (ho x hx)
  have hle := hr.live_le x hx
  rw [decide_eq_true_eq]
  omega

/-- The live blocks after an allocation that passed the check: a zeroed one, and those from
before. -/
theorem HeaderInv.map_block_allocMem (hr : HeaderInv arena capacity r) (ho : r.Ordered)
    (size : UInt64) :
    ((arenaBase arena + position arena r.proc,
        arenaBase arena + position arena r.proc + size.toNat) :: r.live).map
          (block arena (allocMem arena size r.proc.mem)) =
      .zeros (position arena r.proc) size.toNat :: r.live.map (block arena r.proc.mem) := by
  rw [List.map_cons]
  apply congrArg₂ List.cons
  · rw [block, Nat.add_sub_cancel_left, Block.read_of_zero fun x hx =>
      hr.arenaAt.load_allocMem size hx, Nat.add_sub_cancel_left]
  · refine List.map_congr_left fun b hb => Block.read_congr ?_
    have hle := hr.live_le b hb
    have hord := ho b hb
    exact ArenaAt.eqOn_below (hr.arenaAt.allocMem_eqOn size) (hr.base_le b hb) (by omega)

/-- Where there is room a zeroed block is granted, as in the model. -/
theorem HeaderInv.model_granted (hr : HeaderInv arena capacity r) (ho : r.Ordered) {size : UInt64}
    (hroom : position arena r.proc + size.toNat ≤ capacity.toNat)
    (hpos : position arena (r.proc.withMem (allocMem arena size r.proc.mem)) =
      position arena r.proc + size.toNat) :
    (r.settle arena (r.proc.withMem (allocMem arena size r.proc.mem))
        ((arenaBase arena + position arena r.proc,
          arenaBase arena + position arena r.proc + size.toNat) :: r.live)).model arena capacity =
      (r.model arena capacity).grant size.toNat := by
  have hlive : ∀ b ∈ (arenaBase arena + position arena r.proc,
      arenaBase arena + position arena r.proc + size.toNat) :: r.live,
        arenaBase arena ≤ b.1 ∧ b.1 ≤ b.2 := by
    refine List.forall_mem_cons.mpr ⟨⟨Nat.le_add_right _ _, Nat.le_add_right _ _⟩, ?_⟩
    exact fun b hb => ⟨hr.base_le b hb, ho b hb⟩
  rw [model_settle hlive, hpos, Proc.mem_withMem, hr.map_block_allocMem ho,
    ArenaModel.grant_of_le (m := r.model arena capacity) hroom]
  refine congrArg (ArenaModel.mk _ _ _) ?_
  -- all of them end below the new position
  refine List.filter_eq_self.mpr fun b hb => ?_
  rw [decide_eq_true_eq]
  rcases List.mem_cons.mp hb with rfl | hb
  · rw [Block.top, Block.zeros, List.length_replicate]
  · obtain ⟨x, hx, rfl⟩ := List.mem_map.mp hb
    have htop := top_block r.proc.mem (hr.base_le x hx) (ho x hx)
    have hle := hr.live_le x hx
    omega

/-- In an arena that is mapped in full, a request is answered as in the model. -/
theorem HeaderInv.model_grant (hr : HeaderInv arena capacity r) (ho : r.Ordered)
    (hcap : capacity.toNat + sizeofMemArena < 2 ^ 64) {size : UInt64} {n : ℕ}
    (hsize : size.toNat = n) (hsum : position arena r.proc + n < 2 ^ 64) :
    (r.grant arena n (arenaAlloc arena size r.proc)).model arena capacity =
        (r.model arena capacity).grant n ∧
      (r.grant arena n (arenaAlloc arena size r.proc)).Ordered ∧
      (arenaAlloc arena size r.proc).map Prod.fst =
        .ok (if position arena r.proc + n ≤ capacity.toNat then
          arenaBase arena + position arena r.proc else NULL) := by
  subst hsize
  obtain ⟨hfull, h⟩ | ⟨hle, hunmapped, -⟩ | ⟨hroom, h⟩ := hr.arenaAt.alloc_cases size
  · rw [Nat.mod_eq_of_lt hsum] at hfull
    rw [h, ArenaRun.grant, if_pos rfl, if_neg (Nat.not_le.mpr hfull)]
    refine ⟨?_, fun b hb => ho b (List.mem_filter.mp hb).1, rfl⟩
    rw [ArenaModel.grant_of_lt (m := r.model arena capacity) hfull]
    exact hr.model_settle_self ho
  · rw [Nat.mod_eq_of_lt hsum] at hle
    exact absurd (hr.arenaAt.hasRoom hcap hle).2 hunmapped
  · have hpos := hr.arenaAt.position_allocMem hroom
    rw [h, ArenaRun.grant, if_neg (arenaBase_add_ne_null _ _), if_pos hroom.1]
    refine ⟨hr.model_granted ho hroom.1 hpos, fun b hb => ?_,
      congrArg Except.ok (Eq.refl (arenaBase arena + position arena r.proc))⟩
    rcases List.mem_cons.mp (List.mem_filter.mp hb).1 with rfl | hb
    · exact Nat.le_add_right _ _
    · exact ho b hb

/-- A pop to a position never moves it up. -/
theorem position_arenaPopTo (arena : ℕ) (pos : UInt64) (s : Proc) :
    position arena (arenaPopTo arena pos s) = min (position arena s) pos.toNat := by
  rw [arenaPopTo, position_arenaPop]
  split
  · next h =>
    rw [UInt64.toNat_sub_of_le _ _ (UInt64.le_of_lt h)]
    rw [UInt64.lt_iff_toNat_lt] at h
    simp only [position]
    omega
  · next h =>
    rw [UInt64.lt_iff_toNat_lt] at h
    rw [UInt64.toNat_zero]
    simp only [position]
    omega

/-- A write into a live block is a write into the block of the model. -/
theorem HeaderInv.model_write (hr : HeaderInv arena capacity r) (ho : r.Ordered)
    (hdisjoint : r.live.Pairwise fun b c => Disjoint (Set.Ico b.1 b.2) (Set.Ico c.1 c.2))
    {i d : ℕ} {bytes : List UInt8} {b : ℕ × ℕ} (hb : r.live[i]? = some b)
    (hfits : b.1 + d + bytes.length ≤ b.2) :
    ({ r with proc := r.proc.withMem (r.proc.mem.store (b.1 + d) bytes) } : ArenaRun).model
        arena capacity =
      (r.model arena capacity).step (.write i d bytes) := by
  have hbase := hr.base_le b (List.mem_of_getElem? hb)
  have hranges : r.live.Pairwise fun b c =>
      Disjoint (Memory.range b.1 (b.2 - b.1)) (Memory.range c.1 (c.2 - c.1)) := by
    refine hdisjoint.imp_of_mem fun {b c} hb hc h => ?_
    rwa [Memory.range, Memory.range, Nat.add_sub_cancel' (ho b hb), Nat.add_sub_cancel' (ho c hc)]
  have hblocks : r.live.map (block arena (r.proc.mem.store (b.1 + d) bytes)) =
      (r.live.map (block arena r.proc.mem)).modify i (·.write d bytes) :=
    Block.map_read_store (fun _ b => b) (fun _ _ => rfl) hb hranges (by omega)
  -- the position is in the header, in front of the block
  have hpos := (hr.arenaAt.store_behind (a := b.1 + d) (by omega) bytes).2
  ext1
  · rfl
  · exact hpos
  · rfl
  · exact hblocks

/-- Every step whose sum does not wrap is the step of the model, and is answered as there. -/
theorem Inv.model_step (hr : Inv arena capacity r) (ho : r.Ordered)
    (hcap : capacity.toNat + sizeofMemArena < 2 ^ 64)
    (hsum : ∀ n, op.request = some n → position arena r.proc + n < 2 ^ 64) :
    (r.step arena op).model arena capacity = (r.model arena capacity).step op ∧
      (r.step arena op).Ordered ∧
      r.result arena op =
        .ok (((r.model arena capacity).answer op).elim NULL (arenaBase arena + ·)) := by
  have hanswer : ∀ n, (if position arena r.proc + n ≤ capacity.toNat then
      arenaBase arena + position arena r.proc else NULL) =
        (if position arena r.proc + n ≤ capacity.toNat then some (position arena r.proc)
          else none).elim NULL (arenaBase arena + ·) := by
    intro n
    split <;> rfl
  -- what sets the position drops the blocks above it in the model as well
  have hmove : ∀ v, (r.settle arena (r.proc.withMem (setCurrentPosition arena v r.proc.mem))
      r.live).model arena capacity = (r.model arena capacity).move v.toNat := by
    intro v
    rw [hr.model_move ho (setCurrentPosition_eqOn v), position, Proc.mem_withMem,
      memArena_setCurrentPosition]
  have hfilter : ∀ p, (r.settle arena p r.live).Ordered :=
    fun p b hb => ho b (List.mem_filter.mp hb).1
  cases op with
  | alloc size =>
    obtain ⟨hmodel, hordered, hout⟩ := hr.model_grant ho hcap rfl (hsum _ rfl)
    exact ⟨hmodel, hordered, hout.trans (congrArg Except.ok (hanswer _))⟩
  | pushArray elemSize len =>
    have hlt := hsum _ rfl
    -- a product that does not wrap is the one the model takes
    have hsize : (elemSize * len).toNat = elemSize.toNat * len.toNat := by
      rw [UInt64.toNat_mul]
      exact Nat.mod_eq_of_lt (by omega)
    obtain ⟨hmodel, hordered, hout⟩ := hr.model_grant ho hcap hsize hlt
    exact ⟨hmodel, hordered, hout.trans (congrArg Except.ok (hanswer _))⟩
  | pop size =>
    refine ⟨?_, hfilter _, rfl⟩
    have hpos := position_arenaPop arena size r.proc
    exact (hr.model_move ho (setCurrentPosition_eqOn _)).trans (congrArg _ hpos)
  | popTo pos =>
    refine ⟨?_, hfilter _, rfl⟩
    have hpos := position_arenaPopTo arena pos r.proc
    exact (hr.model_move ho (setCurrentPosition_eqOn _)).trans (congrArg _ hpos)
  | clear => exact ⟨hmove 0, hfilter _, rfl⟩
  | tempBegin => exact ⟨rfl, ho, rfl⟩
  | tempEnd i =>
    have htemp : (r.model arena capacity).temps[i]? =
        r.temps[i]?.map (·.startPosition.toNat) := List.getElem?_map
    simp only [ArenaRun.step, ArenaModel.step, htemp]
    cases hi : r.temps[i]? with
    | none => exact ⟨rfl, ho, rfl⟩
    | some temp =>
      obtain ⟨rfl, -⟩ := hr.temps temp (List.mem_of_getElem? hi)
      exact ⟨hmove _, hfilter _, rfl⟩
  | write i d bytes =>
    obtain ⟨w, hw⟩ := hr.refines
    -- no write where there is no such block, or where it does not fit
    have hnone : (∀ b, r.live[i]? = some b → b.2 - b.1 < d + bytes.length) →
        r.model arena capacity = (r.model arena capacity).step (.write i d bytes) := by
      intro h
      refine congrArg (ArenaModel.mk _ _ _) (Block.modify_of_fixed fun x hx => ?_).symm
      obtain ⟨b, hb, rfl⟩ := Option.map_eq_some_iff.mp (List.getElem?_map.symm.trans hx)
      refine Block.write_of_lt ?_
      rw [block, Block.length_read]
      exact h b hb
    simp only [ArenaRun.step]
    cases hi : r.live[i]? with
    | none => exact ⟨hnone (by simp [hi]), ho, rfl⟩
    | some b =>
      dsimp only
      split
      · next hfits => exact ⟨hr.model_write ho hw.pairwise hi hfits, ho, rfl⟩
      · next hfits =>
        refine ⟨hnone fun c hc => ?_, ho, rfl⟩
        obtain rfl : b = c := Option.some.inj (hi.symm.trans hc)
        have hle := ho b (List.mem_of_getElem? hi)
        omega

end ArenaRun

/-! ## The model of a stack -/

namespace StackRun

variable {stack : ℕ} {capacity : UInt64} {r : StackRun} {op : StackOp} {b : StackBlock}

/-- A live block with what it holds, and the offset from before it. -/
def frame (stack : ℕ) (m : Memory) (b : StackBlock) : Frame where
  before := b.before
  block := .read (stackBase stack) m b.pointer b.size

/-- The number of bytes from the base address on that `stack_pop` looks for a block in. -/
def reach (stack : ℕ) (capacity : UInt64) : ℕ :=
  min ((stackBase stack + capacity.toNat) % 2 ^ 64) ((stackBase stack + stackBase stack) % 2 ^ 64) -
    stackBase stack

/-- What a run looks like from outside. -/
def model (stack : ℕ) (capacity : UInt64) (r : StackRun) : StackModel where
  capacity := capacity.toNat
  reach := reach stack capacity
  offset := offset stack r.proc
  frames := r.live.map (frame stack r.proc.mem)

theorem popPasses_iff {p : ℕ} (hp : stackBase stack ≤ p) :
    PopPasses stack capacity p ↔ p - stackBase stack < reach stack capacity := by
  rw [PopPasses, reach]
  omega

/-- Live blocks hold what they held where their ranges have not changed. -/
theorem map_frame_eq {m m' : Memory} {live : List StackBlock}
    (heq : ∀ b ∈ live, Set.EqOn m'.byte m.byte b.range) :
    live.map (frame stack m') = live.map (frame stack m) := by
  refine List.map_congr_left fun b hb => ?_
  rw [frame, frame, Block.read_congr ((heq b hb).mono (Inv.block_subset_range b))]

/-- A push is answered as in the model. -/
theorem Inv.model_push (hr : Inv stack capacity r)
    (hcap : capacity.toNat + sizeofMemStack < 2 ^ 64) {size : UInt64} {a : Alignment}
    (hfits : pushEnd stack size a r.proc % 2 ^ 64 ≤ capacity.toNat →
      pushEnd stack size a r.proc < 2 ^ 64) :
    (r.grant stack size (stackPushAlign stack size a.value r.proc)).model stack capacity =
        (r.model stack capacity).push size.toNat a.padding ∧
      (·.1) <$> stackPushAlign stack size a.value r.proc =
        .ok ((if offset stack r.proc + a.padding + size.toNat ≤ capacity.toNat then
          some (offset stack r.proc + a.padding) else none).elim NULL (stackBase stack + ·)) := by
  obtain ⟨hfull, h⟩ | ⟨hcheck, hmapped, -⟩ | ⟨hroom, -, p, s', h, hne, hpushed⟩ :=
    hr.stackAt.push_cases size a
  · have hgt : capacity.toNat < offset stack r.proc + a.padding + size.toNat :=
      hfull.trans_le (Nat.mod_le _ _)
    rw [h, StackRun.grant, if_pos rfl, if_neg (Nat.not_le.mpr hgt)]
    have hfull' : (r.model stack capacity).capacity <
        (r.model stack capacity).offset + a.padding + size.toNat := hgt
    exact ⟨(StackModel.push_of_lt hfull').symm, rfl⟩
  · -- a sum that passes the check ends in the mapping, so the push does not fault
    exact absurd ((hr.stackAt.pushMapped_iff hcap hcheck).mpr (hfits hcheck)) hmapped
  -- granted: the older frames keep their bytes and the new one is zeros
  have hkept : r.live.map (frame stack s'.mem) = r.live.map (frame stack r.proc.mem) :=
    map_frame_eq fun b hb => hr.push_eqOn h hb
  have hp := hpushed.pointer_eq
  rw [pushEnd] at hroom
  rw [h, StackRun.grant, if_neg hne, if_pos hroom]
  constructor
  · have hnew : frame stack s'.mem ⟨offset stack r.proc, p, size.toNat⟩ =
        ⟨offset stack r.proc, .zeros (offset stack r.proc + a.padding) size.toNat⟩ := by
      rw [frame, Block.read_of_zero hpushed.zeroed, hp, Nat.add_assoc, Nat.add_sub_cancel_left]
    have hroom' : (r.model stack capacity).offset + a.padding + size.toNat ≤
        (r.model stack capacity).capacity := hroom
    rw [StackModel.push_of_le hroom']
    ext1
    · rfl
    · rfl
    · exact hpushed.offset_eq
    · exact congrArg₂ List.cons hnew hkept
  · rw [hp, Nat.add_assoc]
    rfl

/-- A write into a live block is a write into the block of the model. -/
theorem Inv.model_write (hr : Inv stack capacity r) {i d : ℕ} {bytes : List UInt8}
    (hi : r.live[i]? = some b) (hlen : d + bytes.length ≤ b.size) :
    ({ r with proc := r.proc.withMem (r.proc.mem.store (b.pointer + d) bytes) } : StackRun).model
        stack capacity =
      (r.model stack capacity).step (.write i d bytes) := by
  have hblocks : r.live.Pairwise fun b c =>
      Disjoint (Memory.range b.pointer b.size) (Memory.range c.pointer c.size) :=
    hr.pairwise_range.imp fun {b c} h =>
      h.mono (Inv.block_subset_range b) (Inv.block_subset_range c)
  have hframes : r.live.map (frame stack (r.proc.mem.store (b.pointer + d) bytes)) =
      (r.live.map (frame stack r.proc.mem)).modify i
        fun f => { f with block := f.block.write d bytes } :=
    Block.map_read_store (fun b x => Frame.mk b.before x) (fun _ _ => rfl) hi hblocks hlen
  ext1
  · rfl
  · rfl
  · exact hr.offset_write (List.mem_of_getElem? hi) hlen
  · exact hframes

/-- A write that does not fit is none in the model. -/
theorem model_write_none {i d : ℕ} {bytes : List UInt8}
    (h : ∀ b, r.live[i]? = some b → b.size < d + bytes.length) :
    r.model stack capacity = (r.model stack capacity).step (.write i d bytes) := by
  refine congrArg (StackModel.mk _ _ _) (Block.modify_of_fixed fun x hx => ?_).symm
  obtain ⟨b, hb, rfl⟩ := Option.map_eq_some_iff.mp (List.getElem?_map.symm.trans hx)
  refine congrArg (Frame.mk _) (Block.write_of_lt ?_)
  rw [frame, Block.length_read]
  exact h b hb

/-- Every step whose sum fits is the step of the model, and is answered as there. -/
theorem Inv.model_step (hr : Inv stack capacity r)
    (hcap : capacity.toNat + sizeofMemStack < 2 ^ 64) (hfits : r.Fits stack capacity op) :
    (r.step stack op).model stack capacity = (r.model stack capacity).step op ∧
      r.result stack op =
        .ok (((r.model stack capacity).answer op).elim NULL (stackBase stack + ·)) := by
  have hlookup : ∀ i, (r.model stack capacity).frames[i]? =
      r.live[i]?.map (frame stack r.proc.mem) := fun i => List.getElem?_map
  -- moving the offset leaves the bytes of every frame
  have hkept : ∀ (v : UInt64) (i : ℕ), (r.live.drop i).map
      (frame stack (setCurrentOffset stack v r.proc.mem)) =
        (r.live.map (frame stack r.proc.mem)).drop i := by
    intro v i
    rw [← List.map_drop]
    exact map_frame_eq fun b hb => hr.setCurrentOffset_eqOn v (List.mem_of_mem_drop hb)
  cases op with
  | push size =>
    obtain ⟨hmodel, hout⟩ := hr.model_push hcap (hfits size .arena rfl)
    rw [StackModel.answer_of_request rfl]
    exact ⟨hmodel, hout⟩
  | pushAlign size a =>
    obtain ⟨hmodel, hout⟩ := hr.model_push hcap (hfits size a rfl)
    rw [StackModel.answer_of_request rfl]
    exact ⟨hmodel, hout⟩
  | pop i =>
    refine ⟨?_, rfl⟩
    simp only [StackRun.step, StackModel.step, hlookup]
    cases hi : r.live[i]? with
    | none => rfl
    | some b =>
      have hb := List.mem_of_getElem? hi
      have hbase := (hr.intact b hb).base_le
      -- the source compares addresses, the model offsets
      have hiff : PopPasses stack capacity b.pointer ↔
          (frame stack r.proc.mem b).block.offset < reach stack capacity :=
        popPasses_iff (by omega)
      dsimp only [Option.map_some]
      obtain ⟨hpass, h⟩ | ⟨hpass, h⟩ := hr.stackPop_cases hb
      · rw [h]
        ext1
        · rfl
        · rfl
        · rw [if_pos (show _ < (r.model stack capacity).reach from hiff.mp hpass)]
          exact (offset_setCurrentOffset _).trans (hr.toNat_before hb)
        · exact hkept _ _
      · rw [h]
        ext1
        · rfl
        · rfl
        · rw [if_neg (show ¬ _ < (r.model stack capacity).reach from mt hiff.mpr hpass)]
          rfl
        · exact List.map_drop
  | popAll =>
    refine ⟨?_, rfl⟩
    ext1
    · rfl
    · rfl
    · exact offset_setCurrentOffset _
    · rfl
  | write i d bytes =>
    refine ⟨?_, rfl⟩
    simp only [StackRun.step]
    cases hi : r.live[i]? with
    | none => exact model_write_none (by simp [hi])
    | some b =>
      dsimp only
      split
      · next hlen => exact hr.model_write hi hlen
      · next hlen =>
        refine model_write_none fun c hc => ?_
        obtain rfl : b = c := Option.some.inj (hi.symm.trans hc)
        exact Nat.not_le.mp hlen

end StackRun

end AgentResources
