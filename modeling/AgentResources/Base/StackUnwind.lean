import AgentResources.Base.Locality

/-!
# Unwinding a stack

`stack_pop` may be called with an older block than the newest. It then does what popping the newer
blocks one after another and the older one last does, to the last byte of the process. Where blocks
are not empty and the stack ends below twice its base address, a pop leaves no gap: the frames of
the live blocks lie one on the other from the base up to the offset, and `stack_pop_all` is popping
all of them.

## Main results

* `stackRun_unwind`: a pop of an older block is a pop of each newer one and of it;
* `stackRun_unwind_all`: the frames have no gaps, and `stack_pop_all` is a pop of each block.
-/

namespace AgentResources

/-- Only the offset that was set last is there. -/
theorem setCurrentOffset_setCurrentOffset (stack : ℕ) (v w : UInt64) (m : Memory) :
    setCurrentOffset stack w (setCurrentOffset stack v m) = setCurrentOffset stack w m := by
  rw [setCurrentOffset, memStack_setCurrentOffset]
  exact Memory.storeAs_storeAs m stack _ _

namespace StackRun

variable {stack : ℕ} {capacity : UInt64} {r : StackRun} {op : StackOp} {b : StackBlock}

/-- An older block that is refused is below a newer one that is refused as well. -/
theorem Inv.popPasses_of_newer (hr : Inv stack capacity r) {i j : ℕ} {c : StackBlock}
    (hij : i < j) (hc : r.live[i]? = some c) (hb : r.live[j]? = some b)
    (hpass : PopPasses stack capacity c.pointer) : PopPasses stack capacity b.pointer := by
  obtain ⟨w, -, hframes⟩ := hr.refines
  have hframe : w.frames[j]? = some (b.frame stack) := by
    rw [hframes, List.getElem?_map, hb, Option.map_some]
  have hmem : c.frame stack ∈ w.frames.take j := by
    obtain ⟨hi, rfl⟩ := List.getElem?_eq_some_iff.mp hc
    refine List.mem_take_iff_getElem.mpr ⟨i, ?_, ?_⟩
    · rw [hframes, List.length_map]
      omega
    · simp only [hframes, List.getElem_map]
  -- the older frame ends where the newer one begins, or earlier
  have hle := w.le_of_mem_take hframe hmem
  have hbase := (hr.intact c (List.mem_of_getElem? hc)).base_le
  simp only [StackBlock.frame] at hle
  obtain ⟨hend, htwice⟩ := hpass
  exact ⟨by omega, by omega⟩

/-- Popping the newest block first does not change what popping an older one does. -/
theorem Inv.step_pop_succ (hr : Inv stack capacity r) {i : ℕ} (hb : r.live[i + 1]? = some b) :
    r.step stack (.pop (i + 1)) = (r.step stack (.pop 0)).step stack (.pop i) := by
  obtain ⟨c, hc⟩ : ∃ c, r.live[0]? = some c := by
    have hlen := (List.getElem?_eq_some_iff.mp hb).1
    exact ⟨_, List.getElem?_eq_getElem (by omega)⟩
  have hinv := hr.pop hc
  have hdrop : (r.live.drop 1)[i]? = some b := by
    rw [List.getElem?_drop, Nat.add_comm, hb]
  have hpop : stackPop stack b.pointer (stackPop stack c.pointer r.proc) =
      stackPop stack b.pointer r.proc := by
    have hnewest := hr.stackPop_cases (List.mem_of_getElem? hc)
    have hbefore := hr.stackPop_cases (List.mem_of_getElem? hb)
    have hafter := hinv.stackPop_cases (List.mem_of_getElem? hdrop)
    dsimp only at hafter
    obtain ⟨hpass, hpop⟩ | ⟨-, hpop⟩ := hnewest
    · -- the address of the older block passes too, and the offset is set twice
      have hpass' := hr.popPasses_of_newer (Nat.succ_pos i) hc hb hpass
      obtain ⟨-, hfirst⟩ | ⟨hnot, -⟩ := hbefore
      · obtain ⟨-, hsecond⟩ | ⟨hnot, -⟩ := hafter
        · rw [hsecond, hfirst, hpop]
          simp only [Proc.withMem, setCurrentOffset_setCurrentOffset]
        · exact absurd hpass' hnot
      · exact absurd hpass' hnot
    · rw [hpop]
  simp only [StackRun.step, hb, hc, hdrop, hpop]
  rw [List.drop_drop, Nat.add_comm 1]

/-- A pop of an older block is a pop of each newer one, and of it. -/
theorem Inv.step_pop (hr : Inv stack capacity r) {i : ℕ} (hi : i < r.live.length) :
    r.step stack (.pop i) = (List.replicate (i + 1) (.pop 0)).foldl (StackRun.step stack) r := by
  induction i generalizing r with
  | zero => rfl
  | succ i ih =>
    have hlen : i < (r.step stack (.pop 0)).live.length := by
      simp only [StackRun.step, List.getElem?_eq_getElem (show 0 < r.live.length by omega),
        List.length_drop]
      omega
    rw [hr.step_pop_succ (List.getElem?_eq_getElem hi), List.replicate_succ, List.foldl_cons]
    exact ih (hr.step _) hlen

/-! ## Without gaps -/

/-- A push asks for a byte at least. -/
def Sized (op : StackOp) : Prop := ∀ size a, op.request = some (size, a) → 0 < size.toNat

/-- What is handed out are the frames of the live blocks, one on the other. -/
def NoGaps (stack : ℕ) (r : StackRun) : Prop :=
  Nesting.Tiles (stackBase stack) (stackBase stack + offset stack r.proc)
    (r.live.map (·.frame stack))

/-- What a run without gaps keeps. -/
structure GapInv (stack : ℕ) (capacity : UInt64) (r : StackRun) : Prop
    extends NestedInv stack capacity r where
  noGaps : NoGaps stack r

namespace GapInv

/-- A push puts its frame on top. -/
theorem grant (hr : GapInv stack capacity r) {size : UInt64} (a : Alignment)
    (hsize : 0 < size.toNat) :
    GapInv stack capacity (r.grant stack size (stackPushAlign stack size a.value r.proc)) := by
  have hinv := hr.toInv.grant size a
  obtain ⟨-, h⟩ | ⟨-, -, h⟩ | ⟨-, -, p, s', h, hne, hpushed⟩ := hr.stackAt.push_cases size a
  · rw [h, StackRun.grant, if_pos rfl]
    exact hr
  · rw [h]
    exact hr
  rw [h, StackRun.grant, if_neg hne] at hinv ⊢
  refine ⟨⟨hinv, List.forall_mem_cons.mpr ⟨hsize, hr.size_pos⟩⟩, ?_, hr.noGaps⟩
  show p + size.toNat = stackBase stack + offset stack s'
  rw [hpushed.offset_eq, pushEnd, hpushed.pointer_eq]
  omega

/-- A step keeps the frames without a gap. -/
theorem step (hr : GapInv stack capacity r) (hop : Sized op)
    (hbelow : BelowTwiceBase stack capacity) : GapInv stack capacity (r.step stack op) := by
  have hinv := hr.toInv.step op
  cases op with
  | push size => exact hr.grant .arena (hop size .arena rfl)
  | pushAlign size a => exact hr.grant a (hop size a rfl)
  | pop i =>
    simp only [StackRun.step] at hinv ⊢
    cases hi : r.live[i]? with
    | none => exact hr
    | some b =>
      have hb := List.mem_of_getElem? hi
      rw [hi] at hinv
      refine ⟨⟨hinv, fun c hc => hr.size_pos c (List.mem_of_mem_drop hc)⟩, ?_⟩
      -- the offset goes back to where the frame begins
      have hframe : (r.live.map (·.frame stack))[i]? = some (b.frame stack) := by
        rw [List.getElem?_map, hi, Option.map_some]
      have hdrop := hr.noGaps.drop hframe
      rw [NoGaps]
      dsimp only
      rw [hr.toNestedInv.stackPop_eq hbelow hb, offset_setCurrentOffset, hr.toInv.toNat_before hb,
        List.map_drop]
      exact hdrop
  | popAll =>
    refine ⟨⟨hinv, by simp [StackRun.step]⟩, ?_⟩
    rw [NoGaps]
    simp only [StackRun.step, stackPopAll, offset_setCurrentOffset]
    rfl
  | write i d bytes =>
    simp only [StackRun.step] at hinv ⊢
    cases hi : r.live[i]? with
    | none => exact hr
    | some b =>
      rw [hi] at hinv
      dsimp only at hinv ⊢
      split
      · next hlen =>
        rw [if_pos hlen] at hinv
        refine ⟨⟨hinv, hr.size_pos⟩, ?_⟩
        rw [NoGaps]
        dsimp only
        rw [hr.toInv.offset_write (List.mem_of_getElem? hi) hlen]
        exact hr.noGaps
      · exact hr

/-- Popping all is popping each block. -/
theorem step_popAll (hr : GapInv stack capacity r) (hbelow : BelowTwiceBase stack capacity) :
    r.step stack .popAll =
      (List.replicate r.live.length (.pop 0)).foldl (StackRun.step stack) r := by
  cases hlen : r.live.length with
  | zero =>
    -- no block, and the offset is zero already
    have hnil : r.live = [] := List.length_eq_zero_iff.mp hlen
    have hgaps := hr.noGaps
    rw [NoGaps, hnil] at hgaps
    have hzero : (memStack r.proc.mem stack).currentOffset = 0 := by
      apply UInt64.toNat_inj.mp
      rw [UInt64.toNat_zero]
      exact Nat.add_left_cancel hgaps
    have hmem := setCurrentOffset_self stack r.proc.mem
    rw [hzero] at hmem
    rw [List.replicate_zero, List.foldl_nil, StackRun.step, stackPopAll, hmem, ← hnil]
    rfl
  | succ n =>
    -- the frame of the oldest block begins at the base
    have hb : r.live[n]? = some (r.live[n]) := List.getElem?_eq_getElem (by omega)
    have hframe : (r.live.map (·.frame stack))[n]? = some (r.live[n].frame stack) := by
      rw [List.getElem?_map, hb, Option.map_some]
    have hbottom := hr.noGaps.eq_bottom hframe (by rw [List.length_map, hlen])
    have hbefore : r.live[n].before = 0 := by
      simp only [StackBlock.frame] at hbottom
      omega
    have hnone : r.live.drop (n + 1) = [] := by rw [← hlen, List.drop_length]
    rw [← hr.toInv.step_pop (by omega)]
    simp only [StackRun.step, hb, hnone]
    rw [hr.toNestedInv.stackPop_eq hbelow (List.getElem_mem _), hbefore, stackPopAll]
    rfl

end GapInv

end StackRun

open StackRun in
/-- After every run, a pop of an older block leaves the process as it is after a pop of each newer
one, newest first, and of it. -/
theorem stackRun_unwind (k : Kernel) (capacity : UInt64) (s : Proc) (ops : List StackOp)
    (hcreate : (stackCreate k capacity s).1 ≠ NULL) :
    let r := ops.foldl (step (stackCreate k capacity s).1) (start k capacity s)
    ∀ i, i < r.live.length →
      r.step (stackCreate k capacity s).1 (.pop i) =
        (List.replicate (i + 1) (.pop 0)).foldl (step (stackCreate k capacity s).1) r := by
  intro r i hi
  have hr : Inv (stackCreate k capacity s).1 capacity r :=
    Run.foldl_invariant (fun _ op hr _ => hr.step op) (Inv.start hcreate)
      (Run.along_of_forall_mem fun _ _ _ => trivial)
  exact hr.step_pop hi

/-- A small block below one with an alignment of its own. -/
def sampleStackOps : List StackOp := [.push 8, .pushAlign 5 ⟨2, 1, rfl⟩]

theorem sampleStackOps_sized : ∀ op ∈ sampleStackOps, StackRun.Sized op := by
  intro op hop size a hreq
  simp only [sampleStackOps, List.mem_cons, List.not_mem_nil, or_false] at hop
  rcases hop with rfl | rfl
  all_goals
    cases hreq
    decide

open StackRun in
theorem stackRun_unwind_sample :
    (sampleStackOps.foldl (step (stackCreate Kernel.above 64 Proc.fresh).1)
      (start Kernel.above 64 Proc.fresh)).step (stackCreate Kernel.above 64 Proc.fresh).1 (.pop 1) =
        [.pop 0, .pop 0].foldl (step (stackCreate Kernel.above 64 Proc.fresh).1)
          (sampleStackOps.foldl (step (stackCreate Kernel.above 64 Proc.fresh).1)
            (start Kernel.above 64 Proc.fresh)) :=
  stackRun_unwind Kernel.above 64 Proc.fresh sampleStackOps (by decide +kernel) 1
    (by decide +kernel)

open StackRun in
/-- After every run of a stack below twice its base address whose pushes are not empty, the frames
of the live blocks lie one on the other from the base up to the offset, and `stack_pop_all` leaves
the process as it is after a pop of each block, newest first. -/
theorem stackRun_unwind_all (k : Kernel) (capacity : UInt64) (s : Proc) (ops : List StackOp)
    (hcreate : (stackCreate k capacity s).1 ≠ NULL)
    (hbelow : BelowTwiceBase (stackCreate k capacity s).1 capacity)
    (hops : ∀ op ∈ ops, Sized op) :
    let r := ops.foldl (step (stackCreate k capacity s).1) (start k capacity s)
    NoGaps (stackCreate k capacity s).1 r ∧
      r.step (stackCreate k capacity s).1 .popAll =
        (List.replicate r.live.length (.pop 0)).foldl (step (stackCreate k capacity s).1) r := by
  intro r
  have hstart : GapInv (stackCreate k capacity s).1 capacity (start k capacity s) := by
    refine ⟨⟨Inv.start hcreate, by simp [start]⟩, ?_⟩
    show stackBase _ + offset _ (start k capacity s).proc = stackBase _
    rw [start, (stackAt_create hcreate).2, Nat.add_zero]
  have hr : GapInv (stackCreate k capacity s).1 capacity r :=
    Run.foldl_invariant (fun _ _ hr hop => hr.step hop hbelow) hstart
      (Run.along_of_forall_mem fun op hop _ => hops op hop)
  exact ⟨hr.noGaps, hr.step_popAll hbelow⟩

open StackRun in
theorem stackRun_unwind_all_sample :
    (sampleStackOps.foldl (step (stackCreate Kernel.above 64 Proc.fresh).1)
      (start Kernel.above 64 Proc.fresh)).step (stackCreate Kernel.above 64 Proc.fresh).1 .popAll =
        (List.replicate (sampleStackOps.foldl (step (stackCreate Kernel.above 64 Proc.fresh).1)
            (start Kernel.above 64 Proc.fresh)).live.length (.pop 0)).foldl
          (step (stackCreate Kernel.above 64 Proc.fresh).1)
          (sampleStackOps.foldl (step (stackCreate Kernel.above 64 Proc.fresh).1)
            (start Kernel.above 64 Proc.fresh)) :=
  (stackRun_unwind_all Kernel.above 64 Proc.fresh sampleStackOps (by decide +kernel)
    (by rw [BelowTwiceBase]; decide +kernel) sampleStackOps_sized).2

end AgentResources
