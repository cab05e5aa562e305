import AgentResources.Base.Stack
import AgentResources.Foundations.Run

/-!
# Popping in any order

A user may pop a pointer again, or after an older one. `stack_pop` compares the address with twice
the base address and not with the current offset, so it pops a block that is released already. What
it reads in front of such a block is the padding of the push that gave the block out, or of a later
one, or zero; `PopRun.Inv` says that it is no more than the distance of the block from the base.

A run keeps, as ghost state, all pointers that pushes have returned, oldest first.

## Main results

* `stackPop_kept_iff`: along every run, pops leave released blocks alone iff every pop of a released
  block is refused or finds the distance of the block from the offset.
-/

namespace AgentResources

/-- A push, to any alignment, or a pop. -/
inductive PopOp
  /-- `stack_push` of `size` bytes. -/
  | push (size : UInt64)
  /-- `stack_push_align` of `size` bytes. -/
  | pushAlign (size alignment : UInt64)
  /-- `stack_pop` of the `i`-th pointer that was returned. -/
  | pop (i : ℕ)

/-- The size and the alignment an operation asks for. -/
def PopOp.request : PopOp → Option (UInt64 × UInt64)
  | .push size => some (size, ARENA_ALIGN)
  | .pushAlign size alignment => some (size, alignment)
  | .pop _ => none

/-- The state of a run. -/
structure PopRun where
  /-- The process. -/
  proc : Proc
  /-- The pointers pushes have returned. -/
  returned : List ℕ

namespace PopRun

variable {stack : ℕ} {capacity : UInt64} {r : PopRun} {op : PopOp} {p : ℕ}

/-- The state right after `stackCreate`. -/
def start (k : Kernel) (capacity : UInt64) (s : Proc) : PopRun where
  proc := (stackCreate k capacity s).2
  returned := []

/-- Continue after a push. A push that does not return leaves the run where it is. -/
def grant (r : PopRun) : Except Halt (ℕ × Proc) → PopRun
  | .error _ => r
  | .ok (p, s) => { proc := s, returned := if p = NULL then r.returned else r.returned ++ [p] }

/-- One step of a run. -/
def step (stack : ℕ) (r : PopRun) : PopOp → PopRun
  | .push size => r.grant (stackPush stack size r.proc)
  | .pushAlign size alignment => r.grant (stackPushAlign stack size alignment r.proc)
  | .pop i =>
    match r.returned[i]? with
    | none => r
    | some p => { r with proc := stackPop stack p r.proc }

/-- A block at `p` is released: it begins at the offset or above. -/
def Released (stack : ℕ) (r : PopRun) (p : ℕ) : Prop :=
  stackBase stack + offset stack r.proc ≤ p

instance : Decidable (r.Released stack p) := inferInstanceAs (Decidable (_ ≤ _))

/-- A pop of a released block changes nothing, no pop moves the offset up, and a released block
stays released. -/
def PopKept (stack : ℕ) (r : PopRun) : PopOp → Prop
  | .pop i => ∀ p, r.returned[i]? = some p →
    (r.Released stack p → stackPop stack p r.proc = r.proc) ∧
    offset stack (stackPop stack p r.proc) ≤ offset stack r.proc ∧
    ∀ q ∈ r.returned, r.Released stack q → (r.step stack (.pop i)).Released stack q
  | _ => True

/-- A pop of a released block is refused, or the byte in front of the block is its distance from the
offset. -/
def PopSpares (stack : ℕ) (capacity : UInt64) (r : PopRun) : PopOp → Prop
  | .pop i => ∀ p, r.returned[i]? = some p → r.Released stack p → PopPasses stack capacity p →
    stackBase stack + offset stack r.proc +
      (r.proc.mem.byte (p - sizeofMemStackHeader)).toNat = p
  | _ => True

/-! ## The invariant -/

/-- The byte in front of a block is no more than the distance of the block from the base. -/
def Bounded (stack : ℕ) (s : Proc) (p : ℕ) : Prop :=
  stackBase stack + sizeofMemStackHeader ≤ p ∧ p + 128 < 2 ^ 64 ∧
    stackBase stack + (s.mem.byte (p - sizeofMemStackHeader)).toNat ≤ p

/-- What a run keeps. -/
structure Inv (stack : ℕ) (capacity : UInt64) (r : PopRun) : Prop where
  stackAt : StackAt stack capacity r.proc
  bounded : ∀ p ∈ r.returned, Bounded stack r.proc p

/-- Both kinds of push are one to an alignment. -/
theorem step_of_request {size alignment : UInt64} (h : op.request = some (size, alignment)) :
    r.step stack op = r.grant (stackPushAlign stack size alignment r.proc) := by
  cases op with
  | push size' =>
    obtain ⟨rfl, rfl⟩ := Prod.mk.inj (Option.some.inj h)
    rfl
  | pushAlign size' alignment' =>
    obtain ⟨rfl, rfl⟩ := Prod.mk.inj (Option.some.inj h)
    rfl
  | pop i => cases h

namespace Inv

/-- A run begins with the invariant. -/
theorem start {k : Kernel} {s : Proc} (h : (stackCreate k capacity s).1 ≠ NULL) :
    Inv (stackCreate k capacity s).1 capacity (PopRun.start k capacity s) where
  stackAt := (stackAt_create h).1
  bounded := by simp [PopRun.start]

/-- A push keeps the invariant. -/
theorem grant (hr : Inv stack capacity r) (size : UInt64) (a : Alignment) :
    Inv stack capacity (r.grant (stackPushAlign stack size a.value r.proc)) := by
  have hheader := a.sizeofMemStackHeader_le_padding
  have hpadding := a.padding_le
  obtain ⟨-, h⟩ | ⟨-, -, h⟩ | ⟨-, -, p, s', h, hne, hpushed⟩ := hr.stackAt.push_cases size a
  · rw [h, PopRun.grant, if_pos rfl]
    exact hr
  · rw [h]
    exact hr
  have hvalue : (UInt8.ofNat a.padding).toNat = a.padding := by
    rw [UInt8.toNat_ofNat', Nat.mod_eq_of_lt (by omega)]
  have hp := hpushed.pointer_eq
  have hlt := hpushed.stackAt.offset_lt
  rw [hpushed.offset_eq, pushEnd] at hlt
  -- the pointers from before, then the new one
  rw [h, PopRun.grant, if_neg hne]
  refine ⟨hpushed.stackAt, fun q hq => ?_⟩
  rcases List.mem_append.mp hq with hq | hq
  · -- the push writes to the byte in front of `q` a zero, or the padding of a block at `q`
    obtain ⟨hlo, hhi, hold⟩ := hr.bounded q hq
    refine ⟨hlo, hhi, ?_⟩
    dsimp only
    rcases hpushed.byte_cases (x := q - sizeofMemStackHeader) (by omega) with
      hsame | hzero | ⟨hx, hnew⟩
    · rw [hsame]
      exact hold
    · rw [hzero, UInt8.toNat_zero]
      omega
    · rw [hnew, hvalue]
      omega
  · obtain rfl := List.mem_singleton.mp hq
    refine ⟨by omega, by omega, ?_⟩
    rw [hpushed.header_eq, hvalue]
    omega

/-- Moving the offset leaves the bytes in front of blocks alone. -/
theorem setCurrent (hr : Inv stack capacity r) {v : UInt64} (hv : v.toNat ≤ capacity.toNat)
    (hlt : stackBase stack + v.toNat + 128 < 2 ^ 64) :
    Inv stack capacity
      { r with proc := r.proc.withMem (setCurrentOffset stack v r.proc.mem) } := by
  refine ⟨hr.stackAt.setCurrent hv hlt, fun q hq => ?_⟩
  obtain ⟨hlo, hhi, hold⟩ := hr.bounded q hq
  refine ⟨hlo, hhi, ?_⟩
  rw [Proc.mem_withMem, setCurrentOffset_eqOn]
  · exact hold
  · rw [Set.mem_compl_iff, Set.mem_Ico]
    rw [stackBase] at hlo
    omega

/-- A pop of a pointer that was returned moves the offset to the distance of the block from the
base, less the byte in front of it, if the address passes the comparisons. -/
theorem stackPop_cases (hr : Inv stack capacity r) (hp : p ∈ r.returned) :
    (PopPasses stack capacity p ∧ ∃ v : UInt64,
      stackBase stack + v.toNat + (r.proc.mem.byte (p - sizeofMemStackHeader)).toNat = p ∧
      v.toNat ≤ capacity.toNat ∧ stackBase stack + v.toNat + 128 < 2 ^ 64 ∧
      stackPop stack p r.proc = r.proc.withMem (setCurrentOffset stack v r.proc.mem)) ∨
    (¬ PopPasses stack capacity p ∧ stackPop stack p r.proc = r.proc) := by
  obtain ⟨hlo, hhi, hbyte⟩ := hr.bounded p hp
  obtain ⟨hpasses, hrefused⟩ := hr.stackAt.stackPop_eq (p := p) (by omega) (by omega)
  -- the byte is no more than the distance from the base, so nothing wraps
  have hvalue : (UInt64.ofNat p - (r.proc.mem.byte (p - sizeofMemStackHeader)).toUInt64 -
      UInt64.ofNat (stackBase stack)).toNat =
        p - (r.proc.mem.byte (p - sizeofMemStackHeader)).toNat - stackBase stack := by
    simp only [UInt64.toNat_sub, UInt64.toNat_ofNat', UInt8.toNat_toUInt64]
    omega
  by_cases h : PopPasses stack capacity p
  · have hend := h.1.trans_le (Nat.mod_le _ _)
    refine .inl ⟨h, _, ?_, ?_, ?_, hpasses h⟩
    · rw [hvalue]
      omega
    · rw [hvalue]
      omega
    · rw [hvalue]
      omega
  · exact .inr ⟨h, hrefused h⟩

/-- Every step keeps the invariant. -/
theorem step (hr : Inv stack capacity r) (op : PopOp) : Inv stack capacity (r.step stack op) := by
  have hgrant : ∀ size alignment, op.request = some (size, alignment) →
      Inv stack capacity (r.step stack op) := by
    intro size alignment hreq
    rw [step_of_request hreq]
    by_cases hpow : isPow alignment
    · by_cases hne : alignment = 0
      · -- the program stops
        rw [hne, stackPushAlign_zero]
        exact hr
      · obtain ⟨a, rfl⟩ := exists_alignment hpow hne
        exact hr.grant size a
    · rw [stackPushAlign, if_pos hpow, PopRun.grant, if_pos rfl]
      exact hr
  cases op with
  | push size => exact hgrant size _ rfl
  | pushAlign size alignment => exact hgrant size alignment rfl
  | pop i =>
    cases hi : r.returned[i]? with
    | none => simpa only [PopRun.step, hi] using hr
    | some p =>
      simp only [PopRun.step, hi]
      obtain ⟨-, v, -, hv, hlt, h⟩ | ⟨-, h⟩ := hr.stackPop_cases (List.mem_of_getElem? hi)
      · rw [h]
        exact hr.setCurrent hv hlt
      · rw [h]
        exact hr

/-- A pop leaves released blocks alone iff it is refused or goes to where the offset is. -/
theorem popKept_iff (hr : Inv stack capacity r) :
    r.PopKept stack op ↔ r.PopSpares stack capacity op := by
  cases op with
  | push size => exact Iff.rfl
  | pushAlign size alignment => exact Iff.rfl
  | pop i =>
    refine forall_congr' fun p => forall_congr' fun hi => ?_
    have hstep : r.step stack (.pop i) = { r with proc := stackPop stack p r.proc } := by
      simp only [PopRun.step, hi]
    rw [hstep]
    obtain ⟨hpasses, v, hv, -, -, h⟩ | ⟨hrefused, h⟩ := hr.stackPop_cases (List.mem_of_getElem? hi)
    · constructor
      · rintro ⟨hsame, -, -⟩ hreleased -
        -- a pop that changed nothing set the offset to what it was
        have hoffset : offset stack (r.proc.withMem (setCurrentOffset stack v r.proc.mem)) =
            v.toNat := offset_setCurrentOffset v
        rw [← h, hsame hreleased] at hoffset
        rw [hoffset]
        exact hv
      · intro hspares
        have hle : v.toNat ≤ offset stack r.proc := by
          by_cases hreleased : r.Released stack p
          · have := hspares hreleased hpasses
            omega
          · rw [Released] at hreleased
            omega
        rw [h]
        refine ⟨fun hreleased => ?_, ?_, fun q _ hq => ?_⟩
        · -- the offset is set to what it was
          have hsame : v = (memStack r.proc.mem stack).currentOffset := by
            have := hspares hreleased hpasses
            refine UInt64.toNat_inj.mp ?_
            rw [← offset]
            omega
          rw [hsame, setCurrentOffset_self]
          rfl
        · rw [offset_setCurrentOffset]
          exact hle
        · rw [Released, offset_setCurrentOffset]
          exact (Nat.add_le_add_left hle _).trans hq
    · rw [h]
      exact iff_of_true ⟨fun _ => rfl, le_rfl, fun _ _ hq => hq⟩
        fun _ hpasses => absurd hpasses hrefused

end Inv

end PopRun

open PopRun in
/-- Along every run, pops leave released blocks alone iff every pop of a released block is refused or
finds in front of the block its distance from the offset. -/
theorem stackPop_kept_iff (k : Kernel) (capacity : UInt64) (s : Proc) (ops : List PopOp)
    (hcreate : (stackCreate k capacity s).1 ≠ NULL) :
    Run.Along (step (stackCreate k capacity s).1) (PopKept (stackCreate k capacity s).1)
        (start k capacity s) ops ↔
      Run.Along (step (stackCreate k capacity s).1)
        (PopSpares (stackCreate k capacity s).1 capacity) (start k capacity s) ops :=
  Run.along_iff_of_invariant (Inv (stackCreate k capacity s).1 capacity)
    (fun _ op hr _ _ => hr.step op) (fun _ _ hr _ => hr.popKept_iff) (Inv.start hcreate)
    (Run.along_of_forall_mem fun _ _ _ => trivial)

open PopRun in
/-- A block popped twice in a row leaves the stack as the first pop does. -/
theorem stackPop_kept_iff_twice :
    Run.Along (step (stackCreate Kernel.above 256 Proc.fresh).1)
      (PopKept (stackCreate Kernel.above 256 Proc.fresh).1) (start Kernel.above 256 Proc.fresh)
      [.push 8, .push 8, .pop 1, .pop 1, .pop 0] := by
  refine (stackPop_kept_iff Kernel.above 256 Proc.fresh _ (by decide +kernel)).mpr ?_
  have hpop : ∀ (r : PopRun) (i p : ℕ), r.returned[i]? = some p →
      (r.Released (stackCreate Kernel.above 256 Proc.fresh).1 p →
        stackBase (stackCreate Kernel.above 256 Proc.fresh).1 +
          offset (stackCreate Kernel.above 256 Proc.fresh).1 r.proc +
          (r.proc.mem.byte (p - sizeofMemStackHeader)).toNat = p) →
      r.PopSpares (stackCreate Kernel.above 256 Proc.fresh).1 256 (.pop i) := by
    intro r i p hi hbyte q hq hreleased _
    obtain rfl := Option.some.inj (hi.symm.trans hq)
    exact hbyte hreleased
  refine ⟨trivial, trivial, hpop _ 1 4160 ?_ ?_, hpop _ 1 4160 ?_ ?_, hpop _ 0 4136 ?_ ?_,
    trivial⟩
  all_goals decide +kernel

open PopRun in
/-- A block that was released with an older one is popped, and the offset moves up to where it was
before the block was pushed. -/
theorem not_stackPop_kept :
    ¬ ∀ (k : Kernel) (capacity : UInt64) (s : Proc) (ops : List PopOp),
      (stackCreate k capacity s).1 ≠ NULL →
        Run.Along (step (stackCreate k capacity s).1) (PopKept (stackCreate k capacity s).1)
          (start k capacity s) ops := by
  intro hall
  obtain ⟨-, -, -, hpop, -⟩ := hall Kernel.above 256 Proc.fresh
    [.push 8, .push 8, .pop 0, .pop 1] (by decide +kernel)
  -- the offset is zero before the pop and 24 after it
  obtain ⟨-, hle, -⟩ := hpop 4160 (by decide +kernel)
  exact absurd hle (by decide +kernel)

end AgentResources
