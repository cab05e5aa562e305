import AgentResources.Base.ArenaResize

/-!
# The contract of a resize

What a caller expects of `arena_resize`: the null pointer and nothing changed, or a block of the new
size with the old contents and zeros after them. The contract is decided for every live block of
every reachable arena (`LatestInv.resizeContract_iff`). A block that shrinks at the end of the arena
meets it. A block that grows there meets it only by chance, since the clear goes to the header
instead of the bytes the block gains; and a block elsewhere does not, since its copy is not
returned.

That a nonempty block which starts at the previous position is above every other live block
(`LatestInv`) is what keeps a growth in place apart from the others.

## Main definitions

* `ArenaRun.ResizeContract`: what a caller expects;
* `ArenaRun.ResizeSound`: when a resize gives it.
-/

namespace AgentResources

namespace ArenaRun

variable {arena : ℕ} {capacity : UInt64} {r : ArenaRun} {op : ArenaOp} {s : Proc}

/-! ## The latest block -/

theorem previous_allocMem (ha : ArenaAt arena capacity s) (size : UInt64) :
    previous arena (s.withMem (allocMem arena size s.mem)) = position arena s := by
  rw [previous, Proc.mem_withMem, ha.memArena_allocMem]
  rfl

@[simp]
theorem previous_setCurrentPosition (arena : ℕ) (v : UInt64) (s : Proc) :
    previous arena (s.withMem (setCurrentPosition arena v s.mem)) = previous arena s := by
  rw [previous, Proc.mem_withMem, memArena_setCurrentPosition]
  rfl

/-- Every live block but the newest ends at or below the start of the latest allocation. -/
structure LatestInv (arena : ℕ) (capacity : UInt64) (r : ArenaRun) : Prop
    extends Inv arena capacity r where
  latest : ∀ b ∈ r.live.tail, b.2 ≤ arenaBase arena + previous arena r.proc

/-- Filtering takes no block into the tail. -/
theorem mem_tail_of_mem_tail_filter {α : Type} {p : α → Bool} {l : List α} {a : α}
    (h : a ∈ (l.filter p).tail) : a ∈ l.tail := by
  cases l with
  | nil => exact h
  | cons b l =>
    rw [List.filter_cons] at h
    split at h
    · exact List.mem_of_mem_filter h
    · exact List.mem_of_mem_filter (List.mem_of_mem_tail h)

/-- Every step keeps the newest block apart. -/
theorem LatestInv.step (hr : LatestInv arena capacity r) (op : ArenaOp) :
    LatestInv arena capacity (r.step arena op) := by
  refine ⟨hr.toInv.step op, ?_⟩
  -- a step that keeps the previous position only drops blocks
  have hsettle : ∀ p, previous arena p = previous arena r.proc →
      ∀ b ∈ (r.settle arena p r.live).live.tail,
        b.2 ≤ arenaBase arena + previous arena p := by
    intro p hp b hb
    rw [hp]
    exact hr.latest b (mem_tail_of_mem_tail_filter hb)
  have hgrant : ∀ size n, ∀ b ∈ (r.grant arena n (arenaAlloc arena size r.proc)).live.tail,
      b.2 ≤ arenaBase arena +
        previous arena (r.grant arena n (arenaAlloc arena size r.proc)).proc := by
    intro size n
    obtain ⟨-, h⟩ | ⟨-, -, h⟩ | ⟨-, h⟩ := hr.arenaAt.alloc_cases size
    · rw [h, hr.toInv.grant_null]
      exact hr.latest
    · rw [h]
      exact hr.latest
    · -- the older blocks end below the position the new one starts from
      have hne : arenaBase arena + position arena r.proc ≠ NULL := arenaBase_add_ne_null _ _
      rw [h, ArenaRun.grant, if_neg hne, proc_settle, previous_allocMem hr.arenaAt]
      exact fun b hb => hr.live_le b (mem_tail_of_mem_tail_filter hb)
  cases op with
  | alloc size => exact hgrant size _
  | pushArray elemSize len => exact hgrant (elemSize * len) _
  | pop size => exact hsettle _ (previous_setCurrentPosition _ _ _)
  | popTo pos => exact hsettle _ (previous_setCurrentPosition _ _ _)
  | clear => exact hsettle _ (previous_setCurrentPosition _ _ _)
  | tempBegin => exact hr.latest
  | tempEnd i =>
    cases hi : r.temps[i]? with
    | none => simpa only [ArenaRun.step, hi] using hr.latest
    | some temp =>
      obtain ⟨rfl, -⟩ := hr.temps temp (List.mem_of_getElem? hi)
      simp only [ArenaRun.step, hi]
      exact hsettle _ (previous_setCurrentPosition _ _ _)
  | write i offset bytes =>
    cases hi : r.live[i]? with
    | none => simpa only [ArenaRun.step, hi] using hr.latest
    | some b =>
      simp only [ArenaRun.step, hi]
      split
      · -- the user writes after the header
        have hbase := hr.base_le b (List.mem_of_getElem? hi)
        rw [arenaBase] at hbase
        rw [previous, Proc.mem_withMem, memArena_store_of_disjoint (.inl (by omega))]
        exact hr.latest
      · exact hr.latest

theorem LatestInv.start {k : Kernel} (h : (arenaCreate k capacity s).1 ≠ NULL) :
    LatestInv (arenaCreate k capacity s).1 capacity (ArenaRun.start k capacity s) :=
  ⟨inv_start h, by simp [ArenaRun.start]⟩

/-- Every reachable arena keeps the newest block apart. -/
theorem LatestInv.foldl {k : Kernel} (h : (arenaCreate k capacity s).1 ≠ NULL)
    (ops : List ArenaOp) :
    LatestInv (arenaCreate k capacity s).1 capacity
      (ops.foldl (ArenaRun.step (arenaCreate k capacity s).1) (ArenaRun.start k capacity s)) := by
  have hany : Run.Along (ArenaRun.step (arenaCreate k capacity s).1) (fun _ _ => True)
      (ArenaRun.start k capacity s) ops := Run.along_of_forall_mem fun _ _ _ => trivial
  exact Run.foldl_invariant (fun _ op hr _ => hr.step op) (LatestInv.start h) hany

/-- A nonempty block at the start of the latest allocation is above every other live block. -/
theorem LatestInv.end_le_of_isLast (hr : LatestInv arena capacity r) {i : ℕ} {b c : ℕ × ℕ}
    (hi : r.live[i]? = some b) (hlast : r.IsLast arena b) (hc : c ∈ r.live.eraseIdx i) :
    c.2 ≤ b.1 := by
  obtain ⟨hlt, hstart⟩ := hlast
  cases hlive : r.live with
  | nil => simp [hlive] at hi
  | cons a older =>
    have hlatest := hr.latest
    rw [hlive, List.tail_cons] at hlatest
    rw [hlive] at hi hc
    cases i with
    | zero =>
      rw [List.eraseIdx_cons_zero] at hc
      exact hstart ▸ hlatest c hc
    | succ i =>
      -- an older block ends where the latest begins
      rw [List.getElem?_cons_succ] at hi
      have hle := hlatest b (List.mem_of_getElem? hi)
      omega

/-! ## The contract -/

/-- A resize that returned the null pointer and left the arena and the live blocks alone. -/
structure ResizeRefused (arena : ℕ) (r : ArenaRun) (out : ℕ) (s' : Proc) : Prop where
  null : out = NULL
  header : memArena s'.mem arena = memArena r.proc.mem arena
  kept : ∀ c ∈ r.live, Set.EqOn s'.mem.byte r.proc.mem.byte (Set.Ico c.1 c.2)

/-- A resize of the `i`-th block `b` that returned a block of `newSize` bytes inside the capacity,
disjoint from every other live block, with the old contents and zeros after them. -/
structure ResizeDone (arena : ℕ) (capacity : UInt64) (r : ArenaRun) (i : ℕ) (b : ℕ × ℕ)
    (newSize : ℕ) (out : ℕ) (s' : Proc) : Prop where
  ne_null : out ≠ NULL
  inside : arenaBase arena ≤ out ∧ out + newSize ≤ arenaBase arena + capacity.toNat
  disjoint : ∀ c ∈ r.live.eraseIdx i,
    Disjoint (Set.Ico out (out + newSize)) (Set.Ico c.1 c.2)
  copied : ∀ d < min (b.2 - b.1) newSize, s'.mem.byte (out + d) = r.proc.mem.byte (b.1 + d)
  zeroed : ∀ d, b.2 - b.1 ≤ d → d < newSize → s'.mem.byte (out + d) = 0

/-- A resize of the `i`-th live block returns, and was refused or done. -/
def ResizeContract (arena : ℕ) (capacity : UInt64) (r : ArenaRun) (i : ℕ) (b : ℕ × ℕ)
    (newSize : UInt64) : Prop :=
  ∃ out s', arenaResize arena b.1 newSize (UInt64.ofNat (b.2 - b.1)) r.proc = .ok (out, s') ∧
    (ResizeRefused arena r out s' ∨ ResizeDone arena capacity r i b newSize.toNat out s')

/-- The bytes of the block `b` that the misdirected clear of a growth reaches are zero already, and
so are the bytes the block gains that it does not reach. -/
def GrowthClean (arena : ℕ) (r : ArenaRun) (b : ℕ × ℕ) (newSize : ℕ) : Prop :=
  (∀ x, b.1 ≤ x → x < b.2 → x < arena + (newSize - (b.2 - b.1)) → r.proc.mem.byte x = 0) ∧
    ∀ x, b.2 ≤ x → x < b.1 + newSize → arena + (newSize - (b.2 - b.1)) ≤ x →
      r.proc.mem.byte x = 0

/-- When a resize meets its contract: an empty block is allocated afresh, and that returns. Where
the end of the arena wraps any other block is refused. Else the latest block may not grow above the
capacity, and only over clean bytes; any other block may only be given up, right after an empty
allocation. -/
structure ResizeSound (arena : ℕ) (capacity : UInt64) (r : ArenaRun) (b : ℕ × ℕ)
    (newSize : ℕ) : Prop where
  empty : b.2 ≤ b.1 → AllocReturns arena capacity r.proc newSize
  latest : capacity.toNat + sizeofMemArena < 2 ^ 64 → r.IsLast arena b → b.2 - b.1 < newSize →
    previous arena r.proc + newSize ≤ capacity.toNat ∧ GrowthClean arena r b newSize
  other : capacity.toNat + sizeofMemArena < 2 ^ 64 → b.1 < b.2 → ¬ r.IsLast arena b →
    newSize = 0 ∧ previous arena r.proc = position arena r.proc

/-- An empty block is allocated afresh. -/
theorem LatestInv.contract_of_empty (hr : LatestInv arena capacity r) {i : ℕ} {b : ℕ × ℕ}
    (hi : r.live[i]? = some b) (newSize : UInt64) (hempty : b.2 ≤ b.1) :
    ResizeContract arena capacity r i b newSize ↔
      AllocReturns arena capacity r.proc newSize.toNat := by
  have hsize : UInt64.ofNat (b.2 - b.1) = 0 :=
    (hr.size_eq_zero_iff (List.mem_of_getElem? hi)).mpr hempty
  have hresize : arenaResize arena b.1 newSize (UInt64.ofNat (b.2 - b.1)) r.proc =
      arenaAlloc arena newSize r.proc := by
    rw [arenaResize, arenaResizeAlign, if_pos (.inr hsize)]
  rw [ResizeContract, hresize]
  obtain ⟨hfull, h⟩ | ⟨hle, hunmapped, h⟩ | ⟨hroom, h⟩ := hr.arenaAt.alloc_cases newSize
  · -- a refusal is within the contract
    rw [h]
    exact iff_of_true ⟨NULL, r.proc, rfl, .inl ⟨rfl, rfl, fun _ _ _ _ => rfl⟩⟩ (.inl hfull)
  · rw [h]
    refine iff_of_false ?_ ?_
    · rintro ⟨out, s', hout, -⟩
      cases hout
    · rintro (hfull | hroom)
      · exact absurd hle (Nat.not_le.mpr hfull)
      · exact hunmapped hroom.2
  · have hne : arenaBase arena + position arena r.proc ≠ NULL := arenaBase_add_ne_null _ _
    have hinside := hroom.1
    rw [h]
    refine iff_of_true ⟨_, _, rfl, .inr ⟨hne, ⟨Nat.le_add_right _ _, by omega⟩, fun c hc => ?_,
      fun d hd => by omega, fun d _ hd => ?_⟩⟩ (.inr hroom)
    · -- the other blocks end below the position
      have hend := hr.live_le c (List.mem_of_mem_eraseIdx hc)
      refine Set.disjoint_left.mpr fun x hx hxc => ?_
      rw [Set.mem_Ico] at hx hxc
      omega
    · exact hr.arenaAt.load_allocMem newSize (by rw [Set.mem_Ico]; omega)

/-- A byte after the header, once the latest block was resized in place. -/
theorem byte_resizeMem (arena : ℕ) (newSize oldSize : UInt64) (m : Memory) {x : ℕ}
    (hx : arenaBase arena ≤ x) :
    (resizeMem arena newSize oldSize m).byte x =
      if x < arena + (newSize.toNat - oldSize.toNat) then 0 else m.byte x := by
  rw [arenaBase, sizeofMemArena] at hx
  have hset : (setCurrentPosition arena ((memArena m arena).previousPosition + newSize) m).byte x =
      m.byte x := setCurrentPosition_eqOn _ (by rw [Set.mem_compl_iff, Set.mem_Ico]; omega)
  rw [resizeMem]
  by_cases hgrow : newSize > oldSize
  · have hg : (newSize - oldSize).toNat = newSize.toNat - oldSize.toNat :=
      UInt64.toNat_sub_of_le _ _ (UInt64.le_of_lt hgrow)
    rw [if_pos hgrow, hg]
    by_cases hlt : x < arena + (newSize.toNat - oldSize.toNat)
    · rw [if_pos hlt]
      exact Memory.byte_fill_of_mem (by rw [Set.mem_Ico]; omega)
    · rw [if_neg hlt, Memory.byte_fill_of_notMem (by rw [Set.mem_Ico]; omega), hset]
  · rw [gt_iff_lt, UInt64.lt_iff_toNat_lt] at hgrow
    rw [if_neg (by rwa [gt_iff_lt, UInt64.lt_iff_toNat_lt]), if_neg (by omega), hset]

/-- What a resize in place returns meets the contract iff the block does not grow above the capacity
or over bytes that are not clean. -/
theorem LatestInv.done_of_isLast (hr : LatestInv arena capacity r) {i : ℕ} {b : ℕ × ℕ}
    (hi : r.live[i]? = some b) (newSize : UInt64) (hlast : r.IsLast arena b) :
    ResizeDone arena capacity r i b newSize.toNat b.1
        (r.proc.withMem (resizeMem arena newSize (UInt64.ofNat (b.2 - b.1)) r.proc.mem)) ↔
      (b.2 - b.1 < newSize.toNat → previous arena r.proc + newSize.toNat ≤ capacity.toNat ∧
        GrowthClean arena r b newSize.toNat) := by
  have hb : b ∈ r.live := List.mem_of_getElem? hi
  have hbase := hr.base_le b hb
  have hend := hr.live_le b hb
  have hposition := hr.arenaAt.position_le_toNat
  have hsize := hr.toNat_size hb
  have hne := hr.ne_null_of_mem hb
  have hbyte : ∀ x, b.1 ≤ x →
      (resizeMem arena newSize (UInt64.ofNat (b.2 - b.1)) r.proc.mem).byte x =
        if x < arena + (newSize.toNat - (b.2 - b.1)) then 0 else r.proc.mem.byte x := by
    intro x hx
    rw [byte_resizeMem arena _ _ _ (hbase.trans hx), hsize]
  obtain ⟨hlt, hstart⟩ := hlast
  constructor
  · intro hdone hgrow
    have hinside := hdone.inside.2
    refine ⟨by omega, fun x hlo hhi hreach => ?_, fun x hlo hhi hreach => ?_⟩
    · -- an old byte under the clear is zero after it
      have hcopied := hdone.copied (x - b.1) (by omega)
      rw [Proc.mem_withMem, Nat.add_sub_cancel' hlo, hbyte x hlo, if_pos hreach] at hcopied
      exact hcopied.symm
    · -- a new byte behind the clear keeps what it held
      have hzeroed := hdone.zeroed (x - b.1) (by omega) (by omega)
      rw [Proc.mem_withMem, Nat.add_sub_cancel' (by omega), hbyte x (by omega),
        if_neg (Nat.not_lt.mpr hreach)] at hzeroed
      exact hzeroed
  · intro hsound
    refine ⟨hne, ⟨hbase, ?_⟩, fun c hc => ?_, fun d hd => ?_, fun d hlo hhi => ?_⟩
    · -- a block that shrinks stays within its old end
      by_cases hgrow : b.2 - b.1 < newSize.toNat
      · have hfit := (hsound hgrow).1
        omega
      · omega
    · -- the other blocks end where it begins
      have hle := hr.end_le_of_isLast hi ⟨hlt, hstart⟩ hc
      refine Set.disjoint_left.mpr fun x hx hxc => ?_
      rw [Set.mem_Ico] at hx hxc
      omega
    · rw [Proc.mem_withMem, hbyte _ (Nat.le_add_right _ _)]
      split
      · next hreach =>
        by_cases hgrow : b.2 - b.1 < newSize.toNat
        · exact ((hsound hgrow).2.1 _ (Nat.le_add_right _ _) (by omega) hreach).symm
        · -- nothing is cleared, and the block is after the header
          simp only [arenaBase, sizeofMemArena] at hbase
          omega
      · rfl
    · rw [Proc.mem_withMem, hbyte _ (Nat.le_add_right _ _)]
      split
      · rfl
      · next hreach => exact (hsound (by omega)).2.2 _ (by omega) (by omega) (by omega)

/-- The latest block is resized in place. -/
theorem LatestInv.contract_of_isLast (hr : LatestInv arena capacity r) {i : ℕ} {b : ℕ × ℕ}
    (hi : r.live[i]? = some b) (newSize : UInt64)
    (hcap : capacity.toNat + sizeofMemArena < 2 ^ 64) (hlast : r.IsLast arena b) :
    ResizeContract arena capacity r i b newSize ↔
      (b.2 - b.1 < newSize.toNat → previous arena r.proc + newSize.toNat ≤ capacity.toNat ∧
        GrowthClean arena r b newSize.toNat) := by
  have hb : b ∈ r.live := List.mem_of_getElem? hi
  rw [← hr.done_of_isLast hi newSize hlast, ResizeContract, arenaResize]
  obtain ⟨hwrap, -⟩ | ⟨-, -, ⟨-, h⟩ | ⟨hunmapped, h⟩⟩ | ⟨-, hother, -⟩ :=
    hr.arenaResizeAlign_cases hb newSize ARENA_ALIGN hlast.1
  · omega
  · -- the address is returned, so the resize is not refused
    rw [h]
    constructor
    · rintro ⟨out, s', hout, hrefused | hdone⟩
      · obtain ⟨rfl, rfl⟩ := Prod.mk.inj (Except.ok.inj hout)
        exact absurd hrefused.null (hr.ne_null_of_mem hb)
      · obtain ⟨rfl, rfl⟩ := Prod.mk.inj (Except.ok.inj hout)
        exact hdone
    · exact fun hdone => ⟨_, _, congrArg Except.ok (Eq.refl _), .inr hdone⟩
  · -- a clear that leaves what is mapped is one of a block that does not fit
    rw [h]
    refine iff_of_false (fun ⟨out, s', hout, _⟩ => by cases hout) fun hdone => ?_
    refine hunmapped (hr.arenaAt.mapped hcap le_rfl ?_)
    have hbase := hr.base_le b hb
    have hinside := hdone.inside.2
    rw [arenaBase] at *
    omega
  · exact absurd hlast hother

/-- A block elsewhere is copied to a new one, and the null pointer is returned. -/
theorem LatestInv.contract_of_other (hr : LatestInv arena capacity r) {i : ℕ} {b : ℕ × ℕ}
    (hi : r.live[i]? = some b) (newSize : UInt64)
    (hcap : capacity.toNat + sizeofMemArena < 2 ^ 64) (hlt : b.1 < b.2)
    (hother : ¬ r.IsLast arena b) :
    ResizeContract arena capacity r i b newSize ↔
      newSize.toNat = 0 ∧ previous arena r.proc = position arena r.proc := by
  have hb : b ∈ r.live := List.mem_of_getElem? hi
  rw [ResizeContract, arenaResize]
  obtain ⟨hwrap, -⟩ | ⟨-, hlast, -⟩ | ⟨-, -, h⟩ :=
    hr.arenaResizeAlign_cases hb newSize ARENA_ALIGN hlt
  · omega
  · exact absurd hlast hother
  rw [h]
  obtain ⟨hnonzero, e, hcopy⟩ | ⟨hroom, hcopy⟩ :=
    hr.arenaAt.copyOut_cases b.1 newSize (UInt64.ofNat (b.2 - b.1))
  · rw [hcopy]
    exact iff_of_false (fun ⟨out, s', hout, _⟩ => by cases hout) fun hnew => hnonzero hnew.1
  have hstruct := hr.arenaAt.memArena_allocMem newSize
  rw [hcopy]
  -- the copy leaves the header alone
  have hheader : ∀ bytes, memArena ((allocMem arena newSize r.proc.mem).store
      (arenaBase arena + position arena r.proc) bytes) arena =
        memArena (allocMem arena newSize r.proc.mem) arena := fun bytes =>
    memArena_store_of_disjoint (.inl (Nat.le_add_right (arenaBase arena) _))
  constructor
  · rintro ⟨out, s', hout, hrefused | hdone⟩
    · -- the allocation moved both positions, unless it was empty
      obtain ⟨rfl, rfl⟩ := Prod.mk.inj (Except.ok.inj hout)
      have hkept := hrefused.header
      rw [Proc.mem_withMem, hheader, hstruct] at hkept
      have hprevious := congrArg (fun h => h.previousPosition.toNat) hkept
      have hcurrent := congrArg (fun h => h.currentPosition.toNat) hkept
      have hposition := hr.arenaAt.position_allocMem hroom
      rw [position, Proc.mem_withMem, hstruct] at hposition
      dsimp only at hcurrent hprevious hposition
      simp only [position, previous] at *
      exact ⟨by omega, hprevious.symm⟩
    · obtain ⟨rfl, rfl⟩ := Prod.mk.inj (Except.ok.inj hout)
      exact absurd rfl hdone.ne_null
  · rintro ⟨hsize, hprevious⟩
    have hsize0 : newSize = 0 := UInt64.toNat_inj.mp hsize
    have hnone : copySize newSize (UInt64.ofNat (b.2 - b.1)) = 0 := by
      rw [copySize, hsize0, if_neg (UInt64.not_lt.mpr UInt64.zero_le), UInt64.toNat_zero]
    refine ⟨_, _, congrArg Except.ok (Eq.refl _), .inl ⟨rfl, ?_, fun c hc => ?_⟩⟩
    · rw [Proc.mem_withMem, hheader, hstruct]
      simp only [previous, position, UInt64.toNat_inj] at hprevious
      rw [hsize0, UInt64.add_zero]
      generalize memArena r.proc.mem arena = header at hprevious ⊢
      obtain ⟨current, previous, _, _⟩ := header
      obtain rfl : previous = current := hprevious
      rfl
    · -- nothing is copied, and the empty block has no bytes
      have hlo := hr.base_le c hc
      have hhi := hr.live_le c hc
      intro x hx
      rw [Set.mem_Ico] at hx
      rw [Proc.mem_withMem, hnone, Memory.byte_store_of_notMem (by
        rw [Memory.length_load, Set.mem_Ico]
        omega)]
      refine hr.arenaAt.allocMem_eqOn newSize ?_
      simp only [arenaBase, sizeofMemArena] at hlo
      rw [Set.compl_union]
      refine ⟨?_, ?_⟩
      · rw [Set.mem_compl_iff, Set.mem_Ico]
        omega
      · rw [Set.mem_compl_iff, Set.mem_Ico]
        omega

/-- A resize of a live block meets its contract iff it is sound. -/
theorem LatestInv.resizeContract_iff (hr : LatestInv arena capacity r) {i : ℕ} {b : ℕ × ℕ}
    (hi : r.live[i]? = some b) (newSize : UInt64) :
    ResizeContract arena capacity r i b newSize ↔
      ResizeSound arena capacity r b newSize.toNat := by
  -- one of the three conditions applies to a block, the others are void for it
  by_cases hempty : b.2 ≤ b.1
  · rw [hr.contract_of_empty hi newSize hempty]
    refine ⟨fun h => ⟨fun _ => h, fun _ hlast => ?_, fun _ hlt => ?_⟩, fun h => h.empty hempty⟩
    · exact absurd hlast.1 (Nat.not_lt.mpr hempty)
    · exact absurd hlt (Nat.not_lt.mpr hempty)
  have hlt := Nat.lt_of_not_le hempty
  by_cases hcap : capacity.toNat + sizeofMemArena < 2 ^ 64
  · by_cases hlast : r.IsLast arena b
    · rw [hr.contract_of_isLast hi newSize hcap hlast]
      refine ⟨fun h => ⟨fun h0 => absurd h0 hempty, fun _ _ => h, fun _ _ hother => ?_⟩,
        fun h => h.latest hcap hlast⟩
      exact absurd hlast hother
    · rw [hr.contract_of_other hi newSize hcap hlt hlast]
      refine ⟨fun h => ⟨fun h0 => absurd h0 hempty, fun _ h0 => absurd h0 hlast, fun _ _ _ => h⟩,
        fun h => h.other hcap hlt hlast⟩
  · -- the pointer is turned away
    refine iff_of_true ?_ ⟨fun h0 => absurd h0 hempty, fun h0 => absurd h0 hcap,
      fun h0 => absurd h0 hcap⟩
    obtain ⟨-, h⟩ | ⟨h, -⟩ | ⟨h, -⟩ :=
      hr.arenaResizeAlign_cases (List.mem_of_getElem? hi) newSize ARENA_ALIGN hlt
    · exact ⟨NULL, r.proc, h, .inl ⟨rfl, rfl, fun _ _ _ _ => rfl⟩⟩
    · exact absurd h hcap
    · exact absurd h hcap

end ArenaRun

open ArenaRun in
/-- In every arena that a run can reach, a resize of a live block meets its contract iff it is
sound. -/
theorem arenaResize_contract_iff (k : Kernel) (capacity : UInt64) (s : Proc) (ops : List ArenaOp)
    (i : ℕ) (b : ℕ × ℕ) (newSize : UInt64) (hcreate : (arenaCreate k capacity s).1 ≠ NULL)
    (hlive : (ops.foldl (step (arenaCreate k capacity s).1) (start k capacity s)).live[i]? =
      some b) :
    ResizeContract (arenaCreate k capacity s).1 capacity
        (ops.foldl (step (arenaCreate k capacity s).1) (start k capacity s)) i b newSize ↔
      ResizeSound (arenaCreate k capacity s).1 capacity
        (ops.foldl (step (arenaCreate k capacity s).1) (start k capacity s)) b newSize.toNat :=
  (LatestInv.foldl hcreate ops).resizeContract_iff hlive newSize

open ArenaRun in
theorem arenaResize_contract_iff_shrink :
    ResizeContract (arenaCreate Kernel.above 64 Proc.fresh).1 64
        ([.alloc 8, .alloc 16].foldl (step (arenaCreate Kernel.above 64 Proc.fresh).1)
          (start Kernel.above 64 Proc.fresh)) 0 (4136, 4152) 4 ↔
      ResizeSound (arenaCreate Kernel.above 64 Proc.fresh).1 64
        ([.alloc 8, .alloc 16].foldl (step (arenaCreate Kernel.above 64 Proc.fresh).1)
          (start Kernel.above 64 Proc.fresh)) (4136, 4152) 4 :=
  arenaResize_contract_iff Kernel.above 64 Proc.fresh [.alloc 8, .alloc 16] 0 (4136, 4152) 4
    (by decide +kernel) (by decide +kernel)

open ArenaRun in
/-- A block below the latest one is copied to a new block, and the null pointer is returned. -/
theorem not_arenaResize_contract :
    ¬ ∀ (k : Kernel) (capacity : UInt64) (s : Proc) (ops : List ArenaOp) (i : ℕ) (b : ℕ × ℕ)
      (newSize : UInt64), (arenaCreate k capacity s).1 ≠ NULL →
        (ops.foldl (step (arenaCreate k capacity s).1) (start k capacity s)).live[i]? = some b →
          ResizeContract (arenaCreate k capacity s).1 capacity
            (ops.foldl (step (arenaCreate k capacity s).1) (start k capacity s)) i b newSize := by
  intro hall
  have hcreate : (arenaCreate Kernel.above 64 Proc.fresh).1 ≠ NULL := by decide +kernel
  have hlive : ([ArenaOp.alloc 8, .alloc 16].foldl (step (arenaCreate Kernel.above 64 Proc.fresh).1)
      (start Kernel.above 64 Proc.fresh)).live[1]? = some (4128, 4136) := by decide +kernel
  have hcontract := hall Kernel.above 64 Proc.fresh [.alloc 8, .alloc 16] 1 (4128, 4136) 16
    hcreate hlive
  rw [(LatestInv.foldl hcreate _).resizeContract_iff hlive] at hcontract
  refine absurd (hcontract.other (by decide) (by decide) fun hlast => ?_).1 (by decide)
  exact absurd hlast.2 (by decide +kernel)

end AgentResources
