import AgentResources.Base.ArenaRun

/-!
# What a user of an arena relies on

`SafeStep` collects the guarantees of one step of a run: a request returns, a block lies inside the
arena, is zeroed and disjoint from every live block, live blocks are left alone, and a refused
request changes nothing. It holds along every run whose sizes do not wrap. `InBoundsStep` is the
bound alone, for arbitrary sizes: it holds along a run exactly if no request for which the bytes to
clear are mapped passes the limit check on a wrapped number (`WithinWord`).

## Main results

* `arenaRun_safe`: runs below `2 ^ 63` are safe at every step;
* `arenaRun_inBounds_iff`: a run with arbitrary 64-bit sizes stays in bounds iff every request is
  within the word.
-/

namespace AgentResources

namespace ArenaRun

variable {arena : ℕ} {capacity : UInt64} {r : ArenaRun} {op : ArenaOp}

/-- The guarantees of one step of a run. -/
structure SafeStep (arena : ℕ) (capacity : UInt64) (r : ArenaRun) (op : ArenaOp) : Prop where
  /-- A request returns. -/
  answers : ∀ n, op.request = some n → ∃ p, r.result arena op = .ok p
  /-- A block that was handed out lies inside the arena. -/
  inside : ∀ n p, op.request = some n → r.result arena op = .ok p → p ≠ NULL →
    arenaBase arena ≤ p ∧ p + n ≤ arenaBase arena + capacity.toNat
  /-- All of its bytes are zero. -/
  zeroed : ∀ n p, op.request = some n → r.result arena op = .ok p → p ≠ NULL →
    ∀ x ∈ Set.Ico p (p + n), (r.step arena op).proc.mem.byte x = 0
  /-- No live block meets it. -/
  disjoint : ∀ n p, op.request = some n → r.result arena op = .ok p → p ≠ NULL → ∀ b ∈ r.live,
    Disjoint (Set.Ico p (p + n)) (Set.Ico b.1 b.2)
  /-- Live blocks are pairwise disjoint, also after the step. -/
  pairwise : (r.step arena op).live.Pairwise fun b c =>
    Disjoint (Set.Ico b.1 b.2) (Set.Ico c.1 c.2)
  /-- It is live now. -/
  live : ∀ n p, op.request = some n → r.result arena op = .ok p → p ≠ NULL →
    (p, p + n) ∈ (r.step arena op).live
  /-- A refused request changes nothing. -/
  refused : ∀ n, op.request = some n → r.result arena op = .ok NULL → r.step arena op = r
  /-- An operation, as opposed to a write of the user, leaves live blocks alone. -/
  frame : (∀ i offset bytes, op ≠ .write i offset bytes) → ∀ b ∈ r.live,
    Set.EqOn (r.step arena op).proc.mem.byte r.proc.mem.byte (Set.Ico b.1 b.2)

/-- The position after the step is within the capacity, and a block that was handed out lies in
the bytes mapped after the header, at the exact size that was asked for. -/
structure InBoundsStep (arena : ℕ) (capacity : UInt64) (r : ArenaRun) (op : ArenaOp) :
    Prop where
  position_le : position arena (r.step arena op).proc ≤ capacity.toNat
  inside : ∀ n p, op.request = some n → r.result arena op = .ok p → p ≠ NULL →
    arenaBase arena ≤ p ∧ p + n ≤ arenaBase arena + mappedAfterHeader capacity

/-- Unless the bytes that would be cleared are not mapped, so that the call faults, no request gets
past the limit check on a wrapped number: the exact sum of position and request stays below `2 ^ 64`
unless its wrapped value is still refused, and when the capacity plus the header wraps, so that one
page is mapped, the block ends in that page. -/
def WithinWord (arena : ℕ) (capacity : UInt64) (r : ArenaRun) (op : ArenaOp) : Prop :=
  ∀ n, op.request = some n →
    r.proc.Mapped (arenaBase arena + position arena r.proc) (n % 2 ^ 64) →
    (2 ^ 64 ≤ position arena r.proc + n →
      capacity.toNat < (position arena r.proc + n) % 2 ^ 64) ∧
    (2 ^ 64 ≤ capacity.toNat + sizeofMemArena →
      position arena r.proc + n ≤ capacity.toNat →
        position arena r.proc + n ≤ pageSize - sizeofMemArena)

/-- Both kinds of request are an allocation of the wrapped size. -/
theorem request_cases (arena : ℕ) (r : ArenaRun) {n : ℕ} (h : op.request = some n) :
    ∃ size : UInt64, size.toNat = n % 2 ^ 64 ∧
      r.result arena op = (arenaAlloc arena size r.proc).map Prod.fst ∧
      r.step arena op = r.grant arena n (arenaAlloc arena size r.proc) := by
  cases op with
  | alloc size =>
    obtain rfl : size.toNat = n := by simpa [ArenaOp.request] using h
    exact ⟨size, (Nat.mod_eq_of_lt size.toNat_lt).symm, rfl, rfl⟩
  | pushArray elemSize len =>
    obtain rfl : elemSize.toNat * len.toNat = n := by simpa [ArenaOp.request] using h
    exact ⟨elemSize * len, UInt64.toNat_mul elemSize len, rfl, rfl⟩
  | _ => simp [ArenaOp.request] at h

/-- A refused request leaves the run where it was. -/
theorem Inv.grant_null (hr : Inv arena capacity r) (n : ℕ) :
    r.grant arena n (.ok (NULL, r.proc)) = r := by
  have hlive : r.live.filter (·.2 ≤ arenaBase arena + position arena r.proc) = r.live := by
    rw [List.filter_eq_self]
    intro b hb
    simpa using hr.live_le b hb
  rw [ArenaRun.grant, if_pos rfl, ArenaRun.settle, hlive]

/-- An operation writes to the header and to the block it returns, so live blocks keep their
bytes, whatever sizes were asked for. -/
theorem Inv.step_eqOn (hr : Inv arena capacity r)
    (hop : ∀ i offset bytes, op ≠ .write i offset bytes) {b : ℕ × ℕ} (hb : b ∈ r.live) :
    Set.EqOn (r.step arena op).proc.mem.byte r.proc.mem.byte (Set.Ico b.1 b.2) := by
  have hlo := hr.base_le b hb
  have hhi := hr.live_le b hb
  -- the header ends where the first block may begin
  have hheader : Set.Ico b.1 b.2 ⊆ (Memory.range arena 16)ᶜ := by
    intro x hx
    rw [Set.mem_Ico] at hx
    rw [Set.mem_compl_iff, Set.mem_Ico]
    simp only [arenaBase, sizeofMemArena] at hlo
    omega
  have halloc : ∀ size n, Set.EqOn (r.grant arena n (arenaAlloc arena size r.proc)).proc.mem.byte
      r.proc.mem.byte (Set.Ico b.1 b.2) := by
    intro size n
    obtain ⟨-, h⟩ | ⟨-, -, h⟩ | ⟨-, h⟩ := hr.arenaAt.alloc_cases size
    · rw [h, hr.grant_null]
      exact Set.eqOn_refl _ _
    · rw [h, ArenaRun.grant]
      exact Set.eqOn_refl _ _
    · rw [h, ArenaRun.grant, proc_settle]
      refine (hr.arenaAt.allocMem_eqOn size).mono ?_
      rw [Set.compl_union]
      refine Set.subset_inter hheader fun x hx => ?_
      rw [Set.mem_Ico] at hx
      rw [Set.mem_compl_iff, Set.mem_Ico]
      omega
  cases op with
  | alloc size => exact halloc size size.toNat
  | pushArray elemSize len => exact halloc (elemSize * len) _
  | pop size => exact (setCurrentPosition_eqOn _).mono hheader
  | popTo pos => exact (setCurrentPosition_eqOn _).mono hheader
  | clear => exact (setCurrentPosition_eqOn _).mono hheader
  | tempBegin => exact fun _ _ => rfl
  | tempEnd i =>
    cases hi : r.temps[i]? with
    | none => simp only [ArenaRun.step, hi, Set.eqOn_refl]
    | some temp =>
      obtain ⟨rfl, -⟩ := hr.temps temp (List.mem_of_getElem? hi)
      simp only [ArenaRun.step, hi, proc_settle]
      exact (setCurrentPosition_eqOn _).mono hheader
  | write i offset bytes => exact absurd rfl (hop i offset bytes)

/-- In an arena that is mapped in full, a request whose exact sum does not wrap returns, and a
granted one ends at its exact size within the capacity. -/
theorem Inv.safeStep (hr : Inv arena capacity r)
    (hcap : capacity.toNat + sizeofMemArena < 2 ^ 64)
    (hsum : ∀ n, op.request = some n → position arena r.proc + n < 2 ^ 64) :
    SafeStep arena capacity r op := by
  -- only a write of the user reaches the bytes of a live block
  have hframe : (∀ i offset bytes, op ≠ .write i offset bytes) → ∀ b ∈ r.live,
      Set.EqOn (r.step arena op).proc.mem.byte r.proc.mem.byte (Set.Ico b.1 b.2) :=
    fun hop b hb => hr.step_eqOn hop hb
  have hpairwise : (r.step arena op).live.Pairwise fun b c =>
      Disjoint (Set.Ico b.1 b.2) (Set.Ico c.1 c.2) := by
    obtain ⟨w', hw'⟩ := (hr.step op).refines
    exact hw'.pairwise
  cases hreq : op.request with
  | none =>
    constructor
    all_goals first | exact hframe | exact hpairwise | simp [hreq]
  | some n =>
    obtain ⟨size, hsize, hres, hstep⟩ := request_cases arena r hreq
    have hlt := hsum n hreq
    rw [Nat.mod_eq_of_lt (by omega)] at hsize
    obtain ⟨w, hw⟩ := hr.refines
    obtain ⟨-, h⟩ | ⟨hle, hunmapped, -⟩ | ⟨hroom, h⟩ := hr.arenaAt.alloc_cases size
    · -- refused
      rw [h] at hres hstep
      rw [hr.grant_null] at hstep
      have hnull : r.result arena op = .ok NULL := hres
      constructor
      all_goals first
        | exact hframe
        | exact hpairwise
        | exact fun _ _ _ => hstep
        | simp [hnull]
    · -- a sum that passes the check ends within the capacity, which is mapped
      rw [hsize, Nat.mod_eq_of_lt hlt] at hle
      rw [hsize] at hunmapped
      exact absurd (hr.arenaAt.hasRoom hcap hle).2 hunmapped
    · -- granted: the block runs from the old position to the new one
      rw [h] at hres hstep
      have hne : arenaBase arena + position arena r.proc ≠ NULL := arenaBase_add_ne_null _ _
      have hout : r.result arena op = .ok (arenaBase arena + position arena r.proc) := hres
      rw [ArenaRun.grant, if_neg hne] at hstep
      have hpos := hr.arenaAt.position_allocMem hroom
      rw [hsize] at hpos
      have hend := hroom.1
      -- the request and the answer a guarantee speaks of are these two
      have hgranted : ∀ k p, op.request = some k → r.result arena op = .ok p →
          k = n ∧ p = arenaBase arena + position arena r.proc := by
        intro k p hk hp
        rw [hreq] at hk
        rw [hout] at hp
        exact ⟨(Option.some.inj hk).symm, (Except.ok.inj hp).symm⟩
      constructor
      · exact fun _ _ => ⟨_, hout⟩
      · intro k p hk hp _
        have hblock := hgranted k p hk hp
        omega
      · intro k p hk hp _ x hx
        have hblock := hgranted k p hk hp
        rw [hblock.1, hblock.2] at hx
        rw [hstep, proc_settle, Proc.mem_withMem]
        exact hr.arenaAt.load_allocMem size (by rwa [Memory.range, hsize])
      · -- the abstract arena puts the block behind the live ones
        intro k p hk hp _ b hb
        have hblock := hgranted k p hk hp
        rw [hblock.1, hblock.2, ← hw.1]
        exact w.disjoint_of_mem_live _ (hw.2 ▸ hb)
      · exact hpairwise
      · intro k p hk hp _
        have hblock := hgranted k p hk hp
        rw [hblock.1, hblock.2, hstep, live_settle, List.mem_filter]
        refine ⟨List.mem_cons_self, ?_⟩
        rw [decide_eq_true_eq, hpos]
        omega
      · intro k hk hp
        exact absurd (hgranted k _ hk hp).2.symm hne
      · exact hframe

/-- At one step of a run, staying in bounds and staying within the word are the same. -/
theorem Inv.inBoundsStep_iff (hr : Inv arena capacity r) (hlen : 0 < mappingLen capacity) :
    InBoundsStep arena capacity r op ↔ WithinWord arena capacity r op := by
  have hnext := (hr.step op).arenaAt.position_le_toNat
  cases hreq : op.request with
  | none =>
    -- nothing is handed out, and the position stays within the capacity
    exact ⟨fun _ => by simp [WithinWord, hreq], fun _ => ⟨hnext, by simp [hreq]⟩⟩
  | some n =>
    obtain ⟨size, hsize, hres, -⟩ := request_cases arena r hreq
    have hmapped : mappedAfterHeader capacity =
        pageRound ((capacity.toNat + sizeofMemArena) % 2 ^ 64) - sizeofMemArena := by
      rw [mappedAfterHeader, mappingLen, UInt64.toNat_add]
      rfl
    have hlen' : mappingLen capacity = (capacity.toNat + sizeofMemArena) % 2 ^ 64 := by
      rw [mappingLen, UInt64.toNat_add]
      rfl
    have hcap := capacity.toNat_lt
    have hposle := hr.arenaAt.position_le_toNat
    simp only [pageRound, pageSize, sizeofMemArena] at hmapped hlen'
    have hmod : (position arena r.proc + size.toNat) % 2 ^ 64 =
        (position arena r.proc + n) % 2 ^ 64 := by
      rw [hsize, Nat.add_mod_mod]
    obtain ⟨hgt, h⟩ | ⟨-, hunmapped, h⟩ | ⟨hroom, h⟩ := hr.arenaAt.alloc_cases size
    · -- refused: nothing to bound, and the wrapped sum is above the capacity
      rw [h] at hres
      have hnull : r.result arena op = .ok NULL := hres
      constructor
      · intro _
        simp only [WithinWord, hreq, Option.some.injEq, forall_eq']
        omega
      · exact fun _ => ⟨hnext, by simp [hnull]⟩
    · -- a fault: nothing is handed out, and the bytes to clear are not mapped
      rw [h] at hres
      have hfault : r.result arena op = .error .fault := hres
      constructor
      · intro _
        simp only [WithinWord, hreq, Option.some.injEq, forall_eq', ← hsize]
        exact fun hall => absurd hall hunmapped
      · exact fun _ => ⟨hnext, by simp [hfault]⟩
    · -- granted: the wrapped sum is within the capacity
      rw [h] at hres
      have hout : r.result arena op = .ok (arenaBase arena + position arena r.proc) := hres
      have hne : arenaBase arena + position arena r.proc ≠ NULL := arenaBase_add_ne_null _ _
      have hend := hroom.1
      constructor
      · intro hb
        have := (hb.inside n _ hreq hout hne).2
        simp only [WithinWord, hreq, Option.some.injEq, forall_eq', pageSize, sizeofMemArena]
        omega
      · intro hw
        refine ⟨hnext, ?_⟩
        simp only [WithinWord, hreq, Option.some.injEq, forall_eq', pageSize,
          sizeofMemArena, ← hsize] at hw
        obtain ⟨hword, hpage⟩ := hw hroom.2
        intro k p hk hp _
        rw [hreq, Option.some.injEq] at hk
        rw [hout, Except.ok.injEq] at hp
        omega

/-- A run begins with the invariant. -/
theorem inv_start {k : Kernel} {s : Proc} (h : (arenaCreate k capacity s).1 ≠ NULL) :
    Inv (arenaCreate k capacity s).1 capacity (start k capacity s) where
  arenaAt := (arenaAt_create h).1
  temps := by simp [start]
  base_le := by simp [start]
  live_le := by simp [start]
  refines := ⟨Watermark.empty _, rfl, rfl⟩

end ArenaRun

open ArenaRun in
/-- Along every run of an arena of less than `2 ^ 63` bytes, with requests below `2 ^ 63`, every
step gives its guarantees. -/
theorem arenaRun_safe (k : Kernel) (capacity : UInt64) (s : Proc) (ops : List ArenaOp)
    (hcapacity : capacity.toNat < 2 ^ 63)
    (hcreate : (arenaCreate k capacity s).1 ≠ NULL)
    (hops : ∀ op ∈ ops, ∀ n, op.request = some n → n < 2 ^ 63) :
    Run.Along (step (arenaCreate k capacity s).1)
      (SafeStep (arenaCreate k capacity s).1 capacity) (start k capacity s) ops := by
  refine Run.along_of_invariant
    (C := fun _ op => ∀ n, op.request = some n → n < 2 ^ 63)
    (fun r op hr _ => hr.step op) ?_ (inv_start hcreate)
    (Run.along_of_forall_mem fun op hop _ => hops op hop)
  intro r op hr hop
  refine hr.safeStep (by rw [sizeofMemArena]; omega) fun n hn => ?_
  have hpos := hr.arenaAt.position_le_toNat
  have := hop n hn
  omega

open ArenaRun in
theorem arenaRun_safe_nestedScope :
    Run.Along (step (arenaCreate Kernel.above 64 Proc.fresh).1)
      (SafeStep (arenaCreate Kernel.above 64 Proc.fresh).1 64)
      (start Kernel.above 64 Proc.fresh)
      [.alloc 8, .tempBegin, .alloc 16, .write 0 4 [1, 2], .tempEnd 0, .alloc 64, .alloc 56] :=
  arenaRun_safe _ _ _ _ (by decide) (by decide +kernel) (by simp +decide)

open ArenaRun in
/-- A run with arbitrary 64-bit sizes stays in bounds at every step iff every request is within
the word. -/
theorem arenaRun_inBounds_iff (k : Kernel) (capacity : UInt64) (s : Proc) (ops : List ArenaOp)
    (hcreate : (arenaCreate k capacity s).1 ≠ NULL) :
    Run.Along (step (arenaCreate k capacity s).1)
        (InBoundsStep (arenaCreate k capacity s).1 capacity) (start k capacity s) ops ↔
      Run.Along (step (arenaCreate k capacity s).1)
        (WithinWord (arenaCreate k capacity s).1 capacity) (start k capacity s) ops := by
  have hlen : 0 < mappingLen capacity := by
    obtain ⟨-, hnull⟩ | ⟨a, hgrant, -⟩ := arenaCreate_cases k capacity s
    · simp [hnull] at hcreate
    · exact (k.mmap_spec hgrant).1
  have hany : Run.Along (step (arenaCreate k capacity s).1) (fun _ _ => True)
      (start k capacity s) ops := Run.along_of_forall_mem fun _ _ _ => trivial
  exact Run.along_iff_of_invariant (Inv (arenaCreate k capacity s).1 capacity)
    (fun r op hr _ _ => hr.step op) (fun r op hr _ => hr.inBoundsStep_iff hlen)
    (inv_start hcreate) hany

open ArenaRun in
theorem arenaRun_inBounds_iff_pushArray :
    Run.Along (step (arenaCreate Kernel.above 64 Proc.fresh).1)
        (InBoundsStep (arenaCreate Kernel.above 64 Proc.fresh).1 64)
        (start Kernel.above 64 Proc.fresh) [.pushArray 8 4] ↔
      Run.Along (step (arenaCreate Kernel.above 64 Proc.fresh).1)
        (WithinWord (arenaCreate Kernel.above 64 Proc.fresh).1 64)
        (start Kernel.above 64 Proc.fresh) [.pushArray 8 4] :=
  arenaRun_inBounds_iff _ _ _ _ (by decide +kernel)

open ArenaRun in
/-- An array of `2 ^ 61` elements of eight bytes is granted at the size zero. -/
theorem not_arenaRun_inBounds :
    ¬ ∀ (k : Kernel) (capacity : UInt64) (s : Proc) (ops : List ArenaOp),
      (arenaCreate k capacity s).1 ≠ NULL →
      Run.Along (step (arenaCreate k capacity s).1)
        (InBoundsStep (arenaCreate k capacity s).1 capacity) (start k capacity s) ops := by
  intro h
  have hrun := h Kernel.above 64 Proc.fresh [.pushArray 8 2305843009213693952]
    (by decide +kernel)
  have hresult : (start Kernel.above 64 Proc.fresh).result
      (arenaCreate Kernel.above 64 Proc.fresh).1 (.pushArray 8 2305843009213693952) =
        .ok 4128 := by decide +kernel
  have hinside := (hrun.1.inside (8 * 2305843009213693952) 4128 rfl hresult (by decide)).2
  exact absurd hinside (by decide +kernel)

end AgentResources
