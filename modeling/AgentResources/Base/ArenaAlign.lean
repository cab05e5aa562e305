import AgentResources.Base.ArenaSafety

/-!
# Alignment of blocks

`align` of `base_mem.c` returns its argument for every power of two, so `arena_alloc` hands out the
current position as it is. A block is aligned exactly when the position is.

## Main results

* `arenaRun_aligned_iff`: along a run every block is aligned iff every granted request starts at an
  aligned position.
-/

namespace AgentResources

variable {arena : ℕ} {capacity : UInt64} {r : ArenaRun} {op : ArenaOp}

namespace ArenaRun

/-- A block starts at the first multiple of `ARENA_ALIGN` at or after the current position. -/
def AlignedStep (arena : ℕ) (r : ArenaRun) (op : ArenaOp) : Prop :=
  ∀ n p, op.request = some n → r.result arena op = .ok p → p ≠ NULL →
    IsLeast {p | ARENA_ALIGN.toNat ∣ p ∧ arenaBase arena + position arena r.proc ≤ p} p

/-- A request there is room for finds an aligned position. The room is for the size in 64 bits. -/
def StartsAligned (arena : ℕ) (capacity : UInt64) (r : ArenaRun) (op : ArenaOp) : Prop :=
  ∀ n, op.request = some n → HasRoom arena capacity r.proc (n % 2 ^ 64) →
    ARENA_ALIGN.toNat ∣ position arena r.proc

/-- A request is granted iff there is room, and then at the position. -/
theorem HeaderInv.result_iff (hr : HeaderInv arena capacity r) {n p : ℕ}
    (hreq : op.request = some n) :
    r.result arena op = .ok p ∧ p ≠ NULL ↔
      HasRoom arena capacity r.proc (n % 2 ^ 64) ∧ p = arenaBase arena + position arena r.proc := by
  obtain ⟨size, hsize, hres, -⟩ := request_cases arena r hreq
  rw [hres, ← hsize]
  constructor
  · rintro ⟨hgranted, hne⟩
    obtain ⟨-, h⟩ | ⟨-, -, h⟩ | ⟨hroom, h⟩ := hr.arenaAt.alloc_cases size
    · rw [h] at hgranted
      exact absurd (Except.ok.inj hgranted).symm hne
    · rw [h] at hgranted
      cases hgranted
    · rw [h] at hgranted
      exact ⟨hroom, (Except.ok.inj hgranted).symm⟩
  · rintro ⟨hroom, rfl⟩
    rw [hr.arenaAt.alloc_eq hroom]
    exact ⟨rfl, arenaBase_add_ne_null _ _⟩

/-- At an aligned base, one step aligns its block iff it starts aligned. -/
theorem HeaderInv.alignedStep_iff (hr : HeaderInv arena capacity r)
    (hbase : ARENA_ALIGN.toNat ∣ arenaBase arena) (op : ArenaOp) :
    r.AlignedStep arena op ↔ r.StartsAligned arena capacity op := by
  constructor
  · intro haligned n hreq hroom
    obtain ⟨hres, hne⟩ := (hr.result_iff hreq).mpr ⟨hroom, rfl⟩
    obtain ⟨⟨hdvd, -⟩, -⟩ := haligned n _ hreq hres hne
    exact (Nat.dvd_add_right hbase).mp hdvd
  · intro hstarts n p hreq hres hne
    obtain ⟨hroom, rfl⟩ := (hr.result_iff hreq).mp ⟨hres, hne⟩
    have hdvd := hstarts n hreq hroom
    exact ⟨⟨Nat.dvd_add hbase hdvd, le_rfl⟩, fun p hp => hp.2⟩

end ArenaRun

open ArenaRun in
/-- In a run on a mapped arena, every block is aligned iff every granted request finds an aligned
position. -/
theorem arenaRun_aligned_iff (k : Kernel) (capacity : UInt64) (s : Proc) (ops : List ArenaOp)
    (hcreate : (arenaCreate k capacity s).1 ≠ NULL) :
    Run.Along (step (arenaCreate k capacity s).1) (AlignedStep (arenaCreate k capacity s).1)
        (start k capacity s) ops ↔
      Run.Along (step (arenaCreate k capacity s).1)
        (StartsAligned (arenaCreate k capacity s).1 capacity) (start k capacity s) ops := by
  have hbase : ARENA_ALIGN.toNat ∣ arenaBase (arenaCreate k capacity s).1 := by
    obtain ⟨-, hnull⟩ | ⟨a, hgrant, ha⟩ := arenaCreate_cases k capacity s
    · rw [hnull] at hcreate
      exact absurd rfl hcreate
    · -- a page and the header are multiples of the alignment
      rw [ha]
      have hpage : pageSize ∣ a := (k.mmap_spec hgrant).2.2.1
      exact Nat.dvd_add ((show ARENA_ALIGN.toNat ∣ pageSize by decide).trans hpage) (by decide)
  have hany : Run.Along (step (arenaCreate k capacity s).1) (fun _ _ => True)
      (start k capacity s) ops := Run.along_of_forall_mem fun _ _ _ => trivial
  exact Run.along_iff_of_invariant (Inv (arenaCreate k capacity s).1 capacity)
    (fun r op hr _ _ => hr.step op) (fun r op hr _ => hr.alignedStep_iff hbase op)
    (inv_start hcreate) hany

open ArenaRun in
theorem arenaRun_aligned_iff_single :
    Run.Along (step (arenaCreate Kernel.above 64 Proc.fresh).1)
        (AlignedStep (arenaCreate Kernel.above 64 Proc.fresh).1) (start Kernel.above 64 Proc.fresh)
        [.alloc 16, .alloc 3] ↔
      Run.Along (step (arenaCreate Kernel.above 64 Proc.fresh).1)
        (StartsAligned (arenaCreate Kernel.above 64 Proc.fresh).1 64)
        (start Kernel.above 64 Proc.fresh) [.alloc 16, .alloc 3] :=
  arenaRun_aligned_iff Kernel.above 64 Proc.fresh _ (by decide +kernel)

open ArenaRun in
/-- A block of one byte leaves an odd position, and there the next block begins. -/
theorem not_arenaRun_aligned :
    ¬ ∀ (k : Kernel) (capacity : UInt64) (s : Proc) (ops : List ArenaOp),
      (arenaCreate k capacity s).1 ≠ NULL →
        Run.Along (step (arenaCreate k capacity s).1) (AlignedStep (arenaCreate k capacity s).1)
          (start k capacity s) ops := by
  intro hall
  have halong := hall Kernel.above 64 Proc.fresh [.alloc 1, .alloc 8] (by decide +kernel)
  obtain ⟨-, hsecond, -⟩ := halong
  have hleast := hsecond 8 4129 rfl (by decide +kernel) (by decide)
  exact absurd hleast.1.1 (by decide +kernel)

end AgentResources
