import AgentResources.Base.Arena
import AgentResources.Foundations.Run
import AgentResources.Foundations.Watermark

/-!
# Runs of an arena

A run starts with `arenaCreate` and goes on with any sequence of operations; between them the user
may write into live blocks. A run keeps, as ghost state, the blocks that are live: a block is live
from its return until the position first drops below its end.

Every run refines the abstract allocator `Watermark`: the mark is the address of the current
position, and each operation is one abstract step (`step_refines`). The disjointness of live blocks
is the field of `Watermark`; that an operation writes only to the header and to the block it
returns is the frame fact of `Base.Arena`.

## Main definitions

* `ArenaOp`, `ArenaRun`, `ArenaRun.step`: the operations, the state of a run and its step;
* `ArenaRun.Inv`: the invariant every run keeps.
-/

namespace AgentResources

/-- An operation on an arena, or a write of the user into a live block. -/
inductive ArenaOp
  /-- `arena_alloc` of `size` bytes. -/
  | alloc (size : UInt64)
  /-- `PushArray` of `len` elements of `elemSize` bytes. -/
  | pushArray (elemSize len : UInt64)
  /-- `arena_pop` -/
  | pop (size : UInt64)
  /-- `arena_pop_to` -/
  | popTo (pos : UInt64)
  /-- `arena_clear` -/
  | clear
  /-- `temp_arena_begin` -/
  | tempBegin
  /-- `temp_arena_end` of the `i`-th temporary arena taken so far. -/
  | tempEnd (i : ℕ)
  /-- The user writes `bytes` at `offset` into the `i`-th live block. -/
  | write (i offset : ℕ) (bytes : List UInt8)
  deriving DecidableEq

/-- The exact number of bytes an operation asks for. -/
def ArenaOp.request : ArenaOp → Option ℕ
  | .alloc size => some size.toNat
  | .pushArray elemSize len => some (elemSize.toNat * len.toNat)
  | _ => none

/-- The state of a run. -/
structure ArenaRun where
  /-- The process. -/
  proc : Proc
  /-- The temporary arenas taken so far, newest first. -/
  temps : List TempArena
  /-- The live blocks as address intervals, newest first. -/
  live : List (ℕ × ℕ)

namespace ArenaRun

variable {arena : ℕ} {capacity : UInt64} {r : ArenaRun} {op : ArenaOp}

/-- The state right after `arenaCreate`. -/
def start (k : Kernel) (capacity : UInt64) (s : Proc) : ArenaRun where
  proc := (arenaCreate k capacity s).2
  temps := []
  live := []

/-- Continue in the process state `p` with the candidates `live`: a block above the position is
not live. -/
def settle (arena : ℕ) (r : ArenaRun) (p : Proc) (live : List (ℕ × ℕ)) : ArenaRun where
  proc := p
  temps := r.temps
  live := live.filter (·.2 ≤ arenaBase arena + position arena p)

@[simp] theorem proc_settle (r : ArenaRun) (p : Proc) (live : List (ℕ × ℕ)) :
    (r.settle arena p live).proc = p := rfl

theorem live_settle (r : ArenaRun) (p : Proc) (live : List (ℕ × ℕ)) :
    (r.settle arena p live).live =
      live.filter (·.2 ≤ arenaBase arena + position arena p) := rfl

/-- Continue after a request for `n` bytes. One that does not return leaves the run where it is. -/
def grant (arena : ℕ) (r : ArenaRun) (n : ℕ) : Except Halt (ℕ × Proc) → ArenaRun
  | .error _ => r
  | .ok (p, s) => r.settle arena s (if p = NULL then r.live else (p, p + n) :: r.live)

/-- What a request returns; other operations return nothing. -/
def result (arena : ℕ) (r : ArenaRun) : ArenaOp → Except Halt ℕ
  | .alloc size => (arenaAlloc arena size r.proc).map Prod.fst
  | .pushArray elemSize len => (pushArray arena elemSize len r.proc).map Prod.fst
  | _ => .ok NULL

/-- One step of a run. An end of a temporary arena that was never taken and a write that is not
inside a live block are no operations at all. -/
def step (arena : ℕ) (r : ArenaRun) : ArenaOp → ArenaRun
  | .alloc size => r.grant arena size.toNat (arenaAlloc arena size r.proc)
  | .pushArray elemSize len =>
    r.grant arena (elemSize.toNat * len.toNat) (pushArray arena elemSize len r.proc)
  | .pop size => r.settle arena (arenaPop arena size r.proc) r.live
  | .popTo pos => r.settle arena (arenaPopTo arena pos r.proc) r.live
  | .clear => r.settle arena (arenaClear arena r.proc) r.live
  | .tempBegin => { r with temps := tempArenaBegin arena r.proc :: r.temps }
  | .tempEnd i =>
    match r.temps[i]? with
    | none => r
    | some temp => r.settle arena (tempArenaEnd temp r.proc) r.live
  | .write i offset bytes =>
    match r.live[i]? with
    | none => r
    | some b =>
      if b.1 + offset + bytes.length ≤ b.2 then
        { r with proc := r.proc.withMem (r.proc.mem.store (b.1 + offset) bytes) }
      else r

/-- The header stays out of reach: the arena is intact, remembered positions are within the
capacity, and live blocks lie between the header and the position. -/
structure HeaderInv (arena : ℕ) (capacity : UInt64) (r : ArenaRun) : Prop where
  arenaAt : ArenaAt arena capacity r.proc
  temps : ∀ t ∈ r.temps, t.arena = arena ∧ t.startPosition ≤ capacity
  base_le : ∀ b ∈ r.live, arenaBase arena ≤ b.1
  live_le : ∀ b ∈ r.live, b.2 ≤ arenaBase arena + position arena r.proc

/-- A run is in the abstract state `w`: the mark is the address of the current position, and the
live blocks are the same. -/
def Refines (arena : ℕ) (r : ArenaRun) (w : Watermark ℕ) : Prop :=
  w.mark = arenaBase arena + position arena r.proc ∧ w.live = r.live

/-- What every run keeps: besides `HeaderInv`, it is in some abstract state. -/
structure Inv (arena : ℕ) (capacity : UInt64) (r : ArenaRun) : Prop
    extends HeaderInv arena capacity r where
  refines : ∃ w, Refines arena r w

/-- Continuing in a state that keeps the arena, with blocks after the header. -/
theorem HeaderInv.settle (hr : HeaderInv arena capacity r) {p : Proc}
    (hp : ArenaAt arena capacity p) {live : List (ℕ × ℕ)}
    (hlive : ∀ b ∈ live, arenaBase arena ≤ b.1) :
    HeaderInv arena capacity (r.settle arena p live) where
  arenaAt := hp
  temps := hr.temps
  base_le b hb := hlive b (List.mem_filter.mp hb).1
  live_le b hb := by simpa using (List.mem_filter.mp hb).2

/-- A request keeps the header out of reach, whatever its size. -/
theorem HeaderInv.grant (hr : HeaderInv arena capacity r) (size : UInt64) (n : ℕ) :
    HeaderInv arena capacity (r.grant arena n (arenaAlloc arena size r.proc)) := by
  obtain ⟨-, h⟩ | ⟨-, -, h⟩ | ⟨hroom, h⟩ := hr.arenaAt.alloc_cases size
  · rw [h, ArenaRun.grant, if_pos rfl]
    exact hr.settle hr.arenaAt hr.base_le
  · rw [h]
    exact hr
  · rw [h, ArenaRun.grant, if_neg (arenaBase_add_ne_null _ _)]
    exact hr.settle (hr.arenaAt.of_allocMem hroom)
      (List.forall_mem_cons.mpr ⟨Nat.le_add_right _ _, hr.base_le⟩)

/-- Every step of a run keeps the header out of reach. -/
theorem HeaderInv.step (hr : HeaderInv arena capacity r) (op : ArenaOp) :
    HeaderInv arena capacity (r.step arena op) := by
  cases op with
  | alloc size => exact hr.grant size _
  | pushArray elemSize len => exact hr.grant (elemSize * len) _
  | pop size => exact hr.settle (hr.arenaAt.pop size) hr.base_le
  | popTo pos => exact hr.settle (hr.arenaAt.pop _) hr.base_le
  | clear => exact hr.settle (hr.arenaAt.setCurrent UInt64.zero_le) hr.base_le
  | tempBegin =>
    exact { hr with
      temps := List.forall_mem_cons.mpr ⟨⟨rfl, hr.arenaAt.position_le⟩, hr.temps⟩ }
  | tempEnd i =>
    cases hi : r.temps[i]? with
    | none => simpa [ArenaRun.step, hi] using hr
    | some temp =>
      obtain ⟨rfl, hle⟩ := hr.temps temp (List.mem_of_getElem? hi)
      simpa [ArenaRun.step, hi, tempArenaEnd] using
        hr.settle (hr.arenaAt.setCurrent hle) hr.base_le
  | write i offset bytes =>
    cases hi : r.live[i]? with
    | none => simpa [ArenaRun.step, hi] using hr
    | some b =>
      simp only [ArenaRun.step, hi]
      split
      · -- a live block begins after the header
        have hbase := hr.base_le b (List.mem_of_getElem? hi)
        rw [arenaBase] at hbase
        refine ⟨hr.arenaAt.of_eqOn (Proc.maps_withMem _ _) ?_, hr.temps, hr.base_le, ?_⟩
        · exact (Memory.store_eqOn _ _ _).mono (Memory.range_subset_compl (.inl (by omega)))
        · rw [position, Proc.mem_withMem, memArena_store_of_disjoint (.inl (by omega))]
          exact hr.live_le
      · exact hr

/-- Live blocks are pairwise disjoint. -/
theorem Refines.pairwise {w : Watermark ℕ} (hw : Refines arena r w) :
    r.live.Pairwise fun b c => Disjoint (Set.Ico b.1 b.2) (Set.Ico c.1 c.2) :=
  hw.2 ▸ w.pairwise

/-- The release of the blocks above a new position is the abstract move of the mark. -/
theorem Refines.settle {w : Watermark ℕ} (hw : Refines arena r w) (p : Proc) :
    Refines arena (r.settle arena p r.live)
      (w.move (arenaBase arena + position arena p)) :=
  ⟨rfl, by rw [Watermark.live_move, hw.2, live_settle]⟩

/-- When the position rises exactly to the end of a new block, that is the abstract push. -/
theorem Refines.settle_push {w : Watermark ℕ} (hw : Refines arena r w) {p : Proc} {n : ℕ}
    (hlive : ∀ b ∈ r.live, b.2 ≤ arenaBase arena + position arena r.proc)
    (hpos : position arena p = position arena r.proc + n) :
    Refines arena (r.settle arena p ((arenaBase arena + position arena r.proc,
        arenaBase arena + position arena r.proc + n) :: r.live))
      (w.push (w.mark + n) (Nat.le_add_right _ _)) := by
  have hall : (r.settle arena p ((arenaBase arena + position arena r.proc,
      arenaBase arena + position arena r.proc + n) :: r.live)).live =
        (arenaBase arena + position arena r.proc,
          arenaBase arena + position arena r.proc + n) :: r.live := by
    rw [live_settle, List.filter_eq_self]
    intro b hb
    rw [decide_eq_true_eq, hpos]
    rcases List.mem_cons.mp hb with rfl | hb
    · omega
    · have := hlive b hb
      omega
  constructor
  · rw [Watermark.mark_push, proc_settle, hpos, hw.1, Nat.add_assoc]
  · rw [Watermark.live_push, hall, hw.1, hw.2]

/-- A granted request is an abstract push when the block ends at the new position, and an abstract
move when the block reaches above it. -/
theorem HeaderInv.grant_refines (hr : HeaderInv arena capacity r) {w : Watermark ℕ}
    (hw : Refines arena r w) (size : UInt64) {n : ℕ} (hn : size.toNat = n % 2 ^ 64) :
    ∃ w', Relation.ReflGen Watermark.Step w w' ∧
      Refines arena (r.grant arena n (arenaAlloc arena size r.proc)) w' := by
  obtain ⟨-, h⟩ | ⟨-, -, h⟩ | ⟨hroom, h⟩ := hr.arenaAt.alloc_cases size
  · rw [h, ArenaRun.grant, if_pos rfl]
    exact ⟨_, .single (.move w _), hw.settle r.proc⟩
  · rw [h]
    exact ⟨w, .refl, hw⟩
  have hpos := hr.arenaAt.position_allocMem hroom
  have hout : arenaBase arena + position arena r.proc ≠ NULL := arenaBase_add_ne_null _ _
  rw [h, ArenaRun.grant, if_neg hout]
  generalize r.proc.withMem (allocMem arena size r.proc.mem) = p at hpos
  by_cases hend : position arena r.proc + n ≤ position arena p
  · exact ⟨_, .single (.push w _ _), hw.settle_push hr.live_le (by omega)⟩
  · -- the block reaches above the new position, so it is not live
    have hdrop : r.settle arena p ((arenaBase arena + position arena r.proc,
          arenaBase arena + position arena r.proc + n) :: r.live) =
        r.settle arena p r.live := by
      have : ¬ arenaBase arena + position arena r.proc + n ≤
          arenaBase arena + position arena p := by omega
      rw [ArenaRun.settle, ArenaRun.settle, List.filter_cons_of_neg (by simpa using this)]
    exact ⟨_, .single (.move w _), hdrop ▸ hw.settle p⟩

/-- Every step of a run is a step of the abstract allocator or leaves it where it is. -/
theorem HeaderInv.step_refines (hr : HeaderInv arena capacity r) {w : Watermark ℕ}
    (hw : Refines arena r w) (op : ArenaOp) :
    ∃ w', Relation.ReflGen Watermark.Step w w' ∧ Refines arena (r.step arena op) w' := by
  cases op with
  | alloc size => exact hr.grant_refines hw size (Nat.mod_eq_of_lt size.toNat_lt).symm
  | pushArray elemSize len =>
    exact hr.grant_refines hw (elemSize * len) (UInt64.toNat_mul elemSize len)
  | pop size => exact ⟨_, .single (.move w _), hw.settle _⟩
  | popTo pos => exact ⟨_, .single (.move w _), hw.settle _⟩
  | clear => exact ⟨_, .single (.move w _), hw.settle _⟩
  | tempBegin => exact ⟨w, .refl, hw⟩
  | tempEnd i =>
    cases hi : r.temps[i]? with
    | none => exact ⟨w, .refl, by simpa [ArenaRun.step, hi] using hw⟩
    | some temp =>
      simp only [ArenaRun.step, hi]
      exact ⟨_, .single (.move w _), hw.settle _⟩
  | write i offset bytes =>
    refine ⟨w, .refl, ?_⟩
    cases hi : r.live[i]? with
    | none => simpa [ArenaRun.step, hi] using hw
    | some b =>
      simp only [ArenaRun.step, hi]
      split
      · -- the user writes after the header, so the position stays
        have hbase := hr.base_le b (List.mem_of_getElem? hi)
        rw [arenaBase] at hbase
        refine ⟨?_, hw.2⟩
        rw [hw.1, position, position, Proc.mem_withMem,
          memArena_store_of_disjoint (.inl (by omega))]
      · exact hw

/-- Every step of a run keeps the invariant. -/
theorem Inv.step (hr : Inv arena capacity r) (op : ArenaOp) :
    Inv arena capacity (r.step arena op) := by
  obtain ⟨w, hw⟩ := hr.refines
  obtain ⟨w', -, hw'⟩ := hr.step_refines hw op
  exact ⟨hr.toHeaderInv.step op, w', hw'⟩

end ArenaRun

end AgentResources
