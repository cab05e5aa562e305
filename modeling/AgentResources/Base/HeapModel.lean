import AgentResources.Base.AllocatorModel
import AgentResources.Base.Heap

/-!
# A process with many allocators, seen from outside

A process with any number of arenas and stacks is a list of independent models. A step of the
process is a step of one model, and the other models stay as they are: what the live blocks of an
allocator hold changes only by a write into them.

## Main definitions

* `AllocatorModel`, `HeapModel`, `HeapModel.Step`: the models, and the steps of any number of them;
* `Allocator.model`, `Heap.model`: what an allocator, and a process, look like from outside.

## Main results

* `heap_refines`: every step of every run of a process is a step of its models.
-/

namespace AgentResources

/-- An allocator, seen from outside. -/
inductive AllocatorModel
  | arena (m : ArenaModel)
  | stack (m : StackModel)
  deriving DecidableEq

namespace AllocatorModel

/-- One step. An operation of the other kind is none at all. -/
def step : AllocatorModel → AllocatorOp → AllocatorModel
  | .arena m, .arena op => .arena (m.step op)
  | .stack m, .stack op => .stack (m.step op)
  | m, _ => m

/-- Where the block begins that a request is answered with. -/
def answer : AllocatorModel → AllocatorOp → Option ℕ
  | .arena m, .arena op => m.answer op
  | .stack m, .stack op => m.answer op
  | _, _ => none

end AllocatorModel

/-- The allocators made so far, without those that were destroyed. -/
abbrev HeapModel := List (Option AllocatorModel)

/-- A step of many allocators, and what is answered. What is made is new, or it is refused. What is
used or destroyed is one allocator, and all others are as they were. An operation on an allocator
that is not there is none at all. -/
inductive HeapModel.Step : HeapModel → HeapOp → Option ℕ → HeapModel → Prop
  | arenaCreate (m : HeapModel) (capacity : UInt64) :
    Step m (.arenaCreate capacity) none (m ++ [some (.arena (.fresh capacity.toNat))])
  | arenaRefused (m : HeapModel) (capacity : UInt64) : Step m (.arenaCreate capacity) none m
  | stackCreate (m : HeapModel) (capacity : UInt64) (reach : ℕ) :
    Step m (.stackCreate capacity) none (m ++ [some (.stack (.fresh capacity.toNat reach))])
  | stackRefused (m : HeapModel) (capacity : UInt64) : Step m (.stackCreate capacity) none m
  | use {m : HeapModel} {i : ℕ} {c : AllocatorModel} (op : AllocatorOp) :
    m[i]? = some (some c) → Step m (.use i op) (c.answer op) (m.set i (some (c.step op)))
  | destroy {m : HeapModel} {i : ℕ} {c : AllocatorModel} :
    m[i]? = some (some c) → Step m (.destroy i) none (m.set i none)
  | useAbsent {m : HeapModel} {i : ℕ} (op : AllocatorOp) :
    (∀ c, m[i]? ≠ some (some c)) → Step m (.use i op) none m
  | destroyAbsent {m : HeapModel} {i : ℕ} :
    (∀ c, m[i]? ≠ some (some c)) → Step m (.destroy i) none m

/-! ## Allocators -/

namespace Allocator

variable {c : Allocator} {s s' : Proc} {op : AllocatorOp}

/-- What an allocator looks like from outside. -/
def model : Allocator → Proc → AllocatorModel
  | .arena a capacity temps live, s => .arena (ArenaRun.model a capacity ⟨s, temps, live⟩)
  | .stack a capacity live, s => .stack (StackRun.model a capacity ⟨s, live⟩)

/-- The address of the first byte that an allocator can hand out. -/
def base : Allocator → ℕ
  | .arena a _ _ _ => arenaBase a
  | .stack a _ _ => stackBase a

/-- No live block ends before it begins. -/
def Ordered : Allocator → Prop
  | .arena _ _ temps live => ∀ s : Proc, ArenaRun.Ordered ⟨s, temps, live⟩
  | .stack _ _ _ => True

/-- A step is the step of the model, and is answered as there. -/
theorem Inv.model_step (h : c.Inv s) (ho : c.Ordered) (hok : c.Ok s op) :
    (c.step s op).1.model (c.step s op).2 = (c.model s).step op ∧ (c.step s op).1.Ordered ∧
      c.answer s op = .ok (((c.model s).answer op).elim NULL (c.base + ·)) := by
  cases c with
  | arena a capacity temps live =>
    cases op with
    | arena op =>
      obtain ⟨hmodel, hordered, hanswer⟩ := h.1.model_step (ho s) h.2 hok
      exact ⟨congrArg AllocatorModel.arena hmodel, fun _ => hordered, hanswer⟩
    | stack op => exact ⟨rfl, ho, rfl⟩
  | stack a capacity live =>
    cases op with
    | arena op => exact ⟨rfl, trivial, rfl⟩
    | stack op =>
      obtain ⟨hmodel, hanswer⟩ := h.1.model_step h.2.2 hok
      exact ⟨congrArg AllocatorModel.stack hmodel, trivial, hanswer⟩

/-- What an allocator looks like depends on the bytes of its region only. -/
theorem Inv.model_congr (h : c.Inv s) (ho : c.Ordered)
    (hsame : SameOn c.region c.mapping s s') : c.model s' = c.model s := by
  cases c with
  | arena a capacity temps live =>
    have hblocks : live.map (ArenaRun.block a s'.mem) = live.map (ArenaRun.block a s.mem) := by
      refine List.map_congr_left fun b hb => Block.read_congr (hsame.eqOn.mono ?_)
      have hlo := h.1.base_le b hb
      have hhi := h.1.live_le b hb
      have hpos := h.1.arenaAt.position_le_toNat
      have hle := ho s b hb
      dsimp only at hhi hpos
      exact Set.Ico_subset_Ico ((Nat.le_add_right a _).trans hlo) (by omega)
    refine congrArg AllocatorModel.arena ?_
    ext1
    · rfl
    · exact hsame.arena.position_eq
    · rfl
    · exact hblocks
  | stack a capacity live =>
    refine congrArg AllocatorModel.stack ?_
    ext1
    · rfl
    · rfl
    · exact hsame.stack.offset_eq
    · refine StackRun.map_frame_eq fun b hb => hsame.eqOn.mono ((h.1.range_subset hb).trans ?_)
      have hoffset := h.1.stackAt.offset_le
      exact Set.Ico_subset_Ico (Nat.le_add_right a _) (Nat.add_le_add_left hoffset _)

end Allocator

/-! ## Processes -/

namespace Heap

variable {k : Kernel} {s₀ s' : Proc} {h : Heap} {op : HeapOp} {i : ℕ} {c : Allocator}

/-- What the allocators of a process look like from outside. -/
def model (h : Heap) : HeapModel := h.allocators.map (·.map (·.model h.proc))

/-- A step of the process is a step of the models, and an operation is answered with the block that
the model answers with. -/
def RefinesStep (k : Kernel) (h : Heap) (op : HeapOp) : Prop :=
  ∃ out, HeapModel.Step h.model op out (h.step k op).model ∧
    ∀ i input c, op = .use i input → h.allocators[i]? = some (some c) →
      c.answer h.proc input = .ok (out.elim NULL (c.base + ·))

/-- What every run keeps. -/
structure ModelInv (s₀ : Proc) (h : Heap) : Prop extends Inv s₀ h where
  ordered : ∀ (i : ℕ) (c : Allocator), h.allocators[i]? = some (some c) → c.Ordered

theorem getElem?_model (h : Heap) (i : ℕ) :
    h.model[i]? = h.allocators[i]?.map (·.map (·.model h.proc)) := List.getElem?_map

/-- An allocator that is left alone looks as before. -/
theorem ModelInv.model_spared (hinv : ModelInv s₀ h) {h' : Heap} (hspares : Spares h h' i)
    (hc : h.allocators[i]? = some (some c)) : c.model h'.proc = c.model h.proc := by
  have hc' := hinv.inv i c hc
  exact hc'.model_congr (hinv.ordered i c hc) (hspares.sameOn hc (hinv.mem_maps hc) hc')

/-- Allocators that are left alone look as before. -/
theorem ModelInv.map_model (hinv : ModelInv s₀ h) {h' : Heap} (hspares : ∀ j, Spares h h' j) :
    h.allocators.map (·.map (·.model h'.proc)) = h.model := by
  refine List.map_congr_left fun o ho => ?_
  obtain ⟨j, hj⟩ := List.mem_iff_getElem?.mp ho
  cases o with
  | none => rfl
  | some c => exact congrArg some (hinv.model_spared (hspares j) hj)

/-- A step of one allocator is seen in its model only. -/
theorem ModelInv.model_set (hinv : ModelInv s₀ h) (o : Option Allocator)
    (hspares : ∀ j, j ≠ i → Spares h ⟨s', h.allocators.set i o⟩ j) :
    (Heap.mk s' (h.allocators.set i o)).model = h.model.set i (o.map (·.model s')) := by
  apply List.ext_getElem?
  intro j
  rw [getElem?_model]
  rcases eq_or_ne i j with rfl | hne
  · rw [List.getElem?_set, List.getElem?_set, if_pos rfl, if_pos rfl, model, List.length_map]
    split
    · rfl
    · rfl
  · rw [List.getElem?_set_ne hne, List.getElem?_set_ne hne, getElem?_model]
    cases hj : h.allocators[j]? with
    | none => rfl
    | some o' =>
      cases o' with
      | none => rfl
      | some c =>
        exact congrArg (fun m => some (some m)) (hinv.model_spared (hspares j hne.symm) hj)

/-- What is made is seen behind all others, and they look as before. -/
theorem ModelInv.created (hinv : ModelInv s₀ h) (out : ℕ × Proc) (make : ℕ → Allocator)
    (hcreated : Inv s₀ (h.created out make)) (hspares : ∀ j, Spares h (h.created out make) j)
    (ho : (make out.1).Ordered) :
    ModelInv s₀ (h.created out make) ∧ (h.created out make).model =
      if out.1 = NULL then h.model else h.model ++ [some ((make out.1).model out.2)] := by
  have hold := hinv.map_model hspares
  refine ⟨⟨hcreated, fun i c hc => ?_⟩, ?_⟩
  · rw [Heap.created] at hc
    dsimp only at hc
    split at hc
    · exact hinv.ordered i c hc
    · rw [List.getElem?_append] at hc
      split at hc
      · exact hinv.ordered i c hc
      · -- the new allocator is the only one that is not an old one
        obtain rfl := Option.some.inj (List.mem_singleton.mp (List.mem_of_getElem? hc))
        exact ho
  · rw [Heap.model]
    rw [Heap.created] at hold ⊢
    dsimp only at hold ⊢
    split
    · exact hold
    · rw [List.map_append, hold]
      rfl

/-- A step of one allocator keeps the others ordered. -/
theorem ModelInv.set (hinv : ModelInv s₀ h) {o : Option Allocator}
    (hset : Inv s₀ ⟨s', h.allocators.set i o⟩) (ho : ∀ c, o = some c → c.Ordered) :
    ModelInv s₀ ⟨s', h.allocators.set i o⟩ := by
  refine ⟨hset, fun j c hc => ?_⟩
  dsimp only at hc
  rw [List.getElem?_set] at hc
  split at hc
  · split at hc
    · exact ho c (Option.some.inj hc)
    · cases hc
  · exact hinv.ordered j c hc

/-- An allocator that is not there has no model. -/
theorem model_absent (habsent : ∀ c, h.allocators[i]? ≠ some (some c)) (m : AllocatorModel) :
    h.model[i]? ≠ some (some m) := by
  rw [getElem?_model]
  intro hm
  obtain ⟨o, ho, hmap⟩ := Option.map_eq_some_iff.mp hm
  obtain ⟨c, rfl, -⟩ := Option.map_eq_some_iff.mp hmap
  exact habsent c ho

/-- A step of an allocator that is not there is none at all. -/
theorem step_absent (habsent : ∀ c, h.allocators[i]? ≠ some (some c)) (hop : op.Touches i) :
    h.step k op = h := by
  cases op with
  | arenaCreate capacity => exact hop.elim
  | stackCreate capacity => exact hop.elim
  | use j input =>
    obtain rfl : i = j := hop
    rw [Heap.step]
    split
    · next c hc => exact absurd hc (habsent c)
    · rfl
  | destroy j =>
    obtain rfl : i = j := hop
    rw [Heap.step]
    split
    · next c hc => exact absurd hc (habsent c)
    · rfl

/-- A new arena looks new. -/
theorem model_arenaCreate {capacity : UInt64} {s : Proc}
    (h : (arenaCreate k capacity s).1 ≠ NULL) :
    Allocator.model (.arena (arenaCreate k capacity s).1 capacity [] [])
      (arenaCreate k capacity s).2 = .arena (.fresh capacity.toNat) := by
  refine congrArg AllocatorModel.arena ?_
  ext1
  · rfl
  · exact (arenaAt_create h).2
  · rfl
  · rfl

/-- A new stack looks new. -/
theorem model_stackCreate {capacity : UInt64} {s : Proc}
    (h : (stackCreate k capacity s).1 ≠ NULL) :
    Allocator.model (.stack (stackCreate k capacity s).1 capacity [])
      (stackCreate k capacity s).2 =
        .stack (.fresh capacity.toNat (StackRun.reach (stackCreate k capacity s).1 capacity)) := by
  refine congrArg AllocatorModel.stack ?_
  ext1
  · rfl
  · rfl
  · exact (stackAt_create h).2
  · rfl

/-- A step keeps the invariant and is a step of the models. -/
theorem ModelInv.step (hinv : ModelInv s₀ h) (hok : h.Ok op) :
    ModelInv s₀ (h.step k op) ∧ RefinesStep k h op := by
  obtain ⟨hinv', hspares⟩ := hinv.toInv.step (k := k) hok
  cases op with
  | arenaCreate capacity =>
    obtain ⟨hcreated, hmodel⟩ := hinv.created (AgentResources.arenaCreate k capacity h.proc)
      (.arena · capacity [] []) hinv' (fun j => hspares j id)
      (fun _ _ hb => absurd hb List.not_mem_nil)
    refine ⟨hcreated, none, ?_, fun i input c hop => by cases hop⟩
    rw [Heap.step, hmodel]
    split
    · exact .arenaRefused _ _
    · next hne =>
      rw [model_arenaCreate hne]
      exact .arenaCreate _ _
  | stackCreate capacity =>
    obtain ⟨hcreated, hmodel⟩ := hinv.created (AgentResources.stackCreate k capacity h.proc)
      (.stack · capacity []) hinv' (fun j => hspares j id) trivial
    refine ⟨hcreated, none, ?_, fun i input c hop => by cases hop⟩
    rw [Heap.step, hmodel]
    split
    · exact .stackRefused _ _
    · next hne =>
      rw [model_stackCreate hne]
      exact .stackCreate _ _ _
  | use i input =>
    by_cases hex : ∃ c, h.allocators[i]? = some (some c)
    · obtain ⟨c, hc⟩ := hex
      have hstep : h.step k (.use i input) =
          ⟨(c.step h.proc input).2, h.allocators.set i (some (c.step h.proc input).1)⟩ := by
        rw [Heap.step, hc]
      -- the allocator in the slot steps as its model does
      obtain ⟨hmodel, hordered, hanswer⟩ :=
        (hinv.inv i c hc).model_step (hinv.ordered i c hc) (hok c hc)
      rw [hstep] at hinv' hspares
      refine ⟨?_, (c.model h.proc).answer input, ?_, fun j input' c' hop hc' => ?_⟩
      · rw [hstep]
        exact hinv.set hinv' fun c' hc' => Option.some.inj hc' ▸ hordered
      · rw [hstep, hinv.model_set _ fun j hne => hspares j hne, Option.map_some, hmodel]
        refine .use input ?_
        rw [getElem?_model, hc]
        rfl
      · cases hop
        obtain rfl : c = c' := by
          rw [hc] at hc'
          exact Option.some.inj (Option.some.inj hc')
        exact hanswer
    · -- an empty slot: neither heap moves
      have hstep : h.step k (.use i input) = h := step_absent (fun c hc => hex ⟨c, hc⟩) rfl
      refine ⟨?_, none, ?_, fun j input' c' hop hc' => ?_⟩
      · rw [hstep]
        exact hinv
      · rw [hstep]
        exact .useAbsent input (model_absent fun c hc => hex ⟨c, hc⟩)
      · cases hop
        exact absurd ⟨c', hc'⟩ hex
  | destroy i =>
    by_cases hex : ∃ c, h.allocators[i]? = some (some c)
    · obtain ⟨c, hc⟩ := hex
      -- the slot is emptied in both heaps
      have hstep : h.step k (.destroy i) = ⟨c.destroy h.proc, h.allocators.set i none⟩ := by
        rw [Heap.step, hc]
      rw [hstep] at hinv' hspares
      refine ⟨?_, none, ?_, fun j input' c' hop => by cases hop⟩
      · rw [hstep]
        exact hinv.set hinv' fun c' hc' => by cases hc'
      · rw [hstep, hinv.model_set _ fun j hne => hspares j hne]
        refine .destroy (c := c.model h.proc) ?_
        rw [getElem?_model, hc]
        rfl
    · have hstep : h.step k (.destroy i) = h := step_absent (fun c hc => hex ⟨c, hc⟩) rfl
      refine ⟨?_, none, ?_, fun j input' c' hop => by cases hop⟩
      · rw [hstep]
        exact hinv
      · rw [hstep]
        exact .destroyAbsent (model_absent fun c hc => hex ⟨c, hc⟩)

end Heap

open Heap in
/-- Every step of every run of a process with any number of arenas and stacks is a step of their
models. -/
theorem heap_refines (k : Kernel) {s₀ : Proc} (hs : s₀.Tidy) {ops : List HeapOp}
    (hok : Run.Along (step k) Ok (start s₀) ops) :
    Run.Along (step k) (RefinesStep k) (start s₀) ops :=
  Run.along_of_invariant (fun _ _ hinv hok => (hinv.step hok).1)
    (fun _ _ hinv hok => (hinv.step hok).2)
    (show ModelInv s₀ _ from ⟨Inv.start hs, by simp [start]⟩) hok

open Heap in
theorem heap_refines_sample :
    Run.Along (step .above) (RefinesStep .above) (start .onePage) (sampleBefore ++ sampleAfter) :=
  heap_refines .above Proc.tidy_onePage ok_sample

end AgentResources
