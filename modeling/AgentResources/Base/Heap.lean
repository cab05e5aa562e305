import AgentResources.Base.Locality
import AgentResources.Foundations.Isolation
import AgentResources.Foundations.MappedParts

/-!
# Many allocators in one process

A process makes arenas and stacks at any time, uses them in any order and destroys them in any
order. Each has a mapping of its own, and it looks at and writes to that mapping only. So the
process behaves as if each of them were alone: what one does is never noticed by another.

## Main definitions

* `Allocator`, `Allocator.machine`: an arena or a stack, with what its user knows of it;
* `Heap`, `HeapOp`, `Heap.step`: a process and its allocators;
* `Heap.Inv`: the invariant of every run;
* `Heap.SafeStep`: what the users rely on at one step.

## Main results

* `heap_isolated`: every allocator is as it would be had it been used alone;
* `heap_safe`: every step gives the guarantees of its allocator and leaves the others alone;
* `heap_mappings`: what is mapped are the mappings of the allocators that are there.
-/

namespace AgentResources

/-- An allocator, with what its user knows of it. -/
inductive Allocator
  | arena (arena : ℕ) (capacity : UInt64) (temps : List TempArena) (live : List (ℕ × ℕ))
  | stack (stack : ℕ) (capacity : UInt64) (live : List StackBlock)
  deriving DecidableEq

/-- An operation on an allocator. -/
inductive AllocatorOp
  | arena (op : ArenaOp)
  | stack (op : StackOp)

namespace Allocator

/-- The mapping of an allocator. -/
def mapping : Allocator → Mapping
  | .arena a capacity _ _ => arenaMapping a capacity
  | .stack a capacity _ => stackMapping a capacity

/-- One step. An operation of the other kind is none at all. -/
def step : Allocator → Proc → AllocatorOp → Allocator × Proc
  | .arena a capacity temps live, s, .arena op =>
    let r := ArenaRun.step a ⟨s, temps, live⟩ op
    (.arena a capacity r.temps r.live, r.proc)
  | .stack a capacity live, s, .stack op =>
    let r := StackRun.step a ⟨s, live⟩ op
    (.stack a capacity r.live, r.proc)
  | c, s, _ => (c, s)

/-- What an operation returns. -/
def answer : Allocator → Proc → AllocatorOp → Except Halt ℕ
  | .arena a _ temps live, s, .arena op => ArenaRun.result a ⟨s, temps, live⟩ op
  | .stack a _ live, s, .stack op => StackRun.result a ⟨s, live⟩ op
  | _, _, _ => .ok NULL

/-- `arena_destroy` or `stack_destroy` -/
def destroy : Allocator → Proc → Proc
  | .arena a _ _ _, s => arenaDestroy a s
  | .stack a _ _, s => stackDestroy a s

/-- An allocator as a machine on the process. -/
def machine : Machine Proc Allocator AllocatorOp (Except Halt ℕ) := ⟨step, answer⟩

/-- The addresses an allocator looks at. -/
def region : Allocator → Set ℕ
  | .arena a capacity _ _ => ArenaRun.region a capacity
  | .stack a capacity _ => StackRun.region a capacity

/-- What is known of an allocator: the invariant of its runs. The length that is mapped has not
wrapped. -/
def Inv : Allocator → Proc → Prop
  | .arena a capacity temps live, s =>
    ArenaRun.Inv a capacity ⟨s, temps, live⟩ ∧ capacity.toNat + sizeofMemArena < 2 ^ 64
  | .stack a capacity live, s =>
    StackRun.Inv a capacity ⟨s, live⟩ ∧ a ≠ NULL ∧ capacity.toNat + sizeofMemStack < 2 ^ 64

/-- The sums of an operation do not wrap. -/
def Ok : Allocator → Proc → AllocatorOp → Prop
  | .arena a _ _ _, s, .arena op => ∀ n, op.request = some n → position a s + n < 2 ^ 64
  | .stack a capacity live, s, .stack op => StackRun.Fits a capacity ⟨s, live⟩ op
  | _, _, _ => True

variable {c : Allocator} {s s' : Proc} {op : AllocatorOp}

/-- All that an allocator looks at is mapped. -/
theorem Inv.region_subset (h : c.Inv s) : c.region ⊆ Set.Ico c.mapping.lo c.mapping.hi := by
  cases c with
  | arena a capacity temps live =>
    have hlen : mappingLen capacity = capacity.toNat + sizeofMemArena := by
      rw [mappingLen, UInt64.toNat_add]
      exact Nat.mod_eq_of_lt h.2
    have hle := le_pageRound (mappingLen capacity)
    refine Set.Ico_subset_Ico le_rfl ?_
    simp only [arenaBase, mapping, arenaMapping]
    omega
  | stack a capacity live =>
    have hlen : stackMappingLen capacity = capacity.toNat + sizeofMemStack := by
      rw [stackMappingLen, UInt64.toNat_add]
      exact Nat.mod_eq_of_lt h.2.2
    have hle := le_pageRound (stackMappingLen capacity)
    refine Set.Ico_subset_Ico le_rfl ?_
    simp only [stackBase, mapping, stackMapping]
    omega

/-- A step keeps the invariant and the place of the allocator, and it writes to the bytes that the
allocator looks at only. -/
theorem Inv.step (h : c.Inv s) (hok : c.Ok s op) :
    (c.step s op).1.Inv (c.step s op).2 ∧ (c.step s op).1.mapping = c.mapping ∧
      (c.step s op).1.region = c.region ∧ (c.step s op).2.maps = s.maps ∧
      Set.EqOn (c.step s op).2.mem.byte s.mem.byte c.regionᶜ := by
  cases c with
  | arena a capacity temps live =>
    cases op with
    | arena op =>
      obtain ⟨hmaps, heq⟩ := h.1.step_region op
      exact ⟨⟨h.1.step op, h.2⟩, rfl, rfl, hmaps, heq⟩
    | stack op => exact ⟨h, rfl, rfl, rfl, fun _ _ => rfl⟩
  | stack a capacity live =>
    cases op with
    | arena op => exact ⟨h, rfl, rfl, rfl, fun _ _ => rfl⟩
    | stack op =>
      obtain ⟨hmaps, heq⟩ := h.1.step_region op
      exact ⟨⟨h.1.step op, h.2⟩, rfl, rfl, hmaps, heq⟩

/-- Two processes that are alike to an allocator: they have the same bytes in its region, and both
or neither have its mapping. -/
structure SameOn (R : Set ℕ) (m : Mapping) (s s' : Proc) : Prop where
  eqOn : Set.EqOn s'.mem.byte s.mem.byte R
  mem_maps_iff : m ∈ s'.maps ↔ m ∈ s.maps

theorem SameOn.arena {a : ℕ} {capacity : UInt64} {temps : List TempArena} {live : List (ℕ × ℕ)}
    (hsame : SameOn (Allocator.arena a capacity temps live).region
      (Allocator.arena a capacity temps live).mapping s s') :
    ArenaRun.SameOn a capacity ⟨s, temps, live⟩ ⟨s', temps, live⟩ :=
  ⟨rfl, rfl, hsame.eqOn, hsame.mem_maps_iff⟩

theorem SameOn.stack {a : ℕ} {capacity : UInt64} {live : List StackBlock}
    (hsame : SameOn (Allocator.stack a capacity live).region
      (Allocator.stack a capacity live).mapping s s') :
    StackRun.SameOn a capacity ⟨s, live⟩ ⟨s', live⟩ :=
  ⟨rfl, hsame.eqOn, hsame.mem_maps_iff⟩

/-- An allocator is known by the bytes of its region and by its mapping. -/
theorem Inv.of_sameOn (h : c.Inv s) (hsame : SameOn c.region c.mapping s s') : c.Inv s' := by
  cases c with
  | arena a capacity temps live => exact ⟨hsame.arena.inv h.1, h.2⟩
  | stack a capacity live => exact ⟨hsame.stack.inv h.1, h.2⟩

theorem Ok.of_sameOn (hok : c.Ok s op) (hsame : SameOn c.region c.mapping s s') : c.Ok s' op := by
  cases c with
  | arena a capacity temps live =>
    cases op with
    | arena op =>
      have hpos : position a s' = position a s := hsame.arena.position_eq
      intro n hreq
      rw [hpos]
      exact hok n hreq
    | stack op => trivial
  | stack a capacity live =>
    cases op with
    | arena op => trivial
    | stack op =>
      have hoffset : offset a s' = offset a s := hsame.stack.offset_eq
      intro size al hreq
      simp only [pushEnd, hoffset]
      exact hok size al hreq

/-- A step and its answer depend on the bytes of the region and on the mapping only. -/
theorem Inv.step_sameOn (h : c.Inv s) (op : AllocatorOp)
    (hsame : SameOn c.region c.mapping s s') :
    (c.step s' op).1 = (c.step s op).1 ∧
      SameOn c.region c.mapping (c.step s op).2 (c.step s' op).2 ∧
      c.answer s' op = c.answer s op := by
  cases c with
  | arena a capacity temps live =>
    cases op with
    | arena op =>
      obtain ⟨hstep, hanswer⟩ := hsame.arena.step h.1.toHeaderInv h.2 op
      refine ⟨?_, ⟨hstep.eqOn, hstep.mem_maps_iff⟩, hanswer⟩
      simp only [Allocator.step, hstep.temps_eq, hstep.live_eq]
    | stack op => exact ⟨rfl, hsame, rfl⟩
  | stack a capacity live =>
    cases op with
    | arena op => exact ⟨rfl, hsame, rfl⟩
    | stack op =>
      obtain ⟨hstep, hanswer⟩ := hsame.stack.step h.1 h.2.2 op
      refine ⟨?_, ⟨hstep.eqOn, hstep.mem_maps_iff⟩, hanswer⟩
      simp only [Allocator.step, hstep.live_eq]

/-- An allocator is isolated by its region and its mapping. -/
theorem isolated (R : Set ℕ) (m : Mapping) :
    machine.Isolated (SameOn R m) (fun c s => (c.region = R ∧ c.mapping = m) ∧ c.Inv s) Ok where
  equivalence := ⟨fun _ => ⟨fun _ _ => rfl, Iff.rfl⟩, fun h => ⟨h.eqOn.symm, h.mem_maps_iff.symm⟩,
    fun h h' => ⟨h'.eqOn.trans h.eqOn, h'.mem_maps_iff.trans h.mem_maps_iff⟩⟩
  inv_step c s op h hok := by
    obtain ⟨hinv, hmapping, hregion, -⟩ := h.2.step hok
    exact ⟨⟨hregion.trans h.1.1, hmapping.trans h.1.2⟩, hinv⟩
  inv_same c s s' hsame h := by
    obtain ⟨⟨rfl, rfl⟩, hinv⟩ := h
    exact ⟨⟨rfl, rfl⟩, hinv.of_sameOn hsame⟩
  ok_same c s s' op hsame h hok := by
    obtain ⟨⟨rfl, rfl⟩, -⟩ := h
    exact hok.of_sameOn hsame
  step_same c s s' op hsame h hok := by
    obtain ⟨⟨rfl, rfl⟩, hinv⟩ := h
    obtain ⟨hstep, heq, -⟩ := hinv.step_sameOn op hsame
    exact ⟨hstep, heq⟩
  answer_same c s s' op hsame h hok := by
    obtain ⟨⟨rfl, rfl⟩, hinv⟩ := h
    exact (hinv.step_sameOn op hsame).2.2

/-- A step passes all other mappings by. -/
theorem Inv.step_passes (h : c.Inv s) (hok : c.Ok s op) (hs : s.Tidy) (hc : c.mapping ∈ s.maps) :
    Proc.parts.Passes [c.mapping] [c.mapping] s (c.step s op).2 := by
  obtain ⟨-, -, -, hmaps, heq⟩ := h.step hok
  exact Proc.passes_of_write hs hc hmaps (heq.mono (Set.compl_subset_compl.mpr h.region_subset))

/-- Destroying an allocator gives back its mapping. -/
theorem Inv.destroy_passes (h : c.Inv s) (hs : s.Tidy) (hc : c.mapping ∈ s.maps) :
    Proc.parts.Passes [c.mapping] [] s (c.destroy s) := by
  have hdestroy : ∃ a len, c.mapping = ⟨a, a + pageRound len⟩ ∧ c.destroy s = s.munmap a len := by
    cases c with
    | arena a capacity temps live =>
      refine ⟨a, mappingLen capacity, rfl, ?_⟩
      rw [destroy, arenaDestroy, if_neg h.1.arenaAt.ne_null, h.1.arenaAt.capacity_eq]
    | stack a capacity live =>
      refine ⟨a, stackMappingLen capacity, rfl, ?_⟩
      rw [destroy, stackDestroy, if_neg h.2.1, h.1.stackAt.capacity_eq]
  obtain ⟨a, len, hmapping, hmunmap⟩ := hdestroy
  rw [hmapping] at hc ⊢
  rw [hmunmap]
  exact Proc.passes_of_munmap hs hc

end Allocator

/-- An operation on a process with many allocators. -/
inductive HeapOp
  /-- `arena_create` -/
  | arenaCreate (capacity : UInt64)
  /-- `stack_create` -/
  | stackCreate (capacity : UInt64)
  /-- An operation on the `i`-th allocator made so far. -/
  | use (i : ℕ) (op : AllocatorOp)
  /-- `arena_destroy` or `stack_destroy` of the `i`-th allocator made so far. -/
  | destroy (i : ℕ)

/-- The operation is one on the `i`-th allocator. -/
def HeapOp.Touches (i : ℕ) : HeapOp → Prop
  | .use j _ => i = j
  | .destroy j => i = j
  | _ => False

/-- What an operation asks of the `i`-th allocator. -/
def HeapOp.input (i : ℕ) : HeapOp → Option AllocatorOp
  | .use j op => if i = j then some op else none
  | _ => none

/-- A process and the allocators made so far, without those that were destroyed. -/
structure Heap where
  /-- The process. -/
  proc : Proc
  /-- The allocators, oldest first. -/
  allocators : List (Option Allocator)

namespace Heap

/-- A process without allocators. -/
def start (s : Proc) : Heap := ⟨s, []⟩

/-- Continue after a creation. -/
def created (h : Heap) (out : ℕ × Proc) (make : ℕ → Allocator) : Heap where
  proc := out.2
  allocators := if out.1 = NULL then h.allocators else h.allocators ++ [some (make out.1)]

/-- One step. An operation on an allocator that is not there is none at all. -/
def step (k : Kernel) (h : Heap) : HeapOp → Heap
  | .arenaCreate capacity => h.created (arenaCreate k capacity h.proc) (.arena · capacity [] [])
  | .stackCreate capacity => h.created (stackCreate k capacity h.proc) (.stack · capacity [])
  | .use i op =>
    match h.allocators[i]? with
    | some (some c) => ⟨(c.step h.proc op).2, h.allocators.set i (some (c.step h.proc op).1)⟩
    | _ => h
  | .destroy i =>
    match h.allocators[i]? with
    | some (some c) => ⟨c.destroy h.proc, h.allocators.set i none⟩
    | _ => h

/-- What the `i`-th allocator answers to an operation on it. -/
def answer (h : Heap) (i : ℕ) (op : HeapOp) : Option (Except Halt ℕ) :=
  match op.input i, h.allocators[i]? with
  | some input, some (some c) => some (c.answer h.proc input)
  | _, _ => none

/-- What the `i`-th allocator answers along a run. -/
def answers (k : Kernel) (i : ℕ) : Heap → List HeapOp → List (Except Halt ℕ)
  | _, [] => []
  | h, op :: ops => (h.answer i op).toList ++ answers k i (h.step k op) ops

/-- No sum of an operation wraps. -/
def Ok (h : Heap) : HeapOp → Prop
  | .arenaCreate capacity => capacity.toNat + sizeofMemArena < 2 ^ 64
  | .stackCreate capacity => capacity.toNat + sizeofMemStack < 2 ^ 64
  | .use i op => ∀ c, h.allocators[i]? = some (some c) → c.Ok h.proc op
  | .destroy _ => True

/-- The mappings of the allocators that are there, and what is known of each of them. -/
structure Inv (s₀ : Proc) (h : Heap) : Prop where
  divides : ∃ own, Proc.parts.Divides s₀.maps s₀ h.proc h.allocators.length own ∧
    ∀ i o, h.allocators[i]? = some o → own i = o.toList.map Allocator.mapping
  inv : ∀ (i : ℕ) (c : Allocator), h.allocators[i]? = some (some c) → c.Inv h.proc

/-- A step that leaves the `i`-th allocator alone. -/
def Spares (h h' : Heap) (i : ℕ) : Prop :=
  ∀ c : Allocator, h.allocators[i]? = some (some c) →
    h'.allocators[i]? = some (some c) ∧ c.mapping ∈ h'.proc.maps ∧
      Set.EqOn h'.proc.mem.byte h.proc.mem.byte (Set.Ico c.mapping.lo c.mapping.hi)

variable {k : Kernel} {s₀ s' : Proc} {h h' : Heap} {op : HeapOp} {i : ℕ} {c : Allocator}

/-- To an allocator that is left alone the process is as it was. -/
theorem Spares.sameOn (hspares : Spares h h' i) (hc : h.allocators[i]? = some (some c))
    (hmaps : c.mapping ∈ h.proc.maps) (hinv : c.Inv h.proc) :
    Allocator.SameOn c.region c.mapping h.proc h'.proc := by
  obtain ⟨-, hmaps', heq⟩ := hspares c hc
  exact ⟨heq.mono hinv.region_subset, iff_of_true hmaps' hmaps⟩

namespace Inv

theorem start (hs : s₀.Tidy) : Inv s₀ (Heap.start s₀) where
  divides := ⟨fun _ => [], .zero hs (fun _ hr => hr) _, fun i o ho => by simp [Heap.start] at ho⟩
  inv i c hc := by simp [Heap.start] at hc

theorem tidy (hinv : Inv s₀ h) : h.proc.Tidy := by
  obtain ⟨own, hdivides, -⟩ := hinv.divides
  exact hdivides.inv

/-- The mapping of an allocator is there. -/
theorem mem_maps (hinv : Inv s₀ h) (hc : h.allocators[i]? = some (some c)) :
    c.mapping ∈ h.proc.maps := by
  obtain ⟨own, hdivides, hown⟩ := hinv.divides
  refine hdivides.holds i (List.getElem?_eq_some_iff.mp hc).1 _ ?_
  rw [hown i _ hc]
  exact List.mem_singleton_self _

/-- A step of one allocator, which may be gone after it. -/
theorem set (hinv : Inv s₀ h) (hc : h.allocators[i]? = some (some c)) {o : Option Allocator}
    (hpass : Proc.parts.Passes [c.mapping] (o.toList.map Allocator.mapping) h.proc s')
    (ho : ∀ c', o = some c' → c'.Inv s') :
    Inv s₀ ⟨s', h.allocators.set i o⟩ ∧
      ∀ j, j ≠ i → Spares h ⟨s', h.allocators.set i o⟩ j := by
  obtain ⟨own, hdivides, hown⟩ := hinv.divides
  have hi := (List.getElem?_eq_some_iff.mp hc).1
  have hpass' : Proc.parts.Passes (own i) (o.toList.map Allocator.mapping) h.proc s' := by
    rw [hown i _ hc]
    exact hpass
  have hspares : ∀ j, j ≠ i → Spares h ⟨s', h.allocators.set i o⟩ j := by
    intro j hne c' hc'
    obtain ⟨hholds, hsame, -⟩ :=
      hdivides.passed hi hpass' (List.getElem?_eq_some_iff.mp hc').1 hne
    have hmem : c'.mapping ∈ own j := by
      rw [hown j _ hc']
      exact List.mem_singleton_self _
    exact ⟨by rw [List.getElem?_set_ne hne.symm, hc'], hholds _ hmem, hsame _ hmem⟩
  -- slot `i` holds what the step made of it, every other slot what it held
  refine ⟨⟨⟨Function.update own i (o.toList.map Allocator.mapping), ?_, fun j o' ho' => ?_⟩,
    fun j c' hc' => ?_⟩, hspares⟩
  · rw [List.length_set]
    exact hdivides.pass hi hpass'
  · rcases eq_or_ne j i with rfl | hne
    · rw [List.getElem?_set_self hi] at ho'
      obtain rfl := Option.some.inj ho'
      rw [Function.update_self]
    · rw [List.getElem?_set_ne hne.symm] at ho'
      rw [Function.update_of_ne hne]
      exact hown j o' ho'
  · rcases eq_or_ne j i with rfl | hne
    · rw [List.getElem?_set_self hi] at hc'
      exact ho c' (Option.some.inj hc')
    · -- the bytes of another allocator are as they were
      rw [List.getElem?_set_ne hne.symm] at hc'
      have hinv' := hinv.inv j c' hc'
      exact hinv'.of_sameOn ((hspares j hne).sameOn hc' (hinv.mem_maps hc') hinv')

/-- A new allocator. -/
theorem append (hinv : Inv s₀ h) (hpass : Proc.parts.Passes [] [c.mapping] h.proc s')
    (hc : c.Inv s') :
    Inv s₀ ⟨s', h.allocators ++ [some c]⟩ ∧ ∀ j, Spares h ⟨s', h.allocators ++ [some c]⟩ j := by
  obtain ⟨own, hdivides, hown⟩ := hinv.divides
  obtain ⟨hjoin, hothers⟩ := hdivides.join hpass
  have hspares : ∀ j, Spares h ⟨s', h.allocators ++ [some c]⟩ j := by
    intro j c' hc'
    have hj := (List.getElem?_eq_some_iff.mp hc').1
    obtain ⟨hholds, hsame⟩ := hothers j hj
    rw [hown j _ hc'] at hholds hsame
    exact ⟨by rw [List.getElem?_append_left hj, hc'], hholds _ (List.mem_singleton_self _),
      hsame _ (List.mem_singleton_self _)⟩
  -- an allocator of the new heap is an old one or the new one
  have hcases : ∀ (j : ℕ) (o : Option Allocator), (h.allocators ++ [some c])[j]? = some o →
      (j < h.allocators.length ∧ h.allocators[j]? = some o) ∨
        (j = h.allocators.length ∧ o = some c) := by
    intro j o ho
    rcases Nat.lt_or_ge j h.allocators.length with hj | hj
    · rw [List.getElem?_append_left hj] at ho
      exact .inl ⟨hj, ho⟩
    · rw [List.getElem?_append_right hj, List.getElem?_singleton] at ho
      split at ho
      · exact .inr ⟨by omega, (Option.some.inj ho).symm⟩
      · cases ho
  refine ⟨⟨⟨Function.update own h.allocators.length [c.mapping], ?_, fun j o ho => ?_⟩,
    fun j c' hc' => ?_⟩, hspares⟩
  · rw [List.length_append, List.length_singleton]
    exact hjoin
  · rcases hcases j o ho with ⟨hj, ho⟩ | ⟨rfl, rfl⟩
    · rw [Function.update_of_ne hj.ne]
      exact hown j o ho
    · rw [Function.update_self]
      rfl
  · rcases hcases j _ hc' with ⟨hj, hc'⟩ | ⟨-, heq⟩
    · have hinv' := hinv.inv j c' hc'
      exact hinv'.of_sameOn ((hspares j).sameOn hc' (hinv.mem_maps hc') hinv')
    · obtain rfl := Option.some.inj heq
      exact hc

theorem spares_self (hinv : Inv s₀ h) (i : ℕ) : Spares h h i :=
  fun _ hc => ⟨hc, hinv.mem_maps hc, fun _ _ => rfl⟩

/-- A new arena. -/
theorem arenaCreate (hinv : Inv s₀ h) {capacity : UInt64}
    (hcap : capacity.toNat + sizeofMemArena < 2 ^ 64) :
    Inv s₀ (h.step k (.arenaCreate capacity)) ∧
      ∀ j, Spares h (h.step k (.arenaCreate capacity)) j := by
  rw [Heap.step, created]
  cases hgrant : k.mmap h.proc.maps (mappingLen capacity) with
  | none =>
    rw [arenaCreate_of_refused hgrant, if_pos rfl]
    exact ⟨hinv, hinv.spares_self⟩
  | some a =>
    obtain ⟨ha, hne, hmaps, heq⟩ := arenaCreate_of_granted hgrant
    have hrun := ArenaRun.inv_start (k := k) (s := h.proc) (by rw [ha]; exact hne)
    rw [ha] at hrun
    rw [ha, if_neg hne]
    exact hinv.append (Proc.passes_of_mmap hinv.tidy hgrant hmaps heq) ⟨hrun, hcap⟩

/-- A new stack. -/
theorem stackCreate (hinv : Inv s₀ h) {capacity : UInt64}
    (hcap : capacity.toNat + sizeofMemStack < 2 ^ 64) :
    Inv s₀ (h.step k (.stackCreate capacity)) ∧
      ∀ j, Spares h (h.step k (.stackCreate capacity)) j := by
  rw [Heap.step, created]
  obtain hnull | ⟨a, s', hgrant, hcreate, hne, hmaps, heq⟩ := stackCreate_cases k capacity h.proc
  · rw [hnull, if_pos rfl]
    exact ⟨hinv, hinv.spares_self⟩
  · have hrun := StackRun.Inv.start (k := k) (s := h.proc) (by rw [hcreate]; exact hne)
    rw [StackRun.start, hcreate] at hrun
    rw [hcreate, if_neg hne]
    exact hinv.append (Proc.passes_of_mmap hinv.tidy hgrant hmaps heq) ⟨hrun, hne, hcap⟩

/-- A step keeps the invariant and leaves all allocators alone that it is not an operation on. -/
theorem step (hinv : Inv s₀ h) (hok : h.Ok op) :
    Inv s₀ (h.step k op) ∧ ∀ j, ¬ op.Touches j → Spares h (h.step k op) j := by
  cases op with
  | arenaCreate capacity =>
    obtain ⟨hinv', hspares⟩ := hinv.arenaCreate hok
    exact ⟨hinv', fun j _ => hspares j⟩
  | stackCreate capacity =>
    obtain ⟨hinv', hspares⟩ := hinv.stackCreate hok
    exact ⟨hinv', fun j _ => hspares j⟩
  | use i op =>
    rw [Heap.step]
    split
    · next c hc =>
      have hc' := hinv.inv i c hc
      have hpass := hc'.step_passes (hok c hc) hinv.tidy (hinv.mem_maps hc)
      obtain ⟨hstep, hmapping, -⟩ := hc'.step (hok c hc)
      obtain ⟨hinv', hspares⟩ := hinv.set (o := some (c.step h.proc op).1) hc (by
        rw [Option.toList_some, List.map_singleton, hmapping]
        exact hpass) (fun c' heq => Option.some.inj heq ▸ hstep)
      exact ⟨hinv', fun j hj => hspares j fun h => hj h⟩
    · exact ⟨hinv, fun j _ => hinv.spares_self j⟩
  | destroy i =>
    rw [Heap.step]
    split
    · next c hc =>
      have hpass := (hinv.inv i c hc).destroy_passes hinv.tidy (hinv.mem_maps hc)
      obtain ⟨hinv', hspares⟩ := hinv.set (o := none) hc hpass (fun _ heq => by cases heq)
      exact ⟨hinv', fun j hj => hspares j fun h => hj h⟩
    · exact ⟨hinv, fun j _ => hinv.spares_self j⟩

/-- The invariant holds after every run. -/
theorem foldl (hinv : Inv s₀ h) {ops : List HeapOp} (hok : Run.Along (Heap.step k) Heap.Ok h ops) :
    Inv s₀ (ops.foldl (Heap.step k) h) :=
  Run.foldl_invariant (fun _ _ hinv hok => (hinv.step hok).1) hinv hok

end Inv

/-- An allocator that was destroyed is gone. -/
theorem step_gone (hi : h.allocators[i]? = some none) :
    (h.step k op).allocators[i]? = some none := by
  have hlt := (List.getElem?_eq_some_iff.mp hi).1
  have hcreated : ∀ out make, (h.created out make).allocators[i]? = some none := by
    intro out make
    rw [created]
    split
    · exact hi
    · rw [List.getElem?_append_left hlt, hi]
  -- a step on another slot is not a step on this one
  have hset : ∀ {j : ℕ} {c : Allocator} (o : Option Allocator),
      h.allocators[j]? = some (some c) → (h.allocators.set j o)[i]? = some none := by
    intro j c o hj
    have hne : j ≠ i := by
      rintro rfl
      rw [hi] at hj
      cases hj
    rw [List.getElem?_set_ne hne, hi]
  cases op with
  | arenaCreate capacity => exact hcreated _ _
  | stackCreate capacity => exact hcreated _ _
  | use j op =>
    rw [Heap.step]
    split
    · next c hj => exact hset _ hj
    · exact hi
  | destroy j =>
    rw [Heap.step]
    split
    · next c hj => exact hset _ hj
    · exact hi

theorem foldl_gone (ops : List HeapOp) (hi : h.allocators[i]? = some none) :
    (ops.foldl (step k) h).allocators[i]? = some none := by
  induction ops generalizing h with
  | nil => exact hi
  | cons op ops ih => exact ih (step_gone hi)

/-- The history of an allocator along a run: its own steps, and between them those of others. -/
theorem history {c₀ c' : Allocator} {s : Proc} {as : List AllocatorOp}
    {bs : List (Except Halt ℕ)} {ops : List HeapOp} (hinv : Inv s₀ h)
    (hok : Run.Along (step k) Ok h ops) (hc₀ : c₀.Inv s)
    (hc : h.allocators[i]? = some (some c))
    (hc' : (ops.foldl (step k) h).allocators[i]? = some (some c'))
    (hhistory : Allocator.machine.History (Allocator.SameOn c₀.region c₀.mapping) Allocator.Ok
      c₀ s as bs c h.proc) :
    Allocator.machine.History (Allocator.SameOn c₀.region c₀.mapping) Allocator.Ok
      c₀ s (as ++ ops.filterMap (HeapOp.input i)) (bs ++ answers k i h ops) c'
      (ops.foldl (step k) h).proc := by
  induction ops generalizing h as bs c with
  | nil =>
    obtain rfl : c = c' := by
      rw [List.foldl_nil, hc] at hc'
      cases hc'
      rfl
    simpa [answers] using hhistory
  | cons op ops ih =>
    obtain ⟨hinv', hspares⟩ := hinv.step (k := k) hok.1
    obtain ⟨⟨⟨hregion, hmapping⟩, hcInv⟩, -⟩ :=
      hhistory.eq_alone (Allocator.isolated c₀.region c₀.mapping) ⟨⟨rfl, rfl⟩, hc₀⟩
    rw [List.foldl_cons] at hc' ⊢
    rw [List.filterMap_cons, answers]
    -- a step of another allocator
    have hother : ¬ op.Touches i → op.input i = none →
        Allocator.machine.History (Allocator.SameOn c₀.region c₀.mapping)
          Allocator.Ok c₀ s (as ++ ops.filterMap (HeapOp.input i))
          (bs ++ ((h.answer i op).toList ++ answers k i (h.step k op) ops)) c'
          (ops.foldl (step k) (h.step k op)).proc := by
      intro htouch hinput
      obtain ⟨halive, -⟩ := hspares i htouch c hc
      have hsame := (hspares i htouch).sameOn hc (hinv.mem_maps hc) hcInv
      rw [hregion, hmapping] at hsame
      have hanswer : h.answer i op = none := by
        rw [Heap.answer, hinput]
      rw [hanswer, Option.toList_none, List.nil_append]
      exact ih hinv' hok.2 halive hc' (.others hhistory hsame)
    cases op with
    | arenaCreate capacity => exact hother id rfl
    | stackCreate capacity => exact hother id rfl
    | use j op =>
      by_cases hij : i = j
      · subst hij
        -- its own step
        have hinput : (HeapOp.use i op).input i = some op := if_pos rfl
        have hanswer : h.answer i (.use i op) = some (c.answer h.proc op) := by
          rw [Heap.answer, hinput, hc]
        have hstep : h.step k (.use i op) =
            ⟨(c.step h.proc op).2, h.allocators.set i (some (c.step h.proc op).1)⟩ := by
          rw [step, hc]
        have halive : (h.step k (.use i op)).allocators[i]? = some (some (c.step h.proc op).1) := by
          rw [hstep]
          exact List.getElem?_set_self (List.getElem?_eq_some_iff.mp hc).1
        have hown := hhistory.own op (hok.1 c hc)
        rw [hinput, hanswer, Option.toList_some, List.append_cons, ← List.append_assoc]
        refine ih hinv' hok.2 halive hc' ?_
        rw [hstep]
        exact hown
      · have hinput : (HeapOp.use j op).input i = none := if_neg hij
        rw [hinput]
        exact hother hij hinput
    | destroy j =>
      by_cases hij : i = j
      · -- the allocator would be gone
        subst hij
        have hgone : (h.step k (.destroy i)).allocators[i]? = some none := by
          rw [step, hc]
          exact List.getElem?_set_self (List.getElem?_eq_some_iff.mp hc).1
        rw [foldl_gone ops hgone] at hc'
        cases hc'
      · exact hother hij rfl

end Heap

open Heap in
/-- From any point of a run on, an allocator is as it would be had it been used alone from there:
its blocks and its bytes are those, and so is all that it answered. -/
theorem heap_isolated {k : Kernel} {s₀ : Proc} (hs : s₀.Tidy) {before after : List HeapOp}
    (hok : Run.Along (step k) Ok (start s₀) (before ++ after)) {i : ℕ} {c c' : Allocator}
    (hc : (before.foldl (step k) (start s₀)).allocators[i]? = some (some c))
    (hc' : ((before ++ after).foldl (step k) (start s₀)).allocators[i]? = some (some c')) :
    let h := before.foldl (step k) (start s₀)
    let alone := Allocator.machine.run c h.proc (after.filterMap (HeapOp.input i))
    c' = alone.1 ∧
      Set.EqOn ((before ++ after).foldl (step k) (start s₀)).proc.mem.byte alone.2.mem.byte
        c.region ∧
      answers k i h after = Allocator.machine.answers c h.proc
        (after.filterMap (HeapOp.input i)) := by
  intro h alone
  obtain ⟨hbefore, hafter⟩ := Run.along_append.mp hok
  have hinv : Inv s₀ h := (Inv.start hs).foldl hbefore
  rw [List.foldl_append] at hc' ⊢
  have hhistory := history hinv hafter (hinv.inv i c hc) hc hc' .start
  rw [List.nil_append, List.nil_append] at hhistory
  obtain ⟨-, hrun, hsame, hanswers⟩ :=
    hhistory.eq_alone (Allocator.isolated c.region c.mapping) ⟨⟨rfl, rfl⟩, hinv.inv i c hc⟩
  exact ⟨hrun.symm, hsame.eqOn, hanswers.symm⟩

/-- An arena and a stack, used in turn. -/
def sampleBefore : List HeapOp := [.arenaCreate 64, .stackCreate 64, .use 1 (.stack (.push 8))]

/-- The stack is destroyed, and another arena takes its place. -/
def sampleAfter : List HeapOp :=
  [.use 0 (.arena (.alloc 8)), .use 1 (.stack (.push 4)), .destroy 1, .arenaCreate 64,
    .use 2 (.arena (.alloc 32)), .use 0 (.arena (.alloc 16))]

namespace Heap

theorem Ok.use {h : Heap} {i : ℕ} {c : Allocator} {op : AllocatorOp}
    (hc : h.allocators[i]? = some (some c)) (hok : c.Ok h.proc op) : h.Ok (.use i op) := by
  intro c' hc'
  rw [hc] at hc'
  cases hc'
  exact hok

/-- No sum of the sample run wraps. -/
theorem ok_sample :
    Run.Along (step .above) Ok (start .onePage) (sampleBefore ++ sampleAfter) := by
  have harena : ∀ (h : Heap) (i a : ℕ) (size : UInt64) (live : List (ℕ × ℕ)),
      h.allocators[i]? = some (some (.arena a 64 [] live)) →
      position a h.proc + size.toNat < 2 ^ 64 → h.Ok (.use i (.arena (.alloc size))) := by
    intro h i a size live hc hlt
    refine .use hc fun n hn => ?_
    cases hn
    exact hlt
  have hstack : ∀ (h : Heap) (i a : ℕ) (size : UInt64) (live : List StackBlock),
      h.allocators[i]? = some (some (.stack a 64 live)) →
      pushEnd a size .arena h.proc < 2 ^ 64 → h.Ok (.use i (.stack (.push size))) := by
    intro h i a size live hc hlt
    refine .use hc fun size' al hreq _ => ?_
    cases hreq
    exact hlt
  have hcap : (64 : UInt64).toNat + sizeofMemArena < 2 ^ 64 := by decide
  have hcap' : (64 : UInt64).toNat + sizeofMemStack < 2 ^ 64 := by decide
  refine ⟨hcap, hcap', ?_, ?_, ?_, trivial, hcap, ?_, ?_, trivial⟩
  · exact hstack _ 1 12288 8 [] (by decide +kernel) (by decide +kernel)
  · exact harena _ 0 8192 8 [] (by decide +kernel) (by decide +kernel)
  · exact hstack _ 1 12288 4 [⟨0, 12328, 8⟩] (by decide +kernel) (by decide +kernel)
  · exact harena _ 2 12288 32 [] (by decide +kernel) (by decide +kernel)
  · exact harena _ 0 8192 16 [(8224, 8232)] (by decide +kernel) (by decide +kernel)

end Heap

open Heap in
theorem heap_isolated_sample :
    Heap.answers .above 0 (sampleBefore.foldl (step .above) (start .onePage)) sampleAfter =
      Allocator.machine.answers (.arena 8192 64 [] [])
        (sampleBefore.foldl (step .above) (start .onePage)).proc
        [.arena (.alloc 8), .arena (.alloc 16)] :=
  have hc' : ((sampleBefore ++ sampleAfter).foldl (step .above) (start .onePage)).allocators[0]? =
      some (some (.arena 8192 64 [] [(8232, 8248), (8224, 8232)])) := by decide +kernel
  (heap_isolated Proc.tidy_onePage ok_sample (by decide +kernel) hc').2.2

namespace Heap

/-- What the users of the allocators rely on at one step: the guarantees of the allocator that is
used, and that all others keep their mappings with all bytes. -/
structure SafeStep (k : Kernel) (h : Heap) (op : HeapOp) : Prop where
  arena : ∀ i a capacity temps live arenaOp, op = .use i (.arena arenaOp) →
    h.allocators[i]? = some (some (.arena a capacity temps live)) →
      ArenaRun.SafeStep a capacity ⟨h.proc, temps, live⟩ arenaOp
  stack : ∀ i a capacity live stackOp, op = .use i (.stack stackOp) →
    h.allocators[i]? = some (some (.stack a capacity live)) →
      StackRun.SafeStep a capacity ⟨h.proc, live⟩ stackOp
  others : ∀ i, ¬ op.Touches i → Spares h (h.step k op) i

theorem Inv.safeStep {k : Kernel} {s₀ : Proc} {h : Heap} {op : HeapOp} (hinv : Inv s₀ h)
    (hok : h.Ok op) : SafeStep k h op where
  arena i a capacity temps live arenaOp hop hc := by
    subst hop
    exact (hinv.inv i _ hc).1.safeStep (hinv.inv i _ hc).2 (hok _ hc)
  stack i a capacity live stackOp hop hc := by
    subst hop
    exact (hinv.inv i _ hc).1.safeStep stackOp
  others := (hinv.step hok).2

/-- The mappings of the allocators that are there. -/
def mappings (h : Heap) : List Mapping := h.allocators.flatMap (·.toList.map Allocator.mapping)

end Heap

open Heap in
/-- Along every run of a process with any number of arenas and stacks, every step is safe. -/
theorem heap_safe (k : Kernel) {s₀ : Proc} (hs : s₀.Tidy) {ops : List HeapOp}
    (hok : Run.Along (step k) Ok (start s₀) ops) :
    Run.Along (step k) (SafeStep k) (start s₀) ops :=
  Run.along_of_invariant (fun _ _ hinv hok => (hinv.step hok).1)
    (fun _ _ hinv hok => hinv.safeStep hok) (Inv.start hs) hok

open Heap in
theorem heap_safe_sample :
    Run.Along (step .above) (SafeStep .above) (start .onePage) (sampleBefore ++ sampleAfter) :=
  heap_safe .above Proc.tidy_onePage ok_sample

open Heap in
/-- What is mapped at any point of a run is what was mapped at first and the mappings of the
allocators that are there. -/
theorem heap_mappings (k : Kernel) {s₀ : Proc} (hs : s₀.Tidy) {ops : List HeapOp}
    (hok : Run.Along (step k) Ok (start s₀) ops) :
    let h := ops.foldl (step k) (start s₀)
    h.proc.maps.Perm (h.mappings ++ s₀.maps) ∧
      ∀ r ∈ s₀.maps, Set.EqOn h.proc.mem.byte s₀.mem.byte (Set.Ico r.lo r.hi) := by
  intro h
  have hinv : Inv s₀ h := (Inv.start hs).foldl hok
  obtain ⟨own, hdivides, hown⟩ := hinv.divides
  have hat : ∀ i (hi : i < h.allocators.length),
      own i = h.allocators[i].toList.map Allocator.mapping :=
    fun i hi => hown i _ (List.getElem?_eq_getElem hi)
  have hmappings : h.mappings = (List.range h.allocators.length).flatMap own := by
    rw [mappings, List.flatMap_def, List.flatMap_def]
    refine congrArg _ (List.ext_getElem (by simp) fun i hi _ => ?_)
    rw [List.length_map] at hi
    simpa using (hat i hi).symm
  refine ⟨?_, fun r hr => hdivides.base_same r hr⟩
  rw [hmappings]
  refine Proc.perm_of_divides hdivides hs fun i hi => ?_
  -- an owner has at most one mapping
  rw [hat i hi]
  cases h.allocators[i] with
  | none => exact List.nodup_nil
  | some c => exact List.nodup_singleton _

open Heap in
/-- The page from before is there with its bytes, and two arenas. -/
theorem heap_mappings_sample :
    let h := (sampleBefore ++ sampleAfter).foldl (step .above) (start .onePage)
    h.proc.maps.Perm [⟨8192, 12288⟩, ⟨12288, 16384⟩, ⟨4096, 8192⟩] ∧
      ∀ x ∈ Set.Ico 4096 8192, h.proc.mem.byte x = 7 := by
  obtain ⟨hmaps, hkept⟩ := heap_mappings .above Proc.tidy_onePage ok_sample
  refine ⟨hmaps.trans (by decide +kernel), fun x hx => ?_⟩
  exact hkept ⟨4096, 8192⟩ (List.mem_singleton_self _) hx

end AgentResources
