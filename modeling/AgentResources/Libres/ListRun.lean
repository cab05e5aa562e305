import AgentResources.Foundations.Run
import AgentResources.Libres.DiskList
import AgentResources.Libres.ProcessList

/-!
# Runs of pushes and other allocations

A run pushes to a list that grows in an arena, takes other blocks from the same arena and writes to
them. It keeps, as ghost state, what was pushed by the pushes whose growth did not fail, and the
other blocks that are live.

`ListRun.Inv` says that the entries of the list are what was pushed, and that no live block overlaps
the struct or the array. Every step without a sum that wraps keeps it (`ListRun.Inv.step`), and then
the step is as a user of the list expects (`ListRun.ListStep`).
-/

namespace AgentResources

/-- A push, another allocation on the arena, or a write of the user into a live block. -/
inductive ListOp (β : Type)
  /-- A push of an entry. -/
  | push (b : β)
  /-- `arena_alloc` of `size` bytes. -/
  | alloc (size : UInt64)
  /-- The user writes `bytes` at `offset` into the `i`-th live block. -/
  | write (i offset : ℕ) (bytes : List UInt8)

/-- The state of a run. -/
structure ListRun (α : Type) where
  /-- The process. -/
  proc : Proc
  /-- The entries whose growth did not fail, in the order they were pushed. -/
  pushed : List α
  /-- The other live blocks: their start and their length. -/
  live : List (ℕ × ℕ)

namespace ListRun

variable {α β : Type} [Layout α] {k : PushFn α β} {arena d lo : ℕ} {capacity : UInt64}
  {r : ListRun α} {op : ListOp β}

/-- One step of a run. A step that halts leaves it where it is, and a write that is not inside a
live block is no operation at all. -/
def step (k : PushFn α β) (arena d : ℕ) (r : ListRun α) : ListOp β → ListRun α
  | .push b =>
    match k.push arena d b r.proc with
    | .error _ => r
    | .ok s =>
      { r with
        proc := s
        pushed := if GrowthFails α arena d r.proc then r.pushed else r.pushed ++ [k.item b] }
  | .alloc size =>
    match arenaAlloc arena size r.proc with
    | .error _ => r
    | .ok (p, s) =>
      { r with proc := s, live := if p = NULL then r.live else (p, size.toNat) :: r.live }
  | .write i offset bytes =>
    match r.live[i]? with
    | none => r
    | some b =>
      if offset + bytes.length ≤ b.2 then
        { r with proc := r.proc.withMem (r.proc.mem.store (b.1 + offset) bytes) }
      else r

/-- The sum that the operation has checked does not wrap. -/
def NoWrap (α : Type) [Layout α] (arena d : ℕ) (r : ListRun α) : ListOp β → Prop
  | .push _ => position arena r.proc + growth α d r.proc.mem < 2 ^ 64
  | .alloc size => position arena r.proc + size.toNat < 2 ^ 64
  | .write _ _ _ => True

instance (arena d : ℕ) (r : ListRun α) : (op : ListOp β) → Decidable (NoWrap α arena d r op)
  | .push _ => inferInstanceAs (Decidable (_ < _))
  | .alloc _ => inferInstanceAs (Decidable (_ < _))
  | .write _ _ _ => inferInstanceAs (Decidable True)

/-- What the user of a list expects of a step. -/
structure ListStep (k : PushFn α β) (arena d : ℕ) (r : ListRun α) (op : ListOp β) : Prop where
  returns : ∀ b, op = .push b → ∃ s, k.push arena d b r.proc = .ok s
  answers : ∀ size, op = .alloc size → ∃ p s, arenaAlloc arena size r.proc = .ok (p, s)
  count_le : (listHead d (r.step k arena d op).proc.mem).count ≤
    (listHead d (r.step k arena d op).proc.mem).capacity
  entries_eq : entries α d (r.step k arena d op).proc.mem = (r.step k arena d op).pushed
  refused : ∀ b, op = .push b → GrowthFails α arena d r.proc →
    (r.step k arena d op).proc = r.proc
  kept : (∀ i offset bytes, op ≠ .write i offset bytes) → ∀ b ∈ r.live,
    (r.step k arena d op).proc.mem.load b.1 b.2 = r.proc.mem.load b.1 b.2

/-- A step that pushes nothing has to keep the list, and the blocks unless it writes them. -/
theorem ListStep.of_ne_push {op : ListOp β} (hop : ∀ b, op ≠ .push b)
    (hanswers : ∀ size, op = .alloc size → ∃ p s, arenaAlloc arena size r.proc = .ok (p, s))
    (hcount : (listHead d (r.step k arena d op).proc.mem).count ≤
      (listHead d (r.step k arena d op).proc.mem).capacity)
    (hentries : entries α d (r.step k arena d op).proc.mem = (r.step k arena d op).pushed)
    (hkept : (∀ i offset bytes, op ≠ .write i offset bytes) → ∀ b ∈ r.live,
      (r.step k arena d op).proc.mem.load b.1 b.2 = r.proc.mem.load b.1 b.2) :
    ListStep k arena d r op :=
  ⟨fun b hb => absurd hb (hop b), hanswers, hcount, hentries, fun b hb => absurd hb (hop b), hkept⟩

/-- A block that was handed out and has no byte of the struct or the array. -/
structure OtherBlock (α : Type) [Layout α] (arena d : ℕ) (s : Proc) (b : ℕ × ℕ) : Prop where
  base_le : arenaBase arena ≤ b.1
  end_le : b.1 + b.2 ≤ arenaBase arena + position arena s
  struct_subset : Memory.range b.1 b.2 ⊆ (Memory.range d 24)ᶜ
  array_subset : Memory.range b.1 b.2 ⊆ (Memory.range (listHead d s.mem).data.toNat
    (Layout.size α * (listHead d s.mem).capacity.toNat))ᶜ

/-- What a run keeps. -/
structure Inv (k : PushFn α β) (arena d lo : ℕ) (capacity : UInt64) (r : ListRun α) : Prop where
  list : ListInv α arena d lo capacity r.proc
  ready : k.ready (listHead d r.proc.mem).capacity
  entries_eq : entries α d r.proc.mem = r.pushed
  live : ∀ b ∈ r.live, OtherBlock α arena d r.proc b

/-- A step of the list leaves the other blocks alone. -/
theorem OtherBlock.eqOn {s s' : Proc} {vs : List α} {n : ℕ} {b : ℕ × ℕ}
    (h : OtherBlock α arena d s b) (hkept : ListKept α arena d lo capacity vs n s s') :
    Set.EqOn s'.mem.byte s.mem.byte (Memory.range b.1 b.2) := by
  refine hkept.eqOn.mono fun x hx => ?_
  have hbase := h.base_le
  have hend := h.end_le
  simp only [listFootprint, Set.compl_union]
  refine ⟨⟨⟨?_, h.struct_subset hx⟩, h.array_subset hx⟩, ?_⟩ <;>
    rw [Set.mem_compl_iff, Set.mem_Ico] <;> rw [Set.mem_Ico] at hx
  · simp only [arenaBase, sizeofMemArena] at hbase
    omega
  · omega

/-- After a step of the list they still are other blocks. -/
theorem OtherBlock.of_kept {s s' : Proc} {vs : List α} {n : ℕ} {b : ℕ × ℕ}
    (h : OtherBlock α arena d s b) (hkept : ListKept α arena d lo capacity vs n s s') :
    OtherBlock α arena d s' b := by
  have hpos := hkept.position_eq
  have hend := h.end_le
  refine ⟨h.base_le, by omega, h.struct_subset, ?_⟩
  rcases hkept.array_eq with ⟨hdata, hcap⟩ | hnew
  · rw [hdata, hcap]
    exact h.array_subset
  · exact Memory.range_subset_compl (.inl (hend.trans hnew))

/-- Writes inside one of the blocks leave all of them other blocks. -/
theorem OtherBlock.of_eq {s s' : Proc} {b : ℕ × ℕ} (h : OtherBlock α arena d s b)
    (hhead : listHead d s'.mem = listHead d s.mem) (hpos : position arena s' = position arena s) :
    OtherBlock α arena d s' b := by
  refine ⟨h.base_le, ?_, h.struct_subset, ?_⟩
  · rw [hpos]
    exact h.end_le
  · rw [hhead]
    exact h.array_subset

/-- A push keeps the invariant, and is as its user expects. -/
theorem Inv.push (hinv : Inv k arena d lo capacity r) (hplace : ListPlace arena d lo capacity)
    (hsize : 0 < Layout.size α ∧ Layout.size α < 2 ^ 64) (b : β)
    (hexact : NoWrap α arena d r (.push b)) :
    Inv k arena d lo capacity (r.step k arena d (.push b)) ∧ ListStep k arena d r (.push b) := by
  have houtcome := k.outcome b hplace hinv.list hinv.ready
  have hfails := hinv.list.growthFails_iff hplace hsize.1 hsize.2 hexact
  rcases Nat.lt_or_ge capacity.toNat (position arena r.proc + growth α d r.proc.mem) with hlt | hle
  · -- the growth fails
    have hpush := houtcome.refused hlt hexact
    have hstep : r.step k arena d (.push b) = r := by
      simp only [step, hpush, if_pos (hfails.mpr hlt)]
    have hcount := UInt64.le_iff_toNat_le.mpr hinv.list.count_le
    refine ⟨by rwa [hstep], ⟨fun b' hb' => ?_, fun _ hsize => ?_, ?_, ?_, fun _ _ _ => ?_,
      fun _ b' hb' => ?_⟩⟩
    · cases hb'
      exact ⟨_, hpush⟩
    · cases hsize
    all_goals rw [hstep]
    · exact hcount
    · exact hinv.entries_eq
  · -- there was room, or the growth was granted
    obtain ⟨s', hpush, hkept, hcap⟩ := houtcome.granted hle
    have hnot : ¬ GrowthFails α arena d r.proc := fun h => absurd (hfails.mp h) (Nat.not_lt.mpr hle)
    have hstep : r.step k arena d (.push b) =
        { r with proc := s', pushed := r.pushed ++ [k.item b] } := by
      simp only [step, hpush, if_neg hnot]
    have hentries : entries α d s'.mem = r.pushed ++ [k.item b] := by
      rw [hkept.entries_eq, hinv.entries_eq]
    have hready := k.ready_of_ne_zero hkept.capacity_ne_zero
    have hcount := UInt64.le_iff_toNat_le.mpr hkept.inv.count_le
    refine ⟨?_, ⟨fun b' hb' => ?_, fun _ hsize => ?_, ?_, ?_,
      fun b' hb' hfail => absurd hfail hnot, fun _ b' hb' => ?_⟩⟩
    · rw [hstep]
      exact ⟨hkept.inv, hready, hentries, fun b' hb' => (hinv.live b' hb').of_kept hkept⟩
    · cases hb'
      exact ⟨s', hpush⟩
    · cases hsize
    all_goals rw [hstep]
    · exact hcount
    · exact hentries
    · exact Memory.load_eq_of_eqOn ((hinv.live b' hb').eqOn hkept)

/-- The block an allocation hands out is one of the other blocks. -/
theorem otherBlock_alloc {s : Proc} (hinv : ListInv α arena d lo capacity s)
    (hplace : ListPlace arena d lo capacity) {size : UInt64}
    (hroom : position arena s + size.toNat ≤ capacity.toNat) :
    OtherBlock α arena d (s.withMem (allocMem arena size s.mem))
      (arenaBase arena + position arena s, size.toNat) := by
  obtain ⟨hkept, hhead⟩ := hinv.alloc hplace hroom
  have hpos := hkept.position_eq
  have hlo := hinv.lo_le
  have hstruct : Memory.range d 24 ⊆
      (Memory.range (arenaBase arena + position arena s) size.toNat)ᶜ :=
    hplace.struct_subset hlo (by omega)
  have harray : Memory.range (arenaBase arena + position arena s) size.toNat ⊆
      (Memory.range (listHead d s.mem).data.toNat
        (Layout.size α * (listHead d s.mem).capacity.toNat))ᶜ := by
    rcases hinv.array_mem with h0 | ⟨-, hhi⟩
    · intro x _
      rw [h0, UInt64.toNat_zero, Nat.mul_zero, Set.mem_compl_iff, Set.mem_Ico]
      omega
    · exact Memory.range_subset_compl (.inr hhi)
  rw [← hhead] at harray
  refine ⟨Nat.le_add_right _ _, ?_, Set.subset_compl_comm.mp hstruct, harray⟩
  rw [hpos, Nat.add_assoc]

/-- Another allocation keeps the invariant, and is as the user of the list expects. -/
theorem Inv.alloc (hinv : Inv k arena d lo capacity r) (hplace : ListPlace arena d lo capacity)
    (size : UInt64) (hexact : NoWrap α arena d r (.alloc size : ListOp β)) :
    Inv k arena d lo capacity (r.step k arena d (.alloc size)) ∧
      ListStep k arena d r (.alloc size) := by
  have hmod : (position arena r.proc + size.toNat) % 2 ^ 64 = position arena r.proc + size.toNat :=
    Nat.mod_eq_of_lt hexact
  have hcount := UInt64.le_iff_toNat_le.mpr hinv.list.count_le
  obtain ⟨-, halloc⟩ | ⟨hlim, hmapped, -⟩ | ⟨hroom, halloc⟩ := hinv.list.arenaAt.alloc_cases size
  · -- refused: the run stays where it is
    have hstep : r.step k arena d (.alloc size) = r := by
      simp only [step, halloc, if_true]
    refine ⟨by rwa [hstep], .of_ne_push (by simp) (fun size' hop => ?_) ?_ ?_ fun _ b hb => ?_⟩
    · cases hop
      exact ⟨_, _, halloc⟩
    all_goals rw [hstep]
    · exact hcount
    · exact hinv.entries_eq
  · -- the arena is mapped in full
    rw [hmod] at hlim
    exact absurd (hplace.hasRoom hinv.list.arenaAt hlim).2 hmapped
  · have hlim := hroom.1
    obtain ⟨hkept, hhead⟩ := hinv.list.alloc hplace hlim
    -- the new block is behind the array, so the list and the other blocks are kept
    have hblock := otherBlock_alloc hinv.list hplace hlim
    have hnull : arenaBase arena + position arena r.proc ≠ NULL := arenaBase_add_ne_null _ _
    obtain ⟨s', hs'⟩ : ∃ s', s' = r.proc.withMem (allocMem arena size r.proc.mem) := ⟨_, rfl⟩
    have hhead' : listHead d s'.mem = listHead d r.proc.mem := by
      rw [hs', Proc.mem_withMem, hhead]
    rw [← hs'] at hkept hblock halloc
    have hstep : r.step k arena d (.alloc size) =
        { r with
          proc := s'
          live := (arenaBase arena + position arena r.proc, size.toNat) :: r.live } := by
      simp only [step, halloc, if_neg hnull]
    have hentries : entries α d s'.mem = r.pushed := by
      rw [hkept.entries_eq, hinv.entries_eq, List.append_nil]
    refine ⟨?_, .of_ne_push (by simp) (fun size' hop => ?_) ?_ ?_ fun _ b hb => ?_⟩
    on_goal 2 =>
      cases hop
      exact ⟨_, _, halloc⟩
    all_goals rw [hstep]
    · refine ⟨hkept.inv, by rw [hhead']; exact hinv.ready, hentries, ?_⟩
      exact List.forall_mem_cons.mpr ⟨hblock, fun b hb => (hinv.live b hb).of_kept hkept⟩
    · rw [hhead']
      exact hcount
    · exact hentries
    · exact Memory.load_eq_of_eqOn ((hinv.live b hb).eqOn hkept)

/-- A write of the user into a live block keeps the invariant. -/
theorem Inv.write (hinv : Inv k arena d lo capacity r) (i offset : ℕ) (bytes : List UInt8) :
    Inv k arena d lo capacity (r.step k arena d (.write i offset bytes)) := by
  rw [step]
  split
  · exact hinv
  · next b hb =>
    split
    · next hfits =>
      have hblock := hinv.live b (List.mem_of_getElem? hb)
      have hbase := hblock.base_le
      -- the bytes written are in the block
      have hwrite : Set.EqOn (r.proc.mem.store (b.1 + offset) bytes).byte r.proc.mem.byte
          (Memory.range b.1 b.2)ᶜ := by
        refine (Memory.store_eqOn _ _ _).mono (Set.compl_subset_compl.mpr ?_)
        exact Set.Ico_subset_Ico (Nat.le_add_right _ _) (by omega)
      have heqOn : Set.EqOn (r.proc.withMem (r.proc.mem.store (b.1 + offset) bytes)).mem.byte
          r.proc.mem.byte (Memory.range arena sizeofMemArena ∪ Memory.range d 24 ∪
            Memory.range (listHead d r.proc.mem).data.toNat
              (Layout.size α * (listHead d r.proc.mem).capacity.toNat)) := by
        rw [Proc.mem_withMem]
        refine hwrite.mono (Set.union_subset (Set.union_subset ?_ ?_) ?_)
        · exact Memory.range_subset_compl (.inl hbase)
        · exact Set.subset_compl_comm.mp hblock.struct_subset
        · exact Set.subset_compl_comm.mp hblock.array_subset
      obtain ⟨hlist, hentries, hhead, hpos⟩ := hinv.list.of_eqOn (Proc.maps_withMem _ _) heqOn
      refine ⟨hlist, ?_, hentries.trans hinv.entries_eq, fun b' hb' => ?_⟩
      · rw [hhead]
        exact hinv.ready
      · exact (hinv.live b' hb').of_eq hhead hpos
    · exact hinv

/-- Every step without a sum that wraps keeps the invariant, and is as the user expects. -/
theorem Inv.step (hinv : Inv k arena d lo capacity r) (hplace : ListPlace arena d lo capacity)
    (hsize : 0 < Layout.size α ∧ Layout.size α < 2 ^ 64) (op : ListOp β)
    (hexact : NoWrap α arena d r op) :
    Inv k arena d lo capacity (r.step k arena d op) ∧ ListStep k arena d r op := by
  cases op with
  | push b => exact hinv.push hplace hsize b hexact
  | alloc size => exact hinv.alloc hplace size hexact
  | write i offset bytes =>
    have hinv' := hinv.write i offset bytes
    exact ⟨hinv', .of_ne_push (by simp) (by simp) (UInt64.le_iff_toNat_le.mpr hinv'.list.count_le)
      hinv'.entries_eq fun hne => absurd rfl (hne i offset bytes)⟩

/-- Along a run without sums that wrap every step is as the user expects. -/
theorem Inv.along (hinv : Inv k arena d lo capacity r) (hplace : ListPlace arena d lo capacity)
    (hsize : 0 < Layout.size α ∧ Layout.size α < 2 ^ 64) {ops : List (ListOp β)}
    (hexact : Run.Along (ListRun.step k arena d) (NoWrap α arena d) r ops) :
    Run.Along (ListRun.step k arena d) (ListStep k arena d) r ops :=
  Run.along_of_invariant (fun _ op hinv hexact => (Inv.step hinv hplace hsize op hexact).1)
    (fun _ op hinv hexact => (Inv.step hinv hplace hsize op hexact).2) hinv hexact

/-- A zeroed struct, among the bytes an arena has handed out or outside the arena, and other blocks
that are live. -/
structure Zeroed (arena d : ℕ) (capacity : UInt64) (r : ListRun α) : Prop where
  arenaAt : ArenaAt arena capacity r.proc
  top_le : arenaBase arena + capacity.toNat ≤ 2 ^ 64
  away : (arenaBase arena ≤ d ∧ d + 24 ≤ arenaBase arena + position arena r.proc) ∨
    d + 24 ≤ arena ∨ arenaBase arena + capacity.toNat ≤ d
  zero : ∀ x ∈ Memory.range d 24, r.proc.mem.byte x = 0
  pushed_eq : r.pushed = []
  live : ∀ b ∈ r.live, arenaBase arena ≤ b.1 ∧
    b.1 + b.2 ≤ arenaBase arena + position arena r.proc ∧
    Memory.range b.1 b.2 ⊆ (Memory.range d 24)ᶜ

omit [Layout α] in
theorem Zeroed.listHead_eq (h : Zeroed arena d capacity r) :
    listHead d r.proc.mem = ⟨0, 0, 0⟩ := by
  have hzero : (Layout.decode (List.replicate 24 0) : ListHead) = ⟨0, 0, 0⟩ := by decide +kernel
  exact (Memory.loadAs_of_zero h.zero).trans hzero

omit [Layout α] in
theorem Zeroed.place (h : Zeroed arena d capacity r) :
    ListPlace arena d (arenaBase arena + position arena r.proc) capacity :=
  ⟨Nat.le_add_right _ _, h.top_le, h.away⟩

/-- A zeroed struct is an empty list. -/
theorem Zeroed.listInv (h : Zeroed arena d capacity r) :
    ListInv α arena d (arenaBase arena + position arena r.proc) capacity r.proc ∧
      entries α d r.proc.mem = [] := by
  have hhead := h.listHead_eq
  refine ⟨⟨h.arenaAt, le_rfl, ?_, ?_, ?_⟩, ?_⟩
  · rw [hhead]
  · rw [hhead]
    exact .inl rfl
  · rw [hhead]
    intro x hx hx'
    exact absurd (lt_of_le_of_lt hx hx') (lt_irrefl _)
  · rw [entries, hhead]
    exact Memory.array_zero _ _

theorem Zeroed.inv (h : Zeroed arena d capacity r) (hready : k.ready 0) :
    Inv k arena d (arenaBase arena + position arena r.proc) capacity r := by
  obtain ⟨hlist, hentries⟩ := h.listInv
  have hhead := h.listHead_eq
  refine ⟨hlist, by rwa [hhead], hentries.trans h.pushed_eq.symm, fun b hb => ?_⟩
  obtain ⟨hbase, hend, hstruct⟩ := h.live b hb
  refine ⟨hbase, hend, hstruct, fun x _ => ?_⟩
  rw [hhead, Set.mem_compl_iff, Set.mem_Ico]
  show ¬ (0 ≤ x ∧ x < 0 + Layout.size α * 0)
  omega

/-- From a zeroed struct on, the partitions are those that were pushed by pushes whose growth did
not fail. The processes are as well, from any list that has an array. -/
theorem listRun_append :
    (∀ (arena d : ℕ) (capacity : UInt64) (r : ListRun SysPartition)
        (ops : List (ListOp SysPartition)),
      Zeroed arena d capacity r →
      Run.Along (ListRun.step diskPush arena d) (NoWrap SysPartition arena d) r ops →
        Run.Along (ListRun.step diskPush arena d) (ListStep diskPush arena d) r ops) ∧
    ∀ (arena list lo : ℕ) (capacity : UInt64) (r : ListRun SysProc)
        (ops : List (ListOp (List UInt8))),
      ListPlace arena list lo capacity → Inv processPush arena list lo capacity r →
      Run.Along (ListRun.step processPush arena list) (NoWrap SysProc arena list) r ops →
        Run.Along (ListRun.step processPush arena list) (ListStep processPush arena list) r ops := by
  constructor
  · intro arena d capacity r ops hzero hexact
    have hinv : Inv diskPush arena d _ capacity r := hzero.inv trivial
    exact hinv.along hzero.place (by decide) hexact
  · intro arena list lo capacity r ops hplace hinv hexact
    exact hinv.along hplace (by decide) hexact

omit [Layout α] in
/-- Below the only arena of a process all memory is zero. -/
theorem zeroed_create {k : Kernel} {a : ℕ}
    (hgrant : k.mmap Proc.fresh.maps (mappingLen capacity) = some a)
    (htop : arenaBase a + capacity.toNat ≤ 2 ^ 64) (hbelow : d + 24 ≤ a) :
    Zeroed a d capacity (⟨(arenaCreate k capacity Proc.fresh).2, [], []⟩ : ListRun α) := by
  obtain ⟨-, -, -, heqOn⟩ := arenaCreate_of_granted hgrant
  refine ⟨(arenaAt_of_granted hgrant).1, htop, .inr (.inl hbelow), fun x hx => ?_, rfl,
    fun _ hb => absurd hb List.not_mem_nil⟩
  -- the mapping is behind the struct
  have hout : x ∈ (Set.Ico a (a + pageRound (mappingLen capacity)))ᶜ := by
    rw [Set.mem_Ico] at hx
    rw [Set.mem_compl_iff, Set.mem_Ico]
    omega
  exact heqOn hout

/-- An arena of 1024 bytes at 4096, and nothing else. -/
def sampleProc : Proc := (arenaCreate Kernel.above 1024 Proc.fresh).2

omit [Layout α] in
theorem zeroed_sample : Zeroed 4096 64 1024 (⟨sampleProc, [], []⟩ : ListRun α) :=
  zeroed_create (by decide +kernel) (by decide) (by decide)

theorem listRun_append_sample :
    Run.Along (ListRun.step diskPush 4096 64) (ListStep diskPush 4096 64) ⟨sampleProc, [], []⟩
      [.push ⟨1024, 8, 0, .replicate 32 0⟩, .alloc 16, .push ⟨512, 8, 1, .replicate 32 0⟩] ∧
    ∃ r : ListRun SysProc, Run.Along (ListRun.step processPush 4096 64)
      (ListStep processPush 4096 64) r [.push (ascii "1")] := by
  constructor
  · refine listRun_append.1 4096 64 1024 _ _ zeroed_sample ⟨?_, ?_, ?_, trivial⟩
    · decide +kernel
    · decide +kernel
    · decide +kernel
  · have hzero : Zeroed 4096 64 1024 (⟨sampleProc, [], []⟩ : ListRun SysProc) := zeroed_sample
    have hpos : position 4096 sampleProc = 0 := by decide +kernel
    obtain ⟨hlt, -⟩ | ⟨-, s, -, hinv, hpos', -, hcount, hcap⟩ :=
      initItems_outcome hzero.place hzero.arenaAt le_rfl (by rw [hpos]; decide)
    · rw [hpos] at hlt
      exact absurd hlt (by decide)
    · have hne : (listHead 64 s.mem).capacity ≠ 0 := by
        rw [hcap]
        decide
      have hexact : position 4096 s + growth SysProc 64 s.mem < 2 ^ 64 := by
        rw [hpos', hpos, growth, hcount, hcap]
        decide
      obtain ⟨xs, hxs⟩ : ∃ xs, entries SysProc 64 s.mem = xs := ⟨_, rfl⟩
      have hrun : Inv processPush 4096 64 _ 1024 ⟨s, xs, []⟩ :=
        ⟨hinv, processPush.ready_of_ne_zero hne, hxs, fun _ hb => absurd hb List.not_mem_nil⟩
      exact ⟨⟨s, xs, []⟩, listRun_append.2 4096 64 _ 1024 _ _ hzero.place hrun ⟨hexact, trivial⟩⟩

end ListRun

end AgentResources
