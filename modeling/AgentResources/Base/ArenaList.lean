import AgentResources.Base.Arena
import AgentResources.Foundations.Layout

/-!
# Lists that grow in an arena

`sys_disk` and `sys_proc_list` are lists of one kind: a struct with an array, a count and a
capacity. When the array is full, one of twice the capacity is taken from the arena, the entries are
copied to it and the old array is abandoned there.

`ListInv` says where the list is and that the slots after its entries are zero. Appending an entry to
a free slot keeps it (`ListInv.append`), and so does moving the list to a larger array
(`ListInv.grow`). `PushOutcome` is what a push can do, `PushFn` a function that does it, and
`PushFn.foldlM_push` what a run of pushes leaves in the list: of its entries those `stored`, the ones
before the arena is full.
-/

namespace AgentResources

/-- The struct of a list. -/
structure ListHead where
  data : UInt64
  count : UInt64
  capacity : UInt64
  deriving DecidableEq

instance : Layout ListHead := Layout.ofFields
  (fun h => (h.data, h.count, h.capacity)) (fun (p, n, c) => ⟨p, n, c⟩) fun _ => rfl

/-- The struct at `d`. -/
def listHead (d : ℕ) (m : Memory) : ListHead := m.loadAs ListHead d

/-- The entries of the list at `d`. -/
def entries (α : Type) [Layout α] (d : ℕ) (m : Memory) : List α :=
  m.array α (listHead d m).data.toNat (listHead d m).count.toNat

/-- The capacity of the next larger array. -/
def newCapacity (capacity : ℕ) : ℕ := if capacity = 0 then 8 else 2 * capacity

/-- The bytes a push takes from the arena. -/
def growth (α : Type) [Layout α] (d : ℕ) (m : Memory) : ℕ :=
  if (listHead d m).count = (listHead d m).capacity
  then Layout.size α * newCapacity (listHead d m).capacity.toNat else 0

/-- The memory after an entry was stored behind the last one. -/
def appendMem {α : Type} [Layout α] (d : ℕ) (v : α) (m : Memory) : Memory :=
  let h := listHead d m
  (m.storeAs d { h with count := h.count + 1 }).storeAs
    (h.data.toNat + Layout.size α * h.count.toNat) v

/-- The memory after the list was moved to an array of `newCap` entries at `np`. -/
def growMem (α : Type) [Layout α] (d np : ℕ) (newCap : UInt64) (m : Memory) : Memory :=
  let h := listHead d m
  (m.store np (m.load h.data.toNat (Layout.size α * h.count.toNat))).storeAs d
    { h with data := UInt64.ofNat np, capacity := newCap }

variable {α : Type} [Layout α] {arena d lo : ℕ} {capacity : UInt64} {s s' : Proc}

/-- Where the list is: its arrays from `lo` on, its struct before that or outside the arena, which
lies in the address space. -/
structure ListPlace (arena d lo : ℕ) (capacity : UInt64) : Prop where
  base_le : arenaBase arena ≤ lo
  top_le : arenaBase arena + capacity.toNat ≤ 2 ^ 64
  away : (arenaBase arena ≤ d ∧ d + 24 ≤ lo) ∨ d + 24 ≤ arena ∨
    arenaBase arena + capacity.toNat ≤ d

/-- The list is well formed: it has no more entries than room, its array, if it has one, lies among
the bytes handed out from `lo` on, and the slots after its entries are zero. -/
structure ListInv (α : Type) [Layout α] (arena d lo : ℕ) (capacity : UInt64) (s : Proc) : Prop where
  arenaAt : ArenaAt arena capacity s
  lo_le : lo ≤ arenaBase arena + position arena s
  count_le : (listHead d s.mem).count.toNat ≤ (listHead d s.mem).capacity.toNat
  array_mem : (listHead d s.mem).capacity = 0 ∨ lo ≤ (listHead d s.mem).data.toNat ∧
    (listHead d s.mem).data.toNat + Layout.size α * (listHead d s.mem).capacity.toNat ≤
      arenaBase arena + position arena s
  unused : ∀ x, (listHead d s.mem).data.toNat +
      Layout.size α * (listHead d s.mem).count.toNat ≤ x →
    x < (listHead d s.mem).data.toNat + Layout.size α * (listHead d s.mem).capacity.toNat →
      s.mem.byte x = 0

namespace ListPlace

/-- The struct and the header of the arena have no byte in common. -/
theorem header_subset (h : ListPlace arena d lo capacity) :
    Memory.range arena sizeofMemArena ⊆ (Memory.range d 24)ᶜ := by
  apply Memory.range_subset_compl
  have haway := h.away
  simp only [arenaBase, sizeofMemArena] at haway ⊢
  omega

/-- The struct is in no array. -/
theorem struct_subset (h : ListPlace arena d lo capacity) {a n : ℕ} (hlo : lo ≤ a)
    (hhi : a + n ≤ arenaBase arena + capacity.toNat) :
    Memory.range d 24 ⊆ (Memory.range a n)ᶜ := by
  apply Memory.range_subset_compl
  have haway := h.away
  have hbase := h.base_le
  simp only [arenaBase, sizeofMemArena] at *
  omega

/-- The address of an array is not zero. -/
theorem ne_zero (h : ListPlace arena d lo capacity) {data : UInt64} (hlo : lo ≤ data.toNat) :
    data ≠ 0 := by
  have hbase := h.base_le
  rintro rfl
  rw [UInt64.toNat_zero] at hlo
  simp only [arenaBase, sizeofMemArena] at hbase
  omega

/-- The header of the arena is in no array. -/
theorem header_subset_array (h : ListPlace arena d lo capacity) {a n : ℕ} (hlo : lo ≤ a) :
    Memory.range arena sizeofMemArena ⊆ (Memory.range a n)ᶜ :=
  Memory.range_subset_compl (.inl (h.base_le.trans hlo))

end ListPlace

/-! ## Stores -/

section Memory

variable {m m' : Memory} {np : ℕ} {newCap : UInt64} (v : α)

theorem listHead_eq_of_eqOn (h : Set.EqOn m.byte m'.byte (Memory.range d 24)) :
    listHead d m = listHead d m' := Memory.loadAs_eq_of_eqOn h

/-- The entries depend only on the struct and on their own bytes. -/
theorem entries_eq_of_eqOn (hhead : listHead d m = listHead d m')
    (h : Set.EqOn m.byte m'.byte (Memory.range (listHead d m').data.toNat
      (Layout.size α * (listHead d m').count.toNat))) : entries α d m = entries α d m' := by
  rw [entries, entries, hhead]
  exact Memory.array_eq_of_eqOn h

/-- Appending changes the struct and the slot. -/
theorem appendMem_eqOn (d : ℕ) (m : Memory) :
    Set.EqOn (appendMem d v m).byte m.byte (Memory.range d 24 ∪
      Memory.range ((listHead d m).data.toNat + Layout.size α * (listHead d m).count.toNat)
        (Layout.size α))ᶜ := by
  intro x hx
  rw [Set.compl_union] at hx
  rw [appendMem, Memory.storeAs_eqOn _ _ _ hx.2, Memory.storeAs_eqOn _ _ _ hx.1]

theorem listHead_appendMem (hslot : Memory.range d 24 ⊆ (Memory.range
      ((listHead d m).data.toNat + Layout.size α * (listHead d m).count.toNat)
        (Layout.size α))ᶜ) :
    listHead d (appendMem d v m) = { listHead d m with count := (listHead d m).count + 1 } := by
  rw [appendMem, listHead_eq_of_eqOn ((Memory.storeAs_eqOn _ _ v).mono hslot)]
  exact Memory.loadAs_storeAs m d _

theorem entries_appendMem
    (hcount : ((listHead d m).count + 1).toNat = (listHead d m).count.toNat + 1)
    (harray : Memory.range d 24 ⊆ (Memory.range (listHead d m).data.toNat
      (Layout.size α * ((listHead d m).count.toNat + 1)))ᶜ) :
    entries α d (appendMem d v m) = entries α d m ++ [v] := by
  have hslot : Memory.range d 24 ⊆ (Memory.range ((listHead d m).data.toNat +
      Layout.size α * (listHead d m).count.toNat) (Layout.size α))ᶜ := by
    refine harray.trans (Set.compl_subset_compl.mpr (Set.Ico_subset_Ico ?_ ?_))
    · exact Nat.le_add_right _ _
    · rw [Nat.mul_succ, Nat.add_assoc]
  -- storing the struct does not touch the entries
  have hold : (m.storeAs d { listHead d m with count := (listHead d m).count + 1 }).array α
      (listHead d m).data.toNat (listHead d m).count.toNat = entries α d m := by
    refine Memory.array_eq_of_eqOn ((Memory.storeAs_eqOn _ _ _).mono ?_)
    refine Set.subset_compl_comm.mp (harray.trans (Set.compl_subset_compl.mpr ?_))
    exact Set.Ico_subset_Ico le_rfl
      (Nat.add_le_add_left (Nat.mul_le_mul_left _ (Nat.le_succ _)) _)
  rw [entries, listHead_appendMem v hslot, hcount, ← hold]
  exact Memory.array_storeAs _ _ _ v

/-- Moving the list changes the struct and the new array. -/
theorem growMem_eqOn (d np : ℕ) (newCap : UInt64) (m : Memory) :
    Set.EqOn (growMem α d np newCap m).byte m.byte (Memory.range d 24 ∪
      Memory.range np (Layout.size α * (listHead d m).count.toNat))ᶜ := by
  intro x hx
  rw [Set.compl_union] at hx
  have hcopy := Memory.store_eqOn m np
    (m.load (listHead d m).data.toNat (Layout.size α * (listHead d m).count.toNat))
  rw [Memory.length_load] at hcopy
  rw [growMem, Memory.storeAs_eqOn _ _ _ hx.1, hcopy hx.2]

@[simp]
theorem listHead_growMem (d np : ℕ) (newCap : UInt64) (m : Memory) :
    listHead d (growMem α d np newCap m) =
      { listHead d m with data := UInt64.ofNat np, capacity := newCap } :=
  Memory.loadAs_storeAs _ d _

/-- Moving an empty list copies nothing. -/
theorem growMem_of_empty (hempty : (listHead d m).count = 0) (np : ℕ) (newCap : UInt64) :
    growMem α d np newCap m = m.storeAs d (⟨UInt64.ofNat np, 0, newCap⟩ : ListHead) := by
  have hload :
      m.load (listHead d m).data.toNat (Layout.size α * (listHead d m).count.toNat) = [] := by
    rw [hempty, UInt64.toNat_zero, Nat.mul_zero]
    rfl
  rw [growMem, hload, Memory.store_nil, hempty]

theorem entries_growMem (hnp : np < 2 ^ 64) (harray : Memory.range d 24 ⊆
      (Memory.range np (Layout.size α * (listHead d m).count.toNat))ᶜ) :
    entries α d (growMem α d np newCap m) = entries α d m := by
  have hnat : (UInt64.ofNat np).toNat = np := by
    rw [UInt64.toNat_ofNat', Nat.mod_eq_of_lt hnp]
  rw [entries, listHead_growMem, hnat, growMem]
  rw [Memory.array_eq_of_eqOn ((Memory.storeAs_eqOn _ _ _).mono (Set.subset_compl_comm.mp harray))]
  exact Memory.array_store_load m _ np _

end Memory

/-! ## Steps of a list -/

/-- The bytes a push may change: the positions in the header, the struct, the array and everything
that is not handed out. -/
def listFootprint (α : Type) [Layout α] (arena d : ℕ) (capacity : UInt64) (s : Proc) : Set ℕ :=
  Memory.range arena 16 ∪ Memory.range d 24 ∪
    Memory.range (listHead d s.mem).data.toNat
      (Layout.size α * (listHead d s.mem).capacity.toNat) ∪
    Set.Ico (arenaBase arena + position arena s) (arenaBase arena + capacity.toNat)

/-- A step keeps the list well formed, puts `vs` behind its entries, takes `n` bytes from the arena
and changes nothing outside its footprint. -/
structure ListKept (α : Type) [Layout α] (arena d lo : ℕ) (capacity : UInt64) (vs : List α) (n : ℕ)
    (s s' : Proc) : Prop where
  inv : ListInv α arena d lo capacity s'
  entries_eq : entries α d s'.mem = entries α d s.mem ++ vs
  position_eq : position arena s' = position arena s + n
  array_eq : ((listHead d s'.mem).data = (listHead d s.mem).data ∧
      (listHead d s'.mem).capacity = (listHead d s.mem).capacity) ∨
    arenaBase arena + position arena s ≤ (listHead d s'.mem).data.toNat
  maps_eq : s'.maps = s.maps
  eqOn : Set.EqOn s'.mem.byte s.mem.byte (listFootprint α arena d capacity s)ᶜ

variable {v : α} {newCap : UInt64}

theorem ListInv.length_entries (s : Proc) :
    (entries α d s.mem).length = (listHead d s.mem).count.toNat :=
  Memory.length_array _ _ _

/-- The array lies among the bytes that were handed out, whatever is in it. -/
theorem ListInv.array_le (hinv : ListInv α arena d lo capacity s) :
    (listHead d s.mem).capacity.toNat = 0 ∨ lo ≤ (listHead d s.mem).data.toNat ∧
      (listHead d s.mem).data.toNat + Layout.size α * (listHead d s.mem).capacity.toNat ≤
        arenaBase arena + capacity.toNat := by
  have hpos := hinv.arenaAt.position_le_toNat
  rcases hinv.array_mem with h0 | ⟨hlo, hhi⟩
  · exact .inl (by rw [h0, UInt64.toNat_zero])
  · exact .inr ⟨hlo, hhi.trans (Nat.add_le_add_left hpos _)⟩

/-- After a step, the footprint of a next one is new bytes or in that of the first. -/
theorem ListKept.footprint_subset {vs : List α} {n : ℕ}
    (h : ListKept α arena d lo capacity vs n s s') :
    listFootprint α arena d capacity s' ⊆ listFootprint α arena d capacity s := by
  have hpos := h.position_eq
  refine Set.union_subset (Set.union_subset ?_ ?_) ?_
  · exact fun x hx => .inl (.inl hx)
  · rcases h.array_eq with ⟨hdata, hcap⟩ | hnew
    · rw [hdata, hcap]
      exact fun x hx => .inl (.inr hx)
    · -- a new array is in bytes that were free before the step
      intro x hx
      rw [Set.mem_Ico] at hx
      rcases h.inv.array_le with h0 | ⟨-, hhi⟩
      · rw [h0, Nat.mul_zero] at hx
        omega
      · exact .inr ⟨hnew.trans hx.1, hx.2.trans_le hhi⟩
  · rw [hpos]
    exact fun x hx => .inr ⟨le_trans (by omega) hx.1, hx.2⟩

theorem ListKept.trans {s'' : Proc} {vs ws : List α} {n k : ℕ}
    (h : ListKept α arena d lo capacity vs n s s')
    (h' : ListKept α arena d lo capacity ws k s' s'') :
    ListKept α arena d lo capacity (vs ++ ws) (n + k) s s'' where
  inv := h'.inv
  entries_eq := by rw [h'.entries_eq, h.entries_eq, List.append_assoc]
  position_eq := by rw [h'.position_eq, h.position_eq, Nat.add_assoc]
  array_eq := by
    have hpos := h.position_eq
    rcases h'.array_eq with ⟨hdata, hcap⟩ | hnew
    · rw [hdata, hcap]
      exact h.array_eq
    · exact .inr (by omega)
  maps_eq := h'.maps_eq.trans h.maps_eq
  eqOn := (h'.eqOn.mono (Set.compl_subset_compl.mpr h.footprint_subset)).trans h.eqOn

/-- A list with an entry has an array. -/
theorem ListKept.capacity_ne_zero {n : ℕ} (h : ListKept α arena d lo capacity [v] n s s') :
    (listHead d s'.mem).capacity ≠ 0 := by
  intro h0
  have hlen := congrArg List.length h.entries_eq
  have hcount := h.inv.count_le
  rw [List.length_append, ListInv.length_entries, List.length_singleton] at hlen
  rw [h0, UInt64.toNat_zero] at hcount
  omega

theorem ListKept.refl (hinv : ListInv α arena d lo capacity s) :
    ListKept α arena d lo capacity [] 0 s s where
  inv := hinv
  entries_eq := (List.append_nil _).symm
  position_eq := (Nat.add_zero _).symm
  array_eq := .inl ⟨rfl, rfl⟩
  maps_eq := rfl
  eqOn := fun _ _ => rfl

/-- Appending to a free slot. -/
theorem ListInv.append (hinv : ListInv α arena d lo capacity s)
    (hplace : ListPlace arena d lo capacity)
    (hlt : (listHead d s.mem).count.toNat < (listHead d s.mem).capacity.toNat) (v : α) :
    ListKept α arena d lo capacity [v] 0 s (s.withMem (appendMem d v s.mem)) ∧
      (listHead d (appendMem d v s.mem)).capacity = (listHead d s.mem).capacity := by
  obtain ⟨hlo, hhi⟩ := hinv.array_le.resolve_left (Nat.ne_of_gt (Nat.zero_lt_of_lt hlt))
  have hpos := hinv.arenaAt.position_le_toNat
  have heqOn := appendMem_eqOn v d s.mem
  have hunused := hinv.unused
  have harrayMem := hinv.array_mem
  generalize hhead : listHead d s.mem = head at *
  -- the slot is in the array
  have hslot : Layout.size α * (head.count.toNat + 1) ≤ Layout.size α * head.capacity.toNat :=
    Nat.mul_le_mul_left _ hlt
  have hstruct : Memory.range d 24 ⊆ (Memory.range head.data.toNat
      (Layout.size α * (head.count.toNat + 1)))ᶜ := hplace.struct_subset hlo (by omega)
  -- the count does not wrap: it is below the capacity
  rw [Nat.mul_succ] at hslot
  have hcount : (head.count + 1).toNat = head.count.toNat + 1 := by
    have := head.capacity.toNat_lt
    rw [UInt64.toNat_add, UInt64.toNat_one, Nat.mod_eq_of_lt (by omega)]
  have hhead' : listHead d (appendMem d v s.mem) = { head with count := head.count + 1 } := by
    rw [listHead_appendMem v, hhead]
    rw [hhead]
    exact hplace.struct_subset (by omega) (by omega)
  have hentries : entries α d (appendMem d v s.mem) = entries α d s.mem ++ [v] := by
    refine entries_appendMem v ?_ ?_ <;> rw [hhead] <;> assumption
  have hheader : memArena (s.withMem (appendMem d v s.mem)).mem arena = memArena s.mem arena := by
    rw [Proc.mem_withMem]
    refine memArena_eq_of_eqOn (heqOn.mono ?_)
    rw [Set.compl_union]
    exact Set.subset_inter hplace.header_subset
      (hplace.header_subset_array (hlo.trans (Nat.le_add_right _ _)))
  have hposition : position arena (s.withMem (appendMem d v s.mem)) = position arena s := by
    rw [position, hheader, position]
  -- the list is well formed, then what the step did
  have harena := hinv.arenaAt.of_memArena (Proc.maps_withMem _ _) hheader
  refine ⟨⟨⟨harena, ?_, ?_, ?_, ?_⟩, ?_, ?_, ?_, ?_, ?_⟩, ?_⟩
  · rw [hposition]
    exact hinv.lo_le
  · rw [Proc.mem_withMem, hhead', hcount]
    exact hlt
  · rw [Proc.mem_withMem, hhead', hposition]
    exact harrayMem
  · rw [Proc.mem_withMem, hhead']
    dsimp only
    rw [hcount, Nat.mul_succ]
    intro x hx hx'
    rw [heqOn, hunused x (by omega) hx']
    -- the slots that stay free are behind the one that was taken
    rw [Set.compl_union]
    have hfree : x ∈ Memory.range head.data.toNat (Layout.size α * head.capacity.toNat) :=
      ⟨by omega, hx'⟩
    refine ⟨?_, by rw [Set.mem_compl_iff, Set.mem_Ico]; omega⟩
    exact Set.subset_compl_comm.mp (hplace.struct_subset hlo hhi) hfree
  · rw [Proc.mem_withMem, hentries]
  · rw [hposition, Nat.add_zero]
  · rw [Proc.mem_withMem, hhead', hhead]
    exact .inl ⟨rfl, rfl⟩
  · rw [Proc.maps_withMem]
  · -- the struct and the slot are in the footprint
    rw [Proc.mem_withMem]
    refine heqOn.mono (Set.compl_subset_compl.mpr (Set.union_subset ?_ ?_))
    · exact fun x hx => .inl (.inl (.inr hx))
    · rw [listFootprint, hhead]
      refine fun x hx => .inl (.inr ⟨?_, ?_⟩)
      · exact le_trans (Nat.le_add_right _ _) hx.1
      · have := hx.2
        omega
  · rw [hhead']

/-- An allocation does not touch the struct. -/
theorem ListPlace.listHead_allocMem (hplace : ListPlace arena d lo capacity)
    (ha : ArenaAt arena capacity s) (hlo : lo ≤ arenaBase arena + position arena s) {size : UInt64}
    (hroom : position arena s + size.toNat ≤ capacity.toNat) :
    listHead d (allocMem arena size s.mem) = listHead d s.mem := by
  refine listHead_eq_of_eqOn ((ha.allocMem_eqOn size).mono ?_)
  rw [Set.compl_union]
  refine Set.subset_inter ?_ (hplace.struct_subset hlo (by omega))
  refine (Set.subset_compl_comm.mp hplace.header_subset).trans (Set.compl_subset_compl.mpr ?_)
  exact Set.Ico_subset_Ico le_rfl (Nat.add_le_add_left (by decide) _)

/-- The arena of a list is mapped in full, so what is within its capacity is room. -/
theorem ListPlace.hasRoom (hplace : ListPlace arena d lo capacity) (ha : ArenaAt arena capacity s)
    {n : ℕ} (h : position arena s + n ≤ capacity.toNat) : HasRoom arena capacity s n :=
  ha.hasRoom (ha.fits_of_top_le hplace.top_le) h

/-- An allocation on the same arena. -/
theorem ListInv.alloc (hinv : ListInv α arena d lo capacity s)
    (hplace : ListPlace arena d lo capacity) {size : UInt64}
    (hroom : position arena s + size.toNat ≤ capacity.toNat) :
    ListKept α arena d lo capacity [] size.toNat s (s.withMem (allocMem arena size s.mem)) ∧
      listHead d (allocMem arena size s.mem) = listHead d s.mem := by
  have heqOn := hinv.arenaAt.allocMem_eqOn size
  have hfits := hplace.hasRoom hinv.arenaAt hroom
  have hposition := hinv.arenaAt.position_allocMem hfits
  have harrayLe := hinv.array_le
  have harrayMem := hinv.array_mem
  have hunused := hinv.unused
  have hbase := hplace.base_le
  have hlo := hinv.lo_le
  have hhead := hplace.listHead_allocMem hinv.arenaAt hlo hroom
  -- the array is between the header and the new block
  have harray : ∀ x, (listHead d s.mem).data.toNat ≤ x → x < (listHead d s.mem).data.toNat +
      Layout.size α * (listHead d s.mem).capacity.toNat →
        (allocMem arena size s.mem).byte x = s.mem.byte x := by
    intro x hx hx'
    obtain ⟨hlo', hhi⟩ := harrayMem.resolve_left fun h0 => by
      rw [h0, UInt64.toNat_zero, Nat.mul_zero] at hx'
      omega
    refine heqOn ?_
    rw [Set.compl_union, Set.mem_inter_iff, Set.mem_compl_iff, Set.mem_compl_iff, Set.mem_Ico,
      Set.mem_Ico]
    simp only [arenaBase, sizeofMemArena] at *
    omega
  have hcountLe : Layout.size α * (listHead d s.mem).count.toNat ≤
      Layout.size α * (listHead d s.mem).capacity.toNat := Nat.mul_le_mul_left _ hinv.count_le
  have hentries : entries α d (allocMem arena size s.mem) = entries α d s.mem := by
    refine entries_eq_of_eqOn hhead fun x hx => harray x hx.1 ?_
    have := hx.2
    omega
  refine ⟨⟨⟨hinv.arenaAt.of_allocMem hfits, ?_, ?_, ?_, ?_⟩,
    ?_, hposition, ?_, ?_, ?_⟩, hhead⟩
  · rw [hposition]
    omega
  · rw [Proc.mem_withMem, hhead]
    exact hinv.count_le
  · rw [Proc.mem_withMem, hhead, hposition]
    exact harrayMem.imp_right fun h => ⟨h.1, by omega⟩
  · rw [Proc.mem_withMem, hhead]
    intro x hx hx'
    rw [harray x (le_trans (Nat.le_add_right _ _) hx) hx']
    exact hunused x hx hx'
  · rw [Proc.mem_withMem, hentries, List.append_nil]
  · rw [Proc.mem_withMem, hhead]
    exact .inl ⟨rfl, rfl⟩
  · rw [Proc.maps_withMem]
  · rw [Proc.mem_withMem]
    refine heqOn.mono (Set.compl_subset_compl.mpr (Set.union_subset ?_ ?_))
    · exact fun x hx => .inl (.inl (.inl hx))
    · exact fun x hx => .inr ⟨hx.1, lt_of_lt_of_le hx.2 (by omega)⟩

/-- Moving a list, or what is not yet one, to a zeroed block that was handed out. -/
theorem ListInv.of_growMem (ha : ArenaAt arena capacity s)
    (hloLe : lo ≤ arenaBase arena + position arena s)
    (hplace : ListPlace arena d lo capacity) {np : ℕ} (hlo : lo ≤ np)
    (hhi : np + Layout.size α * newCap.toNat ≤ arenaBase arena + position arena s)
    (hpos : 0 < Layout.size α * newCap.toNat)
    (hcount : (listHead d s.mem).count.toNat ≤ newCap.toNat)
    (hzero : ∀ x ∈ Memory.range np (Layout.size α * newCap.toNat), s.mem.byte x = 0) :
    ListInv α arena d lo capacity (s.withMem (growMem α d np newCap s.mem)) ∧
      entries α d (growMem α d np newCap s.mem) = entries α d s.mem ∧
      position arena (s.withMem (growMem α d np newCap s.mem)) = position arena s := by
  have hpositionLe := ha.position_le_toNat
  have htop := hplace.top_le
  have heqOn := growMem_eqOn (α := α) d np newCap s.mem
  have hcopy : Layout.size α * (listHead d s.mem).count.toNat ≤ Layout.size α * newCap.toNat :=
    Nat.mul_le_mul_left _ hcount
  have hnp : np < 2 ^ 64 := by omega
  have hnat : (UInt64.ofNat np).toNat = np := UInt64.toNat_ofNat_of_lt' hnp
  -- neither the struct nor the block reaches the header
  have hheader : memArena (s.withMem (growMem α d np newCap s.mem)).mem arena =
      memArena s.mem arena := by
    rw [Proc.mem_withMem]
    refine memArena_eq_of_eqOn (heqOn.mono ?_)
    rw [Set.compl_union]
    exact Set.subset_inter hplace.header_subset (hplace.header_subset_array hlo)
  have hposition : position arena (s.withMem (growMem α d np newCap s.mem)) = position arena s := by
    rw [position, hheader, position]
  refine ⟨⟨ha.of_memArena (Proc.maps_withMem _ _) hheader, ?_, ?_, ?_, ?_⟩,
    entries_growMem hnp (hplace.struct_subset hlo (by omega)), hposition⟩
  · rw [hposition]
    exact hloLe
  · rw [Proc.mem_withMem, listHead_growMem]
    exact hcount
  · rw [Proc.mem_withMem, listHead_growMem, hposition, hnat]
    exact .inr ⟨hlo, hhi⟩
  · rw [Proc.mem_withMem, listHead_growMem, hnat]
    -- a free slot is beyond what was copied, and still zero
    intro x hx hx'
    dsimp only at hx hx'
    have hblock : x ∈ Memory.range np (Layout.size α * newCap.toNat) := ⟨by omega, hx'⟩
    rw [heqOn, hzero x hblock]
    rw [Set.compl_union]
    refine ⟨Set.subset_compl_comm.mp (hplace.struct_subset hlo (by omega)) hblock, ?_⟩
    rw [Set.mem_compl_iff, Set.mem_Ico]
    omega

/-- A struct without entries gets its first array. -/
theorem ListInv.of_first (ha : ArenaAt arena capacity s)
    (hplace : ListPlace arena d lo capacity) (hlo : lo ≤ arenaBase arena + position arena s)
    {size : UInt64} (newCap : UInt64) (hsize : size.toNat = Layout.size α * newCap.toNat)
    (hpos : 0 < size.toNat) (hempty : (listHead d s.mem).count = 0)
    (hroom : position arena s + size.toNat ≤ capacity.toNat) :
    let s' := s.withMem (growMem α d (arenaBase arena + position arena s) newCap
      (allocMem arena size s.mem))
    ListInv α arena d lo capacity s' ∧ position arena s' = position arena s + size.toNat ∧
      listHead d s'.mem = ⟨UInt64.ofNat (arenaBase arena + position arena s), 0, newCap⟩ := by
  have hfits := hplace.hasRoom ha hroom
  have hhead := hplace.listHead_allocMem ha hlo hroom
  have hzero := fun x => ha.load_allocMem (x := x) size
  have ha₁ := ha.of_allocMem hfits
  have hposition := ha.position_allocMem hfits
  obtain ⟨s₁, hs₁⟩ : ∃ s₁, s.withMem (allocMem arena size s.mem) = s₁ := ⟨_, rfl⟩
  have hmem : allocMem arena size s.mem = s₁.mem := by rw [← hs₁, Proc.mem_withMem]
  have hfinal : ∀ m, s.withMem m = s₁.withMem m := fun m => by rw [← hs₁, Proc.withMem_withMem]
  rw [hs₁] at ha₁ hposition
  rw [hmem] at hhead hzero ⊢
  rw [hfinal]
  clear hs₁ hmem hfinal
  -- the new array is the block that was just handed out
  have hhi : arenaBase arena + position arena s + Layout.size α * newCap.toNat ≤
      arenaBase arena + position arena s₁ := by omega
  have hcount : (listHead d s₁.mem).count.toNat ≤ newCap.toNat := by
    rw [hhead, hempty, UInt64.toNat_zero]
    exact Nat.zero_le _
  intro s'
  obtain ⟨hinv, -, hposition'⟩ := ListInv.of_growMem ha₁ (hlo.trans (by omega)) hplace hlo hhi
    (by omega) hcount (fun x hx => hzero x (by rwa [hsize]))
  refine ⟨hinv, hposition'.trans hposition, ?_⟩
  rw [Proc.mem_withMem, listHead_growMem, hhead]
  dsimp only
  rw [hempty]

/-- Growing: a larger array is taken from the arena and the list is moved there. -/
theorem ListInv.grow (hinv : ListInv α arena d lo capacity s)
    (hplace : ListPlace arena d lo capacity) {size : UInt64}
    (hsize : size.toNat = Layout.size α * newCap.toNat) (hpos : 0 < size.toNat)
    (hcount : (listHead d s.mem).count.toNat ≤ newCap.toNat)
    (hroom : position arena s + size.toNat ≤ capacity.toNat) :
    ListKept α arena d lo capacity [] size.toNat s
      (s.withMem (growMem α d (arenaBase arena + position arena s) newCap
        (allocMem arena size s.mem))) := by
  obtain ⟨hkept, hhead⟩ := hinv.alloc hplace hroom
  have hlo := hinv.lo_le
  have hzero := fun x => hinv.arenaAt.load_allocMem (x := x) size
  have heqOn := growMem_eqOn (α := α) d (arenaBase arena + position arena s) newCap
    (allocMem arena size s.mem)
  have hcopy : Layout.size α * (listHead d s.mem).count.toNat ≤ size.toNat := by
    rw [hsize]
    exact Nat.mul_le_mul_left _ hcount
  have hnat : (UInt64.ofNat (arenaBase arena + position arena s)).toNat =
      arenaBase arena + position arena s := by
    have htop := hplace.top_le
    rw [UInt64.toNat_ofNat', Nat.mod_eq_of_lt (by omega)]
  obtain ⟨s₁, hs₁⟩ : ∃ s₁, s.withMem (allocMem arena size s.mem) = s₁ := ⟨_, rfl⟩
  have hmem : allocMem arena size s.mem = s₁.mem := by rw [← hs₁, Proc.mem_withMem]
  have hfinal : ∀ m, s.withMem m = s₁.withMem m := fun m => by rw [← hs₁, Proc.withMem_withMem]
  rw [hs₁] at hkept
  rw [hmem] at hhead hzero heqOn ⊢
  rw [hfinal]
  clear hs₁ hmem hfinal
  have hposition := hkept.position_eq
  have hhi : arenaBase arena + position arena s + Layout.size α * newCap.toNat ≤
      arenaBase arena + position arena s₁ := by omega
  have hcount' : (listHead d s₁.mem).count.toNat ≤ newCap.toNat := by
    rw [hhead]
    exact hcount
  obtain ⟨hinv', hentries, hposition'⟩ := ListInv.of_growMem hkept.inv.arenaAt
    hkept.inv.lo_le hplace hlo hhi (by omega) hcount'
    (fun x hx => hzero x (by rwa [hsize]))
  refine ⟨hinv', ?_, hposition'.trans hposition, ?_, ?_, ?_⟩
  · rw [Proc.mem_withMem, hentries, hkept.entries_eq]
  · -- the array is in bytes that were free
    rw [Proc.mem_withMem, listHead_growMem, hnat]
    exact .inr le_rfl
  · rw [Proc.maps_withMem, hkept.maps_eq]
  · intro x hx
    rw [Proc.mem_withMem, heqOn, hkept.eqOn hx]
    -- the struct and the copy are in the footprint
    refine Set.compl_subset_compl.mpr (Set.union_subset ?_ ?_) hx
    · exact fun y hy => .inl (.inl (.inr hy))
    · rw [hhead]
      exact fun y hy => .inr ⟨hy.1, lt_of_lt_of_le hy.2 (by omega)⟩

/-- Appending after a step that made room. -/
theorem ListKept.append {n : ℕ} (h : ListKept α arena d lo capacity [] n s s')
    (hplace : ListPlace arena d lo capacity)
    (hlt : (listHead d s'.mem).count.toNat < (listHead d s'.mem).capacity.toNat) (v : α) :
    ListKept α arena d lo capacity [v] n s (s'.withMem (appendMem d v s'.mem)) ∧
      (listHead d (s'.withMem (appendMem d v s'.mem)).mem).capacity =
        (listHead d s'.mem).capacity := by
  obtain ⟨hkept, hcap⟩ := h.inv.append hplace hlt v
  rw [Proc.mem_withMem]
  exact ⟨h.trans hkept, hcap⟩

/-- A free slot reads as zeros. -/
theorem ListInv.loadAs_slot (hinv : ListInv α arena d lo capacity s)
    (hlt : (listHead d s.mem).count.toNat < (listHead d s.mem).capacity.toNat) :
    s.mem.loadAs α ((listHead d s.mem).data.toNat +
      Layout.size α * (listHead d s.mem).count.toNat) =
        Layout.decode (List.replicate (Layout.size α) 0) := by
  have hslot := Memory.mul_add_size_le (α := α) hlt
  refine Memory.loadAs_of_zero fun x hx => hinv.unused x hx.1 ?_
  have := hx.2
  omega

/-- Writes away from the header, the struct and the array are no concern of the list. -/
theorem ListInv.of_eqOn (hinv : ListInv α arena d lo capacity s) (hmaps : s'.maps = s.maps)
    (heqOn : Set.EqOn s'.mem.byte s.mem.byte (Memory.range arena sizeofMemArena ∪
      Memory.range d 24 ∪ Memory.range (listHead d s.mem).data.toNat
        (Layout.size α * (listHead d s.mem).capacity.toNat))) :
    ListInv α arena d lo capacity s' ∧ entries α d s'.mem = entries α d s.mem ∧
      listHead d s'.mem = listHead d s.mem ∧ position arena s' = position arena s := by
  have hheader : memArena s'.mem arena = memArena s.mem arena :=
    memArena_eq_of_eqOn (heqOn.mono fun x hx => .inl (.inl hx))
  have hposition : position arena s' = position arena s := by rw [position, hheader, position]
  have hhead : listHead d s'.mem = listHead d s.mem :=
    listHead_eq_of_eqOn (heqOn.mono fun x hx => .inl (.inr hx))
  have hcount := Nat.mul_le_mul_left (Layout.size α) hinv.count_le
  refine ⟨⟨hinv.arenaAt.of_memArena hmaps hheader, ?_, ?_, ?_, ?_⟩,
    entries_eq_of_eqOn hhead (heqOn.mono fun x hx => .inr ⟨hx.1, hx.2.trans_le (by omega)⟩),
    hhead, hposition⟩
  · rw [hposition]
    exact hinv.lo_le
  · rw [hhead]
    exact hinv.count_le
  · rw [hhead, hposition]
    exact hinv.array_mem
  · rw [hhead]
    intro x hx hx'
    rw [heqOn (.inr ⟨le_trans (Nat.le_add_right _ _) hx, hx'⟩)]
    exact hinv.unused x hx hx'

/-! ## Pushes -/

/-- The capacity of the next larger array, as it is computed. -/
def nextCapacity (d : ℕ) (m : Memory) : UInt64 :=
  if (listHead d m).capacity ≠ 0 then (listHead d m).capacity * 2 else 8

theorem toNat_nextCapacity {m : Memory}
    (h : newCapacity (listHead d m).capacity.toNat < 2 ^ 64) :
    (nextCapacity d m).toNat = newCapacity (listHead d m).capacity.toNat := by
  rw [nextCapacity]
  by_cases h0 : (listHead d m).capacity = 0
  · rw [h0]
    rfl
  · have hnat : (listHead d m).capacity.toNat ≠ 0 := fun hz => h0 (UInt64.toNat_inj.mp hz)
    rw [newCapacity, if_neg hnat] at h ⊢
    rw [if_pos h0, UInt64.toNat_mul, show (2 : UInt64).toNat = 2 from rfl, Nat.mul_comm]
    exact Nat.mod_eq_of_lt h

/-- The list is full and the arena has no room for a larger array. -/
def GrowthFails (α : Type) [Layout α] (arena d : ℕ) (s : Proc) : Prop :=
  (listHead d s.mem).count = (listHead d s.mem).capacity ∧
    (pushArray arena (UInt64.ofNat (Layout.size α)) (nextCapacity d s.mem) s).map Prod.fst =
      .ok NULL

instance (arena d : ℕ) (s : Proc) : Decidable (GrowthFails α arena d s) :=
  inferInstanceAs (Decidable (_ ∧ _))

/-- The capacity of the list after a push that was granted. -/
def grownCapacity (d : ℕ) (m : Memory) : ℕ :=
  if (listHead d m).count = (listHead d m).capacity
  then newCapacity (listHead d m).capacity.toNat else (listHead d m).capacity.toNat

/-- What a push of `v` can do: put it behind the entries if there is room for what it takes from the
arena, and else leave everything as it is. -/
structure PushOutcome (α : Type) [Layout α] (arena d lo : ℕ) (capacity : UInt64) (v : α) (s : Proc)
    (out : Except Halt Proc) : Prop where
  granted : position arena s + growth α d s.mem ≤ capacity.toNat →
    ∃ s', out = .ok s' ∧ ListKept α arena d lo capacity [v] (growth α d s.mem) s s' ∧
      (listHead d s'.mem).capacity.toNat = grownCapacity d s.mem
  refused : capacity.toNat < position arena s + growth α d s.mem →
    position arena s + growth α d s.mem < 2 ^ 64 → out = .ok s

/-- A function that pushes an entry for each `b : β`, once the capacity of the list is `ready`. -/
structure PushFn (α β : Type) [Layout α] where
  push : (arena d : ℕ) → β → Proc → Except Halt Proc
  item : β → α
  ready : UInt64 → Prop
  ready_of_ne_zero {c : UInt64} : c ≠ 0 → ready c
  outcome {arena d lo : ℕ} {capacity : UInt64} {s : Proc} (b : β) :
    ListPlace arena d lo capacity → ListInv α arena d lo capacity s →
    ready (listHead d s.mem).capacity →
      PushOutcome α arena d lo capacity (item b) s (push arena d b s)

/-- The number of entries a list stores of the next `n`, when `free` bytes are left in the arena:
those before the first growth there is no room for. -/
def stored (size : ℕ) : (n free count capacity : ℕ) → ℕ
  | 0, _, _, _ => 0
  | n + 1, free, count, capacity =>
    if count = capacity then
      if size * newCapacity capacity ≤ free then
        stored size n (free - size * newCapacity capacity) (count + 1) (newCapacity capacity) + 1
      else 0
    else stored size n free (count + 1) capacity + 1

/-- The number of entries the list at `d` stores of the next `n`. -/
def storedOf (α : Type) [Layout α] (arena d : ℕ) (capacity : UInt64) (s : Proc) (n : ℕ) : ℕ :=
  stored (Layout.size α) n (capacity.toNat - position arena s) (listHead d s.mem).count.toNat
    (listHead d s.mem).capacity.toNat

theorem stored_le (size n free count capacity : ℕ) : stored size n free count capacity ≤ n := by
  induction n generalizing free count capacity with
  | zero => exact Nat.le_refl 0
  | succ n ih =>
    rw [stored]
    split
    · split
      · exact Nat.succ_le_succ (ih _ _ _)
      · exact Nat.zero_le _
    · exact Nat.succ_le_succ (ih _ _ _)

/-- When there is room for some entries, there is room for the first of them. -/
theorem stored_of_add {size a b free count capacity : ℕ}
    (h : stored size (a + b) free count capacity = a + b) :
    stored size a free count capacity = a := by
  induction a generalizing free count capacity with
  | zero => rfl
  | succ a ih =>
    rw [Nat.succ_add, stored] at h
    rw [stored]
    by_cases hfull : count = capacity
    · rw [if_pos hfull] at h ⊢
      by_cases hfits : size * newCapacity capacity ≤ free
      · rw [if_pos hfits] at h ⊢
        exact congrArg Nat.succ (ih (Nat.succ.inj h))
      · rw [if_neg hfits] at h
        omega
    · rw [if_neg hfull] at h ⊢
      exact congrArg Nat.succ (ih (Nat.succ.inj h))

theorem lt_newCapacity (capacity : ℕ) : capacity < newCapacity capacity := by
  unfold newCapacity
  split <;> omega

theorem le_grownCapacity (d : ℕ) (m : Memory) :
    (listHead d m).capacity.toNat ≤ grownCapacity d m := by
  unfold grownCapacity
  split
  · exact (lt_newCapacity _).le
  · exact le_rfl

/-- In an arena of an ordinary size the sum that is checked does not wrap. -/
theorem ListInv.growth_lt (hinv : ListInv α arena d lo capacity s)
    (hplace : ListPlace arena d lo capacity) (hsize : Layout.size α ≤ 2 ^ 59)
    (hcap : capacity.toNat ≤ 2 ^ 62) : position arena s + growth α d s.mem < 2 ^ 64 := by
  have hpos := hinv.arenaAt.position_le_toNat
  have hbase := hplace.base_le
  unfold growth newCapacity
  split
  · split
    · omega
    · -- the old array fits the arena, so twice as much is far from wrapping
      next hne =>
      obtain ⟨hlo, hhi⟩ := hinv.array_le.resolve_left hne
      have hdouble : Layout.size α * (2 * (listHead d s.mem).capacity.toNat) =
          2 * (Layout.size α * (listHead d s.mem).capacity.toNat) := Nat.mul_left_comm _ _ _
      omega
  · omega

/-- The allocation of a larger array, when the sum that is checked does not wrap: refused, or
granted at the position, and then the list may be moved there. -/
theorem ListInv.pushArray_cases (hinv : ListInv α arena d lo capacity s)
    (hplace : ListPlace arena d lo capacity) {elemSize : UInt64}
    (helem : elemSize.toNat = Layout.size α) (hpos : 0 < Layout.size α)
    (hfull : (listHead d s.mem).count = (listHead d s.mem).capacity)
    (hnew : newCap.toNat = newCapacity (listHead d s.mem).capacity.toNat)
    (hexact : position arena s + growth α d s.mem < 2 ^ 64) :
    (capacity.toNat < position arena s + growth α d s.mem ∧
      pushArray arena elemSize newCap s = .ok (NULL, s)) ∨
    (position arena s + growth α d s.mem ≤ capacity.toNat ∧
      pushArray arena elemSize newCap s = .ok (arenaBase arena + position arena s,
        s.withMem (allocMem arena (elemSize * newCap) s.mem)) ∧
      listHead d (allocMem arena (elemSize * newCap) s.mem) = listHead d s.mem ∧
      ListKept α arena d lo capacity [] (growth α d s.mem) s
        (s.withMem (growMem α d (arenaBase arena + position arena s) newCap
          (allocMem arena (elemSize * newCap) s.mem)))) := by
  -- the product of the source is what the statement calls growth
  have hgrowth : growth α d s.mem = Layout.size α * newCap.toNat := by
    rw [growth, if_pos hfull, hnew]
  rw [hgrowth] at hexact ⊢
  have hsize : (elemSize * newCap).toNat = Layout.size α * newCap.toNat := by
    rw [UInt64.toNat_mul, helem, Nat.mod_eq_of_lt (by omega)]
  have hlt := lt_newCapacity (listHead d s.mem).capacity.toNat
  rw [← hnew] at hlt
  have hcount : (listHead d s.mem).count.toNat ≤ newCap.toNat := by
    rw [hfull]
    exact hlt.le
  have hsizePos : 0 < Layout.size α * newCap.toNat := Nat.mul_pos hpos (Nat.zero_lt_of_lt hlt)
  obtain ⟨hlim, halloc⟩ | ⟨hlim, hunmapped, -⟩ | ⟨⟨hroom, -⟩, halloc⟩ :=
    hinv.arenaAt.alloc_cases (elemSize * newCap)
  · rw [hsize, Nat.mod_eq_of_lt hexact] at hlim
    exact .inl ⟨hlim, halloc⟩
  · rw [hsize, Nat.mod_eq_of_lt hexact] at hlim
    rw [hsize] at hunmapped
    exact absurd (hplace.hasRoom hinv.arenaAt hlim).2 hunmapped
  · have hkept := hinv.grow hplace hsize (by rwa [hsize]) hcount hroom
    rw [hsize] at hroom hkept
    exact .inr ⟨hroom, halloc, (hinv.alloc hplace (by rwa [hsize])).2, hkept⟩

/-- A push to a list with a free slot: the entry is stored there. -/
theorem ListInv.pushOutcome_of_free (hinv : ListInv α arena d lo capacity s)
    (hplace : ListPlace arena d lo capacity)
    (hfree : (listHead d s.mem).count ≠ (listHead d s.mem).capacity) {out : Except Halt Proc}
    (hout : (listHead d s.mem).count.toNat < (listHead d s.mem).capacity.toNat →
      out = .ok (s.withMem (appendMem d v s.mem))) :
    PushOutcome α arena d lo capacity v s out := by
  have hpos := hinv.arenaAt.position_le_toNat
  have hgrowth : growth α d s.mem = 0 := if_neg hfree
  have hlt : (listHead d s.mem).count.toNat < (listHead d s.mem).capacity.toNat :=
    lt_of_le_of_ne hinv.count_le fun h => hfree (UInt64.toNat_inj.mp h)
  obtain ⟨hkept, hcap⟩ := (ListKept.refl hinv).append hplace hlt v
  refine ⟨fun _ => ⟨_, hout hlt, ?_, ?_⟩, fun hlt' => absurd hlt' (by omega)⟩
  · rw [hgrowth]
    exact hkept
  · rw [hcap, grownCapacity, if_neg hfree]

/-- A push to a full list: the list is moved to a larger array and the entry is stored there, unless
the arena has no room for the array. -/
theorem ListInv.pushOutcome_of_full (hinv : ListInv α arena d lo capacity s)
    (hplace : ListPlace arena d lo capacity) (elemSize newCap : UInt64)
    (helem : elemSize.toNat = Layout.size α) (hpos : 0 < Layout.size α)
    (hfull : (listHead d s.mem).count = (listHead d s.mem).capacity)
    (hnew : position arena s + growth α d s.mem < 2 ^ 64 →
      newCap.toNat = newCapacity (listHead d s.mem).capacity.toNat) {out : Except Halt Proc}
    (hrefused : pushArray arena elemSize newCap s = .ok (NULL, s) → out = .ok s)
    (hgranted : ∀ m s₂, pushArray arena elemSize newCap s =
        .ok (arenaBase arena + position arena s, s.withMem m) →
      listHead d m = listHead d s.mem →
      s₂ = s.withMem (growMem α d (arenaBase arena + position arena s) newCap m) →
      ListInv α arena d lo capacity s₂ →
      (listHead d s₂.mem).count.toNat < (listHead d s₂.mem).capacity.toNat →
        out = .ok (s₂.withMem (appendMem d v s₂.mem))) :
    PushOutcome α arena d lo capacity v s out := by
  refine ⟨fun hroom => ?_, fun hlt hexact => ?_⟩
  · have hexact := hroom.trans_lt capacity.toNat_lt
    obtain ⟨hlim, -⟩ | ⟨-, halloc, hhead, hkept⟩ :=
      hinv.pushArray_cases hplace helem hpos hfull (hnew hexact) hexact
    · exact absurd hroom (Nat.not_le.mpr hlim)
    · -- the state between the growth and the append
      obtain ⟨s₂, hs₂⟩ : ∃ s₂, s₂ = s.withMem (growMem α d (arenaBase arena + position arena s)
          newCap (allocMem arena (elemSize * newCap) s.mem)) := ⟨_, rfl⟩
      rw [← hs₂] at hkept
      have hhead₂ : listHead d s₂.mem = { listHead d s.mem with
          data := UInt64.ofNat (arenaBase arena + position arena s), capacity := newCap } := by
        rw [hs₂, Proc.mem_withMem, listHead_growMem, hhead]
      have hlt : (listHead d s₂.mem).count.toNat < (listHead d s₂.mem).capacity.toNat := by
        rw [hhead₂, hfull, hnew hexact]
        exact lt_newCapacity _
      obtain ⟨hkept', hcap⟩ := hkept.append hplace hlt v
      refine ⟨_, hgranted _ s₂ halloc hhead hs₂ hkept.inv hlt, hkept', ?_⟩
      rw [hcap, hhead₂, grownCapacity, if_pos hfull, ← hnew hexact]
  · obtain ⟨-, halloc⟩ | ⟨hlim, -⟩ :=
      hinv.pushArray_cases hplace helem hpos hfull (hnew hexact) hexact
    · exact hrefused halloc
    · exact absurd hlim (Nat.not_le.mpr hlt)

/-- Where the sum that is checked does not wrap, the growth fails iff it does not fit. -/
theorem ListInv.growthFails_iff (hinv : ListInv α arena d lo capacity s)
    (hplace : ListPlace arena d lo capacity) (hpos : 0 < Layout.size α)
    (hsize : Layout.size α < 2 ^ 64) (hexact : position arena s + growth α d s.mem < 2 ^ 64) :
    GrowthFails α arena d s ↔ capacity.toNat < position arena s + growth α d s.mem := by
  have hle := hinv.arenaAt.position_le_toNat
  by_cases hfull : (listHead d s.mem).count = (listHead d s.mem).capacity
  · have hnew : newCapacity (listHead d s.mem).capacity.toNat < 2 ^ 64 := by
      rw [growth, if_pos hfull] at hexact
      have := Nat.le_mul_of_pos_left (newCapacity (listHead d s.mem).capacity.toNat) hpos
      omega
    have helem : (UInt64.ofNat (Layout.size α)).toNat = Layout.size α := by
      rw [UInt64.toNat_ofNat', Nat.mod_eq_of_lt hsize]
    rw [GrowthFails, and_iff_right hfull]
    obtain ⟨hlim, halloc⟩ | ⟨hlim, halloc, -⟩ :=
      hinv.pushArray_cases hplace helem hpos hfull (toNat_nextCapacity hnew) hexact
    · rw [halloc]
      exact iff_of_true rfl hlim
    · have hnull : arenaBase arena + position arena s ≠ NULL := arenaBase_add_ne_null _ _
      rw [halloc]
      exact iff_of_false (fun h => hnull (Except.ok.inj h)) (Nat.not_lt.mpr hlim)
  · rw [growth, if_neg hfull]
    exact iff_of_false (fun h => hfull h.1) (by omega)

/-- A push that is granted stores one entry; the others find the list it leaves. -/
theorem storedOf_succ_of_granted (hinv : ListInv α arena d lo capacity s)
    (hroom : position arena s + growth α d s.mem ≤ capacity.toNat)
    (hkept : ListKept α arena d lo capacity [v] (growth α d s.mem) s s')
    (hcap : (listHead d s'.mem).capacity.toNat = grownCapacity d s.mem) (n : ℕ) :
    storedOf α arena d capacity s (n + 1) = storedOf α arena d capacity s' n + 1 := by
  have hcount : (listHead d s'.mem).count.toNat = (listHead d s.mem).count.toNat + 1 := by
    have hlength := congrArg List.length hkept.entries_eq
    rwa [List.length_append, ListInv.length_entries, ListInv.length_entries] at hlength
  have hfree : capacity.toNat - position arena s - growth α d s.mem =
      capacity.toNat - position arena s' := by
    rw [hkept.position_eq, Nat.sub_sub]
  have hpos := hinv.arenaAt.position_le_toNat
  rw [storedOf, storedOf, stored, hcount, hcap, ← hfree]
  by_cases hfull : (listHead d s.mem).count = (listHead d s.mem).capacity
  · have hfits : Layout.size α * newCapacity (listHead d s.mem).capacity.toNat ≤
        capacity.toNat - position arena s := by
      rw [growth, if_pos hfull] at hroom
      omega
    rw [if_pos (congrArg UInt64.toNat hfull), if_pos hfits, growth, grownCapacity, if_pos hfull,
      if_pos hfull]
  · rw [if_neg (fun h => hfull (UInt64.toNat_inj.mp h)), growth, grownCapacity, if_neg hfull,
      if_neg hfull, Nat.sub_zero]

/-- Where a push is refused, none of the next entries is stored. -/
theorem storedOf_of_refused (hinv : ListInv α arena d lo capacity s)
    (hfull : capacity.toNat < position arena s + growth α d s.mem) (n : ℕ) :
    storedOf α arena d capacity s n = 0 := by
  have hpos := hinv.arenaAt.position_le_toNat
  cases n with
  | zero => rfl
  | succ n =>
    unfold growth at hfull
    split at hfull
    · next heq => rw [storedOf, stored, if_pos (congrArg UInt64.toNat heq), if_neg (by omega)]
    · omega

namespace PushFn

variable {β : Type} (k : PushFn α β)

/-- Where a push is refused, the next ones are as well. -/
theorem foldlM_refused (hplace : ListPlace arena d lo capacity)
    (hinv : ListInv α arena d lo capacity s) (hready : k.ready (listHead d s.mem).capacity)
    (hfull : capacity.toNat < position arena s + growth α d s.mem)
    (hexact : position arena s + growth α d s.mem < 2 ^ 64) (bs : List β) :
    bs.foldlM (fun s b => k.push arena d b s) s = .ok s := by
  induction bs with
  | nil => rfl
  | cons b bs ih =>
    rw [List.foldlM_cons, (k.outcome b hplace hinv hready).refused hfull hexact]
    exact ih

/-- A run of pushes stores the entries before the arena is full, and drops the others. What there is
room for after it is what is left of what there was room for. -/
theorem foldlM_push (hplace : ListPlace arena d lo capacity)
    (hinv : ListInv α arena d lo capacity s) (hready : k.ready (listHead d s.mem).capacity)
    (bs : List β) (hexact : Layout.size α ≤ 2 ^ 59 ∧ capacity.toNat ≤ 2 ^ 62 ∨
      storedOf α arena d capacity s bs.length = bs.length) :
    ∃ s' n, bs.foldlM (fun s b => k.push arena d b s) s = .ok s' ∧
      ListKept α arena d lo capacity
        ((bs.map k.item).take (storedOf α arena d capacity s bs.length)) n s s' ∧
      (listHead d s.mem).capacity.toNat ≤ (listHead d s'.mem).capacity.toNat ∧
      ∀ m, storedOf α arena d capacity s (bs.length + m) = bs.length + m →
        storedOf α arena d capacity s' m = m := by
  induction bs generalizing s with
  | nil =>
    refine ⟨s, 0, rfl, ListKept.refl hinv, le_rfl, fun m hm => ?_⟩
    rwa [List.length_nil, Nat.zero_add] at hm
  | cons b bs ih =>
    have houtcome := k.outcome b hplace hinv hready
    rcases Nat.lt_or_ge capacity.toNat (position arena s + growth α d s.mem) with hfull | hroom
    · -- the list is full and so is the arena
      rw [List.length_cons] at hexact
      rw [List.length_cons, storedOf_of_refused hinv hfull, List.take_zero]
      rw [storedOf_of_refused hinv hfull] at hexact
      have hlt := hinv.growth_lt hplace
      obtain ⟨hsize, hcap⟩ := hexact.resolve_right (by omega)
      refine ⟨s, 0, k.foldlM_refused hplace hinv hready hfull (hlt hsize hcap) (b :: bs),
        ListKept.refl hinv, le_rfl, fun m hm => ?_⟩
      rw [storedOf_of_refused hinv hfull] at hm
      omega
    · -- granted: the rest is pushed from the state after it
      obtain ⟨s₁, hpush, hkept, hcap⟩ := houtcome.granted hroom
      have hsucc := storedOf_succ_of_granted hinv hroom hkept hcap bs.length
      have hle : (listHead d s.mem).capacity.toNat ≤ (listHead d s₁.mem).capacity.toNat := by
        rw [hcap]
        exact le_grownCapacity d s.mem
      have hready₁ := k.ready_of_ne_zero hkept.capacity_ne_zero
      rw [List.length_cons, hsucc] at hexact ⊢
      obtain ⟨s₂, n, hfold, hkept₂, hle₂, hrest⟩ :=
        ih hkept.inv hready₁ (hexact.imp_right Nat.succ.inj)
      refine ⟨s₂, growth α d s.mem + n, ?_, ?_, hle.trans hle₂, fun m hm => ?_⟩
      · rw [List.foldlM_cons, hpush]
        exact hfold
      · rw [List.map_cons, List.take_succ_cons]
        exact hkept.trans hkept₂
      · rw [Nat.succ_add, storedOf_succ_of_granted hinv hroom hkept hcap] at hm
        exact hrest m (Nat.succ.inj hm)

end PushFn

end AgentResources
