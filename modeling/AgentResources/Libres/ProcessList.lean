import AgentResources.Base.ArenaList
import AgentResources.Base.Parse
import AgentResources.Libres.ProcessRead

/-!
# Collecting the processes

`process_list_collect` of `resources.cc`. The directory `/proc` is the list of the names of its
entries, or nothing when it cannot be opened; `readdir` gives them one by one.

The loop breaks at the first growth the arena has no room for. As every later growth would fail just
as well, the loop is a run of pushes that leave the list as it is when they fail (`pushProcess`,
`collectLoop_eq`), and `processPush` makes them pushes of a list that grows in an arena.
-/

namespace AgentResources

/-- The value of a state in C. -/
def SysProcState.value : SysProcState → UInt32
  | .undefined => 0
  | .running => 1
  | .sleeping => 2
  | .diskSleeping => 3
  | .stopped => 4
  | .tracingStopped => 5
  | .zombie => 6
  | .dead => 7
  | .idle => 8

/-- The state with a value. -/
def SysProcState.ofValue : UInt32 → SysProcState
  | 1 => .running
  | 2 => .sleeping
  | 3 => .diskSleeping
  | 4 => .stopped
  | 5 => .tracingStopped
  | 6 => .zombie
  | 7 => .dead
  | 8 => .idle
  | _ => .undefined

instance : Layout SysProcState :=
  Layout.ofFields SysProcState.value SysProcState.ofValue fun v => by cases v <;> rfl

-- seven bytes of padding align `stime`
instance : Layout SysProc := Layout.ofFields
  (fun p => (p.name, p.numThreads, (Vector.replicate 7 0 : Vector UInt8 7), p.stime, p.utime,
    p.pid, p.state))
  (fun (n, t, _, st, ut, pid, state) => ⟨n, t, st, ut, pid, state⟩) fun _ => rfl

/-- `sizeof(sys_proc)` -/
def sizeofSysProc : UInt64 := 48

/-- `struct sys_process_list` -/
structure SysProcList where
  items : UInt64
  count : UInt64
  capacity : UInt64
  deriving DecidableEq

instance : Layout SysProcList := Layout.ofFields
  (fun l => (l.items, l.count, l.capacity)) (fun (p, n, c) => ⟨p, n, c⟩) fun _ => rfl

/-- The process id of a directory entry: `d_name` is an array of 256 bytes. -/
def pidOf (name : List UInt8) : Int32 := (parseU64 (name ++ [0]) 256).toUInt32.toInt32

/-- The growth of the list, which ends the loop when the arena has no room for it. -/
def growItems (list arena : ℕ) (s : Proc) : Except Halt (Option Proc) :=
  let l := s.mem.loadAs SysProcList list
  if l.count = l.capacity then do
    let newCap := l.capacity * 2
    let (np, s) ← pushArray arena sizeofSysProc newCap s
    if np = NULL then return none
    let m := s.mem.store np (s.mem.load l.items.toNat (sizeofSysProc * l.capacity).toNat)
    let m := m.storeAs list { l with items := UInt64.ofNat np, capacity := newCap }
    return some (s.withMem m)
  else .ok (some s)

/-- Fill the next slot of the list. -/
def appendProcess (list : ℕ) (name : List UInt8) (s : Proc) : Except Halt Proc :=
  let l := s.mem.loadAs SysProcList list
  if l.items = 0 then .error (.undefined .nullPointer)
  else
    let slot := l.items.toNat + sizeofSysProc.toNat * l.count.toNat
    let m := s.mem.storeAs list { l with count := l.count + 1 }
    let p := m.loadAs SysProc slot
    let p := { p with
      pid := pidOf name, state := .undefined, utime := 0, stime := 0, numThreads := 0
      name := p.name.set 0 0 }
    .ok (s.withMem (m.storeAs slot p))

/-- The loop over the names of the directory. -/
def collectLoop (list arena : ℕ) : List (List UInt8) → Proc → Except Halt Proc
  | [], s => .ok s
  | name :: names, s =>
    if isNumeric name then do
      match ← growItems list arena s with
      | none => return s
      | some s =>
        let s ← appendProcess list name s
        collectLoop list arena names s
    else collectLoop list arena names s

/-- The first array of a list that has none. -/
def initItems (list arena : ℕ) (s : Proc) : Except Halt Proc := do
  let l := s.mem.loadAs SysProcList list
  let l := { l with capacity := 8, count := 0 }
  let (items, s) ← pushArray arena sizeofSysProc 8 (s.withMem (s.mem.storeAs list l))
  let s := s.withMem (s.mem.storeAs list { l with items := UInt64.ofNat items })
  if items = NULL then .error .assertFailed else .ok s

/-- `process_list_collect`, where `dir` is the directory `/proc`. -/
def processListCollect (dir : Option (List (List UInt8))) (list arena : ℕ) (s : Proc) :
    Except Halt (ℤ × Proc) :=
  match dir with
  | none => .error .assertFailed
  | some names => do
    if list = NULL then .error (.undefined .nullPointer)
    let s ← if (s.mem.loadAs SysProcList list).items = 0 then initItems list arena s else .ok s
    let s ← collectLoop list arena names s
    return (errOk, s)

/-! ## The loop as a run of pushes -/

/-- A round of the loop, where a growth that fails leaves the list as it is. -/
def pushProcess (arena list : ℕ) (name : List UInt8) (s : Proc) : Except Halt Proc := do
  match ← growItems list arena s with
  | none => return s
  | some s => appendProcess list name s

variable {arena list lo : ℕ} {capacity : UInt64} {s : Proc}

theorem foldlM_pushProcess_of_none (h : growItems list arena s = .ok none)
    (names : List (List UInt8)) :
    names.foldlM (fun s name => pushProcess arena list name s) s = .ok s := by
  induction names with
  | nil => rfl
  | cons name names ih =>
    rw [List.foldlM_cons, pushProcess, h]
    exact ih

/-- The loop pushes the numeric names. -/
theorem collectLoop_eq (list arena : ℕ) (names : List (List UInt8)) (s : Proc) :
    collectLoop list arena names s =
      (names.filter isNumeric).foldlM (fun s name => pushProcess arena list name s) s := by
  induction names generalizing s with
  | nil => rfl
  | cons name names ih =>
    rw [collectLoop]
    by_cases hnumeric : isNumeric name
    · rw [if_pos hnumeric, List.filter_cons_of_pos hnumeric]
      rw [List.foldlM_cons, pushProcess]
      cases hgrow : growItems list arena s with
      | error e => rfl
      | ok grown =>
        rw [Except.ok_bind, Except.ok_bind]
        cases grown with
        | none => exact (foldlM_pushProcess_of_none hgrow _).symm
        | some s₁ =>
          dsimp only
          exact bind_congr fun s₂ => ih s₂
    · rw [if_neg hnumeric, List.filter_cons_of_neg hnumeric]
      exact ih s

/-- The process a name is stored as. -/
def newProcess (name : List UInt8) : SysProc where
  name := .replicate 16 0
  numThreads := 0
  stime := 0
  utime := 0
  pid := pidOf name
  state := .undefined

theorem decode_zero_sysProc : (Layout.decode (List.replicate (Layout.size SysProc) 0) : SysProc) =
    ⟨.replicate 16 0, 0, 0, 0, 0, .undefined⟩ := by
  decide +kernel

/-- Storing the struct and then a slot is appending. -/
theorem appendMem_sysProc (m : Memory) (list : ℕ) (p : SysProc) :
    (m.storeAs list { m.loadAs SysProcList list with
      count := (m.loadAs SysProcList list).count + 1 }).storeAs
        ((m.loadAs SysProcList list).items.toNat +
          sizeofSysProc.toNat * (m.loadAs SysProcList list).count.toNat) p =
      appendMem list p m := rfl

/-- Filling a free slot. -/
theorem appendProcess_eq (hinv : ListInv SysProc arena list lo capacity s)
    (hplace : ListPlace arena list lo capacity)
    (hlt : (listHead list s.mem).count.toNat < (listHead list s.mem).capacity.toNat)
    (name : List UInt8) :
    appendProcess list name s =
      .ok (s.withMem (appendMem list (newProcess name) s.mem)) := by
  obtain ⟨hlo, hhi⟩ := hinv.array_le.resolve_left (Nat.ne_of_gt (Nat.zero_lt_of_lt hlt))
  have hne : (s.mem.loadAs SysProcList list).items ≠ 0 := hplace.ne_zero hlo
  -- the slot is still zero, and not reached by the store of the count
  have hslot := Memory.mul_add_size_le (α := SysProc) hlt
  have hfree := hinv.loadAs_slot hlt
  rw [decode_zero_sysProc] at hfree
  have hload : (s.mem.storeAs list { s.mem.loadAs SysProcList list with
      count := (s.mem.loadAs SysProcList list).count + 1 }).loadAs SysProc
        ((s.mem.loadAs SysProcList list).items.toNat +
          sizeofSysProc.toNat * (s.mem.loadAs SysProcList list).count.toNat) =
      ⟨.replicate 16 0, 0, 0, 0, 0, .undefined⟩ := by
    have hstruct := hplace.struct_subset (hlo.trans (Nat.le_add_right _ (Layout.size SysProc *
      (listHead list s.mem).count.toNat))) (n := Layout.size SysProc) (by omega)
    refine Eq.trans ?_ hfree
    exact Memory.loadAs_eq_of_eqOn
      ((Memory.storeAs_eqOn _ _ _).mono (Set.subset_compl_comm.mp hstruct))
  have hname : (Vector.replicate 16 (0 : UInt8)).set 0 0 (by decide) = .replicate 16 0 := by
    decide +kernel
  rw [appendProcess, if_neg hne]
  simp only [hload, hname]
  exact congrArg (fun m => Except.ok (s.withMem m)) (appendMem_sysProc s.mem list (newProcess name))

theorem growItems_of_not_full
    (h : (listHead list s.mem).count ≠ (listHead list s.mem).capacity) :
    growItems list arena s = .ok (some s) := by
  have hfull : (s.mem.loadAs SysProcList list).count ≠ (s.mem.loadAs SysProcList list).capacity := h
  rw [growItems, if_neg hfull]

theorem growItems_of_refused
    (hfull : (listHead list s.mem).count = (listHead list s.mem).capacity)
    (halloc : pushArray arena sizeofSysProc ((listHead list s.mem).capacity * 2) s =
      .ok (NULL, s)) :
    growItems list arena s = .ok none := by
  have hfull' : (s.mem.loadAs SysProcList list).count =
      (s.mem.loadAs SysProcList list).capacity := hfull
  have halloc' : pushArray arena sizeofSysProc ((s.mem.loadAs SysProcList list).capacity * 2) s =
      .ok (NULL, s) := halloc
  rw [growItems, if_pos hfull']
  dsimp only
  rw [halloc', Except.ok_bind]
  rfl

/-- Growing copies as many entries as the old array has slots: that is all of them. -/
theorem growItems_of_granted {np : ℕ} {m : Memory}
    (hfull : (listHead list s.mem).count = (listHead list s.mem).capacity)
    (halloc : pushArray arena sizeofSysProc ((listHead list s.mem).capacity * 2) s =
      .ok (np, s.withMem m))
    (hne : np ≠ NULL) (hhead : listHead list m = listHead list s.mem)
    (hcopy : (sizeofSysProc * (listHead list s.mem).capacity).toNat =
      Layout.size SysProc * (listHead list s.mem).count.toNat) :
    growItems list arena s =
      .ok (some (s.withMem (growMem SysProc list np ((listHead list s.mem).capacity * 2) m))) := by
  have hfull' : (s.mem.loadAs SysProcList list).count =
      (s.mem.loadAs SysProcList list).capacity := hfull
  have halloc' : pushArray arena sizeofSysProc ((s.mem.loadAs SysProcList list).capacity * 2) s =
      .ok (np, s.withMem m) := halloc
  have hcopy' : (sizeofSysProc * (s.mem.loadAs SysProcList list).capacity).toNat =
      Layout.size SysProc * (listHead list s.mem).count.toNat := hcopy
  rw [growItems, if_pos hfull']
  dsimp only
  rw [halloc', Except.ok_bind]
  dsimp only
  rw [if_neg hne, Proc.mem_withMem, Proc.withMem_withMem, hcopy', growMem, hhead]
  rfl

/-- A round of the loop pushes the process of its name. -/
theorem pushProcess_outcome (hplace : ListPlace arena list lo capacity)
    (hinv : ListInv SysProc arena list lo capacity s) (hne : (listHead list s.mem).capacity ≠ 0)
    (name : List UInt8) :
    PushOutcome SysProc arena list lo capacity (newProcess name) s
      (pushProcess arena list name s) := by
  have hpos := hinv.arenaAt.position_le_toNat
  have hbase := hplace.base_le
  by_cases hfull : (listHead list s.mem).count = (listHead list s.mem).capacity
  · have hnat : (listHead list s.mem).capacity.toNat ≠ 0 := fun h0 => hne (UInt64.toNat_inj.mp h0)
    have hgrowth : growth SysProc list s.mem =
        48 * (2 * (listHead list s.mem).capacity.toNat) := by
      rw [growth, if_pos hfull, newCapacity, if_neg hnat]
      rfl
    -- the three goals: the new capacity, a refused array, a granted one
    refine hinv.pushOutcome_of_full hplace sizeofSysProc ((listHead list s.mem).capacity * 2) rfl
      (by decide) hfull (fun hexact => ?_) (fun halloc => ?_)
      fun m s₂ halloc hhead hs₂ hinv₂ hlt => ?_
    · rw [UInt64.toNat_mul, newCapacity, if_neg hnat, Nat.mul_comm,
        show (2 : UInt64).toNat = 2 from rfl]
      exact Nat.mod_eq_of_lt (by omega)
    · rw [pushProcess, growItems_of_refused hfull halloc]
      rfl
    · have hnull : arenaBase arena + position arena s ≠ NULL := arenaBase_add_ne_null _ _
      -- a full list has an array within the arena, so its size does not wrap
      have hcopy : (sizeofSysProc * (listHead list s.mem).capacity).toNat =
          Layout.size SysProc * (listHead list s.mem).count.toNat := by
        obtain ⟨hlo, hhi⟩ := hinv.array_le.resolve_left hnat
        have htop := hplace.top_le
        have hsize : Layout.size SysProc = 48 := rfl
        rw [hsize] at hhi ⊢
        simp only [arenaBase, sizeofMemArena] at *
        rw [UInt64.toNat_mul, hfull, show sizeofSysProc.toNat = 48 from rfl]
        exact Nat.mod_eq_of_lt (by omega)
      rw [pushProcess, growItems_of_granted hfull halloc hnull hhead hcopy, ← hs₂,
        Except.ok_bind]
      exact appendProcess_eq hinv₂ hplace hlt name
  · refine hinv.pushOutcome_of_free hplace hfull fun hlt => ?_
    rw [pushProcess, growItems_of_not_full hfull, Except.ok_bind]
    exact appendProcess_eq hinv hplace hlt name

/-- The rounds of the loop push to a list that has an array. -/
def processPush : PushFn SysProc (List UInt8) where
  push := pushProcess
  item := newProcess
  ready c := c ≠ 0
  ready_of_ne_zero := id
  outcome name hplace hinv hne := pushProcess_outcome hplace hinv hne name

@[simp]
theorem processPush_push (arena list : ℕ) (name : List UInt8) (s : Proc) :
    processPush.push arena list name s = pushProcess arena list name s := by
  simp only [processPush]

@[simp]
theorem processPush_item : processPush.item = newProcess := rfl

/-! ## The first array -/

/-- The bytes of the first array. -/
def firstArray : ℕ := 384

/-- A list without an array gets one of eight slots, and fails an assertion when the arena has no
room for it. -/
theorem initItems_outcome (hplace : ListPlace arena list lo capacity)
    (ha : ArenaAt arena capacity s) (hlo : lo ≤ arenaBase arena + position arena s)
    (hexact : position arena s + firstArray < 2 ^ 64) :
    (capacity.toNat < position arena s + firstArray ∧
      initItems list arena s = .error .assertFailed) ∨
    (position arena s + firstArray ≤ capacity.toNat ∧ ∃ s', initItems list arena s = .ok s' ∧
      ListInv SysProc arena list lo capacity s' ∧
      position arena s' = position arena s + firstArray ∧ s'.maps = s.maps ∧
      (listHead list s'.mem).count = 0 ∧ (listHead list s'.mem).capacity = 8) := by
  -- the list as the source sets it up before the array is asked for
  obtain ⟨l, hl⟩ : ∃ l : SysProcList, l = { s.mem.loadAs SysProcList list with
      capacity := 8, count := 0 } := ⟨_, rfl⟩
  obtain ⟨s₁, hs₁⟩ : ∃ s₁, s₁ = s.withMem (s.mem.storeAs list l) := ⟨_, rfl⟩
  -- storing it changes no more than its own bytes, so the arena is as it was
  have heqOn : Set.EqOn s₁.mem.byte s.mem.byte (Memory.range list 24)ᶜ := by
    rw [hs₁, Proc.mem_withMem]
    exact Memory.storeAs_eqOn _ _ l
  have hmemArena : memArena s₁.mem arena = memArena s.mem arena :=
    memArena_eq_of_eqOn (heqOn.mono hplace.header_subset)
  have hmaps₁ : s₁.maps = s.maps := by rw [hs₁, Proc.maps_withMem]
  have ha₁ : ArenaAt arena capacity s₁ := ha.of_memArena hmaps₁ hmemArena
  have hpos₁ : position arena s₁ = position arena s := by rw [position, hmemArena, position]
  have hhead₁ : listHead list s₁.mem = ⟨l.items, 0, 8⟩ := by
    have hload : s₁.mem.loadAs SysProcList list = l := by
      rw [hs₁, Proc.mem_withMem, Memory.loadAs_storeAs]
    have hfields := congrArg
      (fun l : SysProcList => (⟨l.items, l.count, l.capacity⟩ : ListHead)) hload
    rw [hl] at hfields ⊢
    exact hfields
  have hinit : initItems list arena s =
      pushArray arena sizeofSysProc 8 s₁ >>= fun r =>
        if r.1 = NULL then .error .assertFailed
        else .ok (r.2.withMem (r.2.mem.storeAs list { l with items := UInt64.ofNat r.1 })) := by
    rw [hs₁, hl]
    rfl
  have hsize : (sizeofSysProc * 8).toNat = firstArray := rfl
  rw [hinit]
  clear hinit hs₁
  -- the arena refuses the array, or the list gets it as a list without entries does
  obtain ⟨hlim, halloc⟩ | ⟨hlim, hmapped, -⟩ | ⟨hroom, halloc⟩ :=
    ha₁.alloc_cases (sizeofSysProc * 8)
  · rw [hsize, hpos₁, Nat.mod_eq_of_lt hexact] at hlim
    refine .inl ⟨hlim, ?_⟩
    rw [show pushArray arena sizeofSysProc 8 s₁ = _ from halloc, Except.ok_bind]
    rfl
  · -- the arena is mapped in full
    rw [hsize, Nat.mod_eq_of_lt (by rw [hpos₁]; exact hexact), ← hsize] at hlim
    exact absurd (hplace.hasRoom ha₁ hlim).2 hmapped
  · have hnull : arenaBase arena + position arena s₁ ≠ NULL := arenaBase_add_ne_null _ _
    have hroom₁ := hroom.1
    have hlim := hroom₁
    rw [hsize, hpos₁] at hlim
    obtain ⟨hinv, hpos₂, hhead₂⟩ := ListInv.of_first (α := SysProc) ha₁ hplace
      (by rw [hpos₁]; exact hlo) 8 rfl (by decide) (congrArg ListHead.count hhead₁) hroom₁
    -- the store of the source is the move of an empty list, which copies nothing
    have hgrow : growMem SysProc list (arenaBase arena + position arena s₁) 8
        (allocMem arena (sizeofSysProc * 8) s₁.mem) =
          (allocMem arena (sizeofSysProc * 8) s₁.mem).storeAs list
            ({ l with items := UInt64.ofNat (arenaBase arena + position arena s₁) } :
              SysProcList) := by
      have hempty := hplace.listHead_allocMem ha₁ (by rw [hpos₁]; exact hlo) hroom₁
      rw [growMem_of_empty (by rw [hempty, hhead₁]), hl]
      rfl
    refine .inr ⟨hlim, _, ?_, hinv, ?_, ?_, congrArg ListHead.count hhead₂,
      congrArg ListHead.capacity hhead₂⟩
    · rw [show pushArray arena sizeofSysProc 8 s₁ = _ from halloc, Except.ok_bind]
      dsimp only
      rw [if_neg hnull, Proc.mem_withMem, Proc.withMem_withMem, hgrow]
    · rw [hpos₂, hpos₁, hsize]
    · rw [Proc.maps_withMem, hmaps₁]

end AgentResources
