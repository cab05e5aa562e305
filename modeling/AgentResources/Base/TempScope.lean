import AgentResources.Base.ResizeContract

/-!
# Temporary scopes

`temp_arena_end` puts the current position back and nothing else. What a scope leaves behind is the
previous position, which `arena_resize` reads. Whether a scope can be noticed afterwards is decided
here (`tempScope_invisible_iff`): two runs, one from before the scope and one from after it, give
the same answers to every later request iff the previous position is the same, or no live block
starts where either previous position says.

The two runs are related by their headers. While these differ in the previous position only
(`SameButPrevious`), the runs answer alike as long as no resize finds its block there; the first
allocation that is granted makes the headers the same (`SameHeader`), and from then on the runs
answer alike whatever is asked. The abstract account of a body is `ScopeBody.marks`, which moves two
numbers, unless an allocation of the body faults.

## Main definitions

* `ScopeBody`, `runScope`: what happens inside a scope, and the scope;
* `ArenaRun.answer`, `ArenaRun.Later`: what a request returns, and the requests that may follow;
* `ArenaRun.ScopeInvisible`, `ArenaRun.ScopeSpares`.
-/

namespace AgentResources

/-- What happens inside a temporary scope: allocations and closed scopes. -/
inductive ScopeBody
  /-- Nothing more. -/
  | nil
  /-- `arena_alloc` of `size` bytes. -/
  | alloc (size : UInt64) (rest : ScopeBody)
  /-- A scope that is opened and closed. -/
  | scope (inner rest : ScopeBody)

namespace ScopeBody

/-- Run a body. -/
def run (arena : ℕ) : ScopeBody → Proc → Except Halt Proc
  | .nil, s => .ok s
  | .alloc size rest, s => do
    let (_, s) ← arenaAlloc arena size s
    rest.run arena s
  | .scope inner rest, s => do
    let s' ← inner.run arena s
    rest.run arena (tempArenaEnd (tempArenaBegin arena s) s')

/-- Where a body takes the current and the previous position, if no allocation clears bytes that are
not mapped in `s`. -/
def marks (arena capacity : ℕ) (s : Proc) : ScopeBody → ℕ × ℕ → Option (ℕ × ℕ)
  | .nil, p => some p
  | .alloc size rest, p =>
    if capacity < (p.1 + size.toNat) % 2 ^ 64 then rest.marks arena capacity s p
    else if s.Mapped (arenaBase arena + p.1) size.toNat then
      rest.marks arena capacity s (p.1 + size.toNat, p.1)
    else none
  | .scope inner rest, p =>
    (inner.marks arena capacity s p).bind fun q => rest.marks arena capacity s (p.1, q.2)

end ScopeBody

/-- `temp_arena_begin`, a body, `temp_arena_end` -/
def runScope (arena : ℕ) (body : ScopeBody) (s : Proc) : Except Halt Proc := do
  let s' ← body.run arena s
  return tempArenaEnd (tempArenaBegin arena s) s'

namespace ArenaRun

variable {arena : ℕ} {capacity : UInt64} {r r' : ArenaRun} {s s' : Proc}

/-! ## What a body does to the header -/

/-- Whether bytes are mapped in `s` decides where the marks go. -/
theorem marks_congr (h : s'.maps = s.maps) (c : ℕ) (body : ScopeBody) (p : ℕ × ℕ) :
    body.marks arena c s' p = body.marks arena c s p := by
  induction body generalizing p with
  | nil => rfl
  | alloc size rest ih => simp only [ScopeBody.marks, Proc.mapped_congr h, ih]
  | scope inner rest ihInner ihRest => simp only [ScopeBody.marks, ihInner, ihRest]

/-- A body that returns keeps the arena and takes the positions where its marks say. -/
structure BodyDone (arena : ℕ) (capacity : UInt64) (body : ScopeBody) (s s' : Proc) : Prop where
  arenaAt : ArenaAt arena capacity s'
  maps_eq : s'.maps = s.maps
  marks_eq : body.marks arena capacity.toNat s (position arena s, previous arena s) =
    some (position arena s', previous arena s')

/-- A body returns, or one of its allocations faults. -/
theorem run_cases (body : ScopeBody) (ha : ArenaAt arena capacity s) :
    (∃ s', body.run arena s = .ok s' ∧ BodyDone arena capacity body s s') ∨
    (body.run arena s = .error .fault ∧
      body.marks arena capacity.toNat s (position arena s, previous arena s) = none) := by
  induction body generalizing s with
  | nil => exact .inl ⟨s, rfl, ha, rfl, rfl⟩
  | alloc size rest ih =>
    rw [ScopeBody.run, ScopeBody.marks]
    obtain ⟨hfull, h⟩ | ⟨hle, hmapped, h⟩ | ⟨hroom, h⟩ := ha.alloc_cases size
    · rw [h, if_pos hfull]
      obtain ⟨s', hrun, hdone⟩ | hfault := ih ha
      · refine .inl ⟨s', hrun, hdone.arenaAt, hdone.maps_eq, ?_⟩
        rw [ScopeBody.marks, if_pos hfull]
        exact hdone.marks_eq
      · exact .inr hfault
    · rw [h, if_neg (Nat.not_lt.mpr hle), if_neg hmapped]
      exact .inr ⟨rfl, rfl⟩
    · have hnot : ¬ capacity.toNat < (position arena s + size.toNat) % 2 ^ 64 := fun hfull =>
        not_hasRoom_of_lt hfull hroom
      have hmaps : (s.withMem (allocMem arena size s.mem)).maps = s.maps := Proc.maps_withMem _ _
      have hnext := ih (ha.of_allocMem hroom)
      rw [marks_congr hmaps, ha.position_allocMem hroom, previous_allocMem ha] at hnext
      rw [h, Except.ok_bind, if_neg hnot, if_pos hroom.2]
      dsimp only
      obtain ⟨s', hrun, hdone⟩ | hfault := hnext
      · refine .inl ⟨s', hrun, hdone.arenaAt, hdone.maps_eq.trans hmaps, ?_⟩
        have hmarks := hdone.marks_eq
        rw [marks_congr hmaps, ha.position_allocMem hroom, previous_allocMem ha] at hmarks
        rw [ScopeBody.marks, if_neg hnot, if_pos hroom.2]
        exact hmarks
      · exact .inr hfault
  | scope inner rest ihInner ihRest =>
    rw [ScopeBody.run, ScopeBody.marks]
    obtain ⟨s₁, hinner, hdone⟩ | ⟨hinner, hnone⟩ := ihInner ha
    · have hposition : position arena (tempArenaEnd (tempArenaBegin arena s) s₁) =
          position arena s := position_tempArenaEnd (tempArenaBegin arena s) s₁
      have hprevious : previous arena (tempArenaEnd (tempArenaBegin arena s) s₁) =
          previous arena s₁ := previous_setCurrentPosition _ _ _
      have hmaps : (tempArenaEnd (tempArenaBegin arena s) s₁).maps = s.maps :=
        (Proc.maps_withMem _ _).trans hdone.maps_eq
      have hnext := ihRest (s := tempArenaEnd (tempArenaBegin arena s) s₁)
        (hdone.arenaAt.setCurrent ha.position_le)
      rw [marks_congr hmaps, hposition, hprevious] at hnext
      rw [hinner, Except.ok_bind, hdone.marks_eq, Option.bind_some]
      obtain ⟨s', hrun, hdone'⟩ | hfault := hnext
      · refine .inl ⟨s', hrun, hdone'.arenaAt, hdone'.maps_eq.trans hmaps, ?_⟩
        have hmarks := hdone'.marks_eq
        rw [marks_congr hmaps, hposition, hprevious] at hmarks
        rw [ScopeBody.marks, hdone.marks_eq, Option.bind_some]
        exact hmarks
      · exact .inr hfault
    · rw [hinner, hnone]
      exact .inr ⟨rfl, rfl⟩

/-- A closed scope keeps the arena and the current position. -/
structure ScopeDone (arena : ℕ) (capacity : UInt64) (body : ScopeBody) (s s' : Proc) : Prop where
  arenaAt : ArenaAt arena capacity s'
  maps_eq : s'.maps = s.maps
  position_eq : position arena s' = position arena s
  marks_eq : (body.marks arena capacity.toNat s (position arena s, previous arena s)).map Prod.snd =
    some (previous arena s')

/-- A scope returns, or one of its allocations faults. -/
theorem runScope_cases (body : ScopeBody) (ha : ArenaAt arena capacity s) :
    (∃ s', runScope arena body s = .ok s' ∧ ScopeDone arena capacity body s s') ∨
    (runScope arena body s = .error .fault ∧
      body.marks arena capacity.toNat s (position arena s, previous arena s) = none) := by
  rw [runScope]
  obtain ⟨s₁, hrun, hdone⟩ | ⟨hrun, hnone⟩ := run_cases body ha
  · rw [hrun, Except.ok_bind]
    refine .inl ⟨_, congrArg Except.ok (Eq.refl _), hdone.arenaAt.setCurrent ha.position_le,
      (Proc.maps_withMem _ _).trans hdone.maps_eq, position_tempArenaEnd _ _, ?_⟩
    rw [hdone.marks_eq, Option.map_some]
    exact congrArg some (previous_setCurrentPosition _ _ _).symm
  · rw [hrun]
    exact .inr ⟨rfl, hnone⟩

/-! ## Two arenas with the same header -/

/-- The mappings are the same, and the headers, byte by byte. -/
structure SameHeader (arena : ℕ) (s s' : Proc) : Prop where
  maps_eq : s.maps = s'.maps
  eqOn : Set.EqOn s.mem.byte s'.mem.byte (Memory.range arena sizeofMemArena)

/-- The mappings are the same, and the headers but for the previous position. -/
structure SameButPrevious (arena : ℕ) (s s' : Proc) : Prop where
  maps_eq : s.maps = s'.maps
  eqOn : Set.EqOn s.mem.byte s'.mem.byte
    (Memory.range arena sizeofMemArena \ Memory.range (arena + 8) 8)

/-- The base address is the one `arenaCreate` wrote, or a clear has reached the capacity, so that no
address is in the arena any more. -/
def Sane (arena : ℕ) (s : Proc) : Prop :=
  (memArena s.mem arena).basePosition.toNat = arenaBase arena ∨
    ∀ x ∈ Memory.range (arena + 16) 8, s.mem.byte x = 0

theorem SameHeader.butPrevious (h : SameHeader arena s s') : SameButPrevious arena s s' :=
  ⟨h.maps_eq, h.eqOn.mono Set.sdiff_subset⟩

/-- The fields that agree. -/
theorem SameButPrevious.fields (h : SameButPrevious arena s s') :
    (memArena s.mem arena).currentPosition = (memArena s'.mem arena).currentPosition ∧
      (memArena s.mem arena).capacity = (memArena s'.mem arena).capacity ∧
      (memArena s.mem arena).basePosition = (memArena s'.mem arena).basePosition := by
  have hword : ∀ d, d + 8 ≤ 8 ∨ 16 ≤ d ∧ d + 8 ≤ sizeofMemArena →
      s.mem.load64 (arena + d) = s'.mem.load64 (arena + d) := by
    intro d hd
    refine Memory.load64_eq_of_eqOn (h.eqOn.mono fun x hx => ?_)
    rw [Set.mem_Ico] at hx
    rw [Set.mem_sdiff, Set.mem_Ico, Set.mem_Ico]
    simp only [sizeofMemArena] at *
    omega
  simp only [memArena, sizeofMemArena] at *
  exact ⟨hword 0 (by omega), hword 16 (by omega), hword 24 (by omega)⟩

theorem SameHeader.memArena_eq (h : SameHeader arena s s') :
    memArena s.mem arena = memArena s'.mem arena := memArena_eq_of_eqOn h.eqOn

/-- The same current position on both sides keeps what agrees. -/
theorem SameButPrevious.setCurrent (h : SameButPrevious arena s s') (v : UInt64) :
    SameButPrevious arena (s.withMem (setCurrentPosition arena v s.mem))
      (s'.withMem (setCurrentPosition arena v s'.mem)) :=
  ⟨h.maps_eq, Memory.store_congr h.eqOn _ _⟩

theorem SameHeader.setCurrent (h : SameHeader arena s s') (v : UInt64) :
    SameHeader arena (s.withMem (setCurrentPosition arena v s.mem))
      (s'.withMem (setCurrentPosition arena v s'.mem)) :=
  ⟨h.maps_eq, Memory.store_congr h.eqOn _ _⟩

/-- An allocation on two arenas whose headers differ in the previous position at most: both are
refused and nothing changes, or both fault, or both return the same address, and then the headers
are the same. -/
theorem SameButPrevious.alloc (h : SameButPrevious arena s s') (size : UInt64) :
    (arenaAlloc arena size s = .ok (NULL, s) ∧ arenaAlloc arena size s' = .ok (NULL, s')) ∨
    (arenaAlloc arena size s = .error .fault ∧ arenaAlloc arena size s' = .error .fault) ∨
    ∃ out p p', arenaAlloc arena size s = .ok (out, p) ∧ arenaAlloc arena size s' = .ok (out, p') ∧
      (memArena s.mem arena).basePosition.toNat ≤ out ∧ SameHeader arena p p' := by
  obtain ⟨hcurrent, hcapacity, hbase⟩ := h.fields
  by_cases hne : arena = NULL
  · subst hne
    exact .inl ⟨arenaAlloc_null size s, arenaAlloc_null size s'⟩
  have hcases := arenaAlloc_cases hne size s
  have hcases' := arenaAlloc_cases hne size s'
  dsimp only at hcases hcases'
  rw [← hcurrent, ← hcapacity, ← hbase, ← Proc.mapped_congr h.maps_eq] at hcases'
  obtain ⟨hgt, h₁⟩ | ⟨hle, hmapped, h₁⟩ | ⟨hle, hmapped, h₁⟩ := hcases
  · obtain ⟨-, h₂⟩ | ⟨hle, -⟩ | ⟨hle, -⟩ := hcases'
    · exact .inl ⟨h₁, h₂⟩
    · exact absurd hle (UInt64.not_le.mpr hgt)
    · exact absurd hle (UInt64.not_le.mpr hgt)
  · obtain ⟨hgt, -⟩ | ⟨-, -, h₂⟩ | ⟨-, hmapped', -⟩ := hcases'
    · exact absurd hle (UInt64.not_le.mpr hgt)
    · exact .inr (.inl ⟨h₁, h₂⟩)
    · exact absurd hmapped' hmapped
  · obtain ⟨hgt, -⟩ | ⟨-, hmapped', -⟩ | ⟨-, -, h₂⟩ := hcases'
    · exact absurd hle (UInt64.not_le.mpr hgt)
    · exact absurd hmapped hmapped'
    · have hmaps : ∀ m m', (s.withMem m).maps = (s'.withMem m').maps := fun _ _ =>
        (Proc.maps_withMem _ _).trans (h.maps_eq.trans (Proc.maps_withMem _ _).symm)
      refine .inr (.inr ⟨_, s.withMem (allocMem arena size s.mem),
        s'.withMem (allocMem arena size s'.mem), h₁, ?_, Nat.le_add_right _ _, hmaps _ _, ?_⟩)
      · exact h₂
      -- both write the same previous position, and that was the difference
      rw [Proc.mem_withMem, Proc.mem_withMem, allocMem, allocMem, ← hcurrent, ← hbase]
      refine Memory.fill_congr (Memory.store_congr ?_ _ _) _ _
      refine (Memory.store_congr_union h.eqOn _ _).mono fun x hx => ?_
      rw [LittleEndian.length_encode]
      by_cases hprevious : x ∈ Memory.range (arena + 8) 8
      · exact .inr hprevious
      · exact .inl ⟨hx, hprevious⟩

/-- A request and its answer: a halt on both sides, or the same address and the same headers. -/
def SameResult (arena : ℕ) : Except Halt (ℕ × Proc) → Except Halt (ℕ × Proc) → Prop
  | .error e, .error e' => e = e'
  | .ok (out, p), .ok (out', p') => out = out' ∧ SameHeader arena p p'
  | _, _ => False

theorem SameHeader.alloc (h : SameHeader arena s s') (size : UInt64) :
    SameResult arena (arenaAlloc arena size s) (arenaAlloc arena size s') := by
  obtain ⟨h₁, h₂⟩ | ⟨h₁, h₂⟩ | ⟨out, p, p', h₁, h₂, -, hsame⟩ := h.butPrevious.alloc size
  · rw [h₁, h₂]
    exact ⟨rfl, h⟩
  · rw [h₁, h₂]
    exact rfl
  · rw [h₁, h₂]
    exact ⟨rfl, hsame⟩

/-- In a sane arena an address in range has the base address before it. -/
theorem Sane.base_eq_of_inRange (h : Sane arena s) {p : ℕ}
    (hrange : InRange (memArena s.mem arena) p) :
    (memArena s.mem arena).basePosition.toNat = arenaBase arena := by
  refine h.resolve_right fun hzero => ?_
  have hcapacity : (memArena s.mem arena).capacity.toNat = 0 := by
    have hload : s.mem.load (arena + 16) 8 = List.replicate 8 0 := by
      refine List.ext_getElem (by simp) fun i hi _ => ?_
      rw [Memory.getElem_load, List.getElem_replicate]
      rw [Memory.length_load] at hi
      exact hzero _ (by rw [Set.mem_Ico]; omega)
    rw [memArena, Memory.toNat_load64, hload, LittleEndian.value_replicate_zero]
  obtain ⟨hlo, hhi⟩ := hrange
  rw [show (memArena s.mem arena).capacity = 0 from UInt64.toNat_inj.mp hcapacity,
    UInt64.add_zero] at hhi
  omega

/-- A copy to a new block of a sane arena leaves the headers the same. -/
theorem SameHeader.copy {p p' : Proc} (h : SameHeader arena p p') {out : ℕ}
    (hout : arenaBase arena ≤ out) (bytes bytes' : List UInt8) :
    SameHeader arena (p.withMem (p.mem.store out bytes))
      (p'.withMem (p'.mem.store out bytes')) := by
  have haway : ∀ (m : Memory) (bs : List UInt8),
      Set.EqOn (m.store out bs).byte m.byte (Memory.range arena sizeofMemArena) := fun m bs =>
    (m.store_eqOn out bs).mono (Memory.range_subset_compl (.inl hout))
  exact ⟨h.maps_eq, ((haway p.mem bytes).trans h.eqOn).trans (haway p'.mem bytes').symm⟩

/-- A copy to a new block does the same on two sane arenas. -/
theorem SameButPrevious.copyOut (h : SameButPrevious arena s s')
    (hbase : (memArena s.mem arena).basePosition.toNat = arenaBase arena) (oldMemory : ℕ)
    (newSize oldSize : UInt64) :
    SameResult arena (copyOut arena oldMemory newSize oldSize s)
      (copyOut arena oldMemory newSize oldSize s') := by
  unfold AgentResources.copyOut
  obtain ⟨h₁, h₂⟩ | ⟨h₁, h₂⟩ | ⟨out, p, p', h₁, h₂, hle, hsame⟩ := h.alloc newSize
  · rw [h₁, h₂]
    exact rfl
  · rw [h₁, h₂]
    exact rfl
  rw [h₁, h₂, Except.ok_bind, Except.ok_bind]
  dsimp only
  by_cases hnull : out = NULL
  · rw [if_pos hnull, if_pos hnull]
    exact rfl
  rw [if_neg hnull, if_neg hnull, Proc.memMove, Proc.memMove]
  -- the mappings are the same, so both copies go through or neither does
  simp only [Proc.mapped_congr hsame.maps_eq]
  by_cases hmapped : p'.Mapped oldMemory (copySize newSize oldSize) ∧
      p'.Mapped out (copySize newSize oldSize)
  · rw [if_pos hmapped, if_pos hmapped]
    exact ⟨rfl, hsame.copy (hbase ▸ hle) _ _⟩
  · rw [if_neg hmapped, if_neg hmapped]
    exact rfl

/-- A resize of a block that, if it is in range, does not start at the previous position of either
arena. -/
theorem SameButPrevious.resize_other (h : SameButPrevious arena s s') (hsane : Sane arena s)
    {oldMemory : ℕ} {newSize oldSize alignment : UInt64} (hsize : oldSize ≠ 0)
    (hstart : InRange (memArena s.mem arena) oldMemory →
      (memArena s.mem arena).basePosition.toNat +
        (memArena s.mem arena).previousPosition.toNat ≠ oldMemory ∧
      (memArena s'.mem arena).basePosition.toNat +
        (memArena s'.mem arena).previousPosition.toNat ≠ oldMemory) :
    (arenaResizeAlign arena oldMemory newSize oldSize alignment s = .ok (NULL, s) ∧
      arenaResizeAlign arena oldMemory newSize oldSize alignment s' = .ok (NULL, s')) ∨
    SameResult arena (arenaResizeAlign arena oldMemory newSize oldSize alignment s)
      (arenaResizeAlign arena oldMemory newSize oldSize alignment s') := by
  obtain ⟨-, hcapacity, hbase⟩ := h.fields
  have hrange : InRange (memArena s'.mem arena) oldMemory ↔
      InRange (memArena s.mem arena) oldMemory := by
    rw [InRange, InRange, hcapacity, hbase]
  by_cases hnull : oldMemory = NULL
  · -- both allocate afresh
    rw [arenaResizeAlign, arenaResizeAlign, if_pos (.inl hnull), if_pos (.inl hnull)]
    obtain ⟨h₁, h₂⟩ | ⟨h₁, h₂⟩ | ⟨out, p, p', h₁, h₂, -, hsame⟩ := h.alloc newSize
    · exact .inl ⟨h₁, h₂⟩
    · rw [h₁, h₂]
      exact .inr rfl
    · rw [h₁, h₂]
      exact .inr ⟨rfl, hsame⟩
  have hguard : ¬ (oldMemory = NULL ∨ oldSize = 0) := fun h0 => h0.elim hnull hsize
  by_cases hin : InRange (memArena s.mem arena) oldMemory
  · -- both copy to a new block
    right
    obtain ⟨hne, hne'⟩ := hstart hin
    obtain ⟨h0, -⟩ | ⟨-, -, h0, -⟩ | ⟨-, -, -, h₁⟩ | ⟨-, h0, -⟩ :=
      arenaResizeAlign_cases arena oldMemory newSize oldSize alignment s
    · exact absurd h0 hguard
    · exact absurd h0 hne
    · obtain ⟨h0, -⟩ | ⟨-, -, h0, -⟩ | ⟨-, -, -, h₂⟩ | ⟨-, h0, -⟩ :=
        arenaResizeAlign_cases arena oldMemory newSize oldSize alignment s'
      · exact absurd h0 hguard
      · exact absurd h0 hne'
      · rw [h₁, h₂]
        exact h.copyOut (hsane.base_eq_of_inRange hin) oldMemory newSize oldSize
      · exact absurd (hrange.mpr hin) h0
    · exact absurd hin h0
  · left
    constructor
    · obtain ⟨h0, -⟩ | ⟨-, h0, -⟩ | ⟨-, h0, -⟩ | ⟨-, -, h₁⟩ :=
        arenaResizeAlign_cases arena oldMemory newSize oldSize alignment s
      · exact absurd h0 hguard
      · exact absurd h0 hin
      · exact absurd h0 hin
      · exact h₁
    · obtain ⟨h0, -⟩ | ⟨-, h0, -⟩ | ⟨-, h0, -⟩ | ⟨-, -, h₂⟩ :=
        arenaResizeAlign_cases arena oldMemory newSize oldSize alignment s'
      · exact absurd h0 hguard
      · exact absurd (hrange.mp h0) hin
      · exact absurd (hrange.mp h0) hin
      · exact h₂

/-- A resize in place writes the same to both headers. -/
theorem SameHeader.resizeMem (h : SameHeader arena s s') (newSize oldSize : UInt64) :
    SameHeader arena (s.withMem (resizeMem arena newSize oldSize s.mem))
      (s'.withMem (resizeMem arena newSize oldSize s'.mem)) := by
  refine ⟨h.maps_eq, ?_⟩
  rw [Proc.mem_withMem, Proc.mem_withMem, AgentResources.resizeMem, AgentResources.resizeMem,
    h.memArena_eq]
  by_cases hgrow : newSize > oldSize
  · rw [if_pos hgrow, if_pos hgrow]
    exact Memory.fill_congr (Memory.store_congr h.eqOn _ _) _ _
  · rw [if_neg hgrow, if_neg hgrow]
    exact Memory.store_congr h.eqOn _ _

/-- A resize on two arenas with the same header. -/
theorem SameHeader.resize (h : SameHeader arena s s') (hsane : Sane arena s)
    (oldMemory : ℕ) (newSize oldSize alignment : UInt64) :
    SameResult arena (arenaResizeAlign arena oldMemory newSize oldSize alignment s)
      (arenaResizeAlign arena oldMemory newSize oldSize alignment s') := by
  have hheader := h.memArena_eq
  have hcases' := arenaResizeAlign_cases arena oldMemory newSize oldSize alignment s'
  dsimp only at hcases'
  rw [← hheader, ← Proc.mapped_congr h.maps_eq] at hcases'
  obtain ⟨hnull, h₁⟩ | ⟨hsize, hin, hstart, h₁⟩ | ⟨hsize, hin, hstart, -⟩ | ⟨hsize, hout, h₁⟩ :=
    arenaResizeAlign_cases arena oldMemory newSize oldSize alignment s
  · rw [h₁, arenaResizeAlign, if_pos hnull]
    exact h.alloc newSize
  · by_cases hguard : oldMemory = NULL ∨ oldSize = 0
    · rw [arenaResizeAlign, arenaResizeAlign, if_pos hguard, if_pos hguard]
      exact h.alloc newSize
    obtain ⟨h0, -⟩ | ⟨-, -, -, h₂⟩ | ⟨-, -, h0, -⟩ | ⟨-, h0, -⟩ := hcases'
    · exact absurd h0 hguard
    · -- both are resized in place, or both faults
      obtain ⟨hmapped, h₁⟩ | ⟨hmapped, h₁⟩ := h₁
      · obtain ⟨-, h₂⟩ | ⟨h0, -⟩ := h₂
        · rw [h₁, h₂]
          exact ⟨rfl, h.resizeMem newSize oldSize⟩
        · exact absurd hmapped h0
      · obtain ⟨h0, -⟩ | ⟨-, h₂⟩ := h₂
        · exact absurd h0 hmapped
        · rw [h₁, h₂]
          exact rfl
    · exact absurd hstart h0
    · exact absurd hin h0
  · obtain ⟨h₁, h₂⟩ | hsame :=
      h.butPrevious.resize_other hsane hsize fun _ => ⟨hstart, hheader ▸ hstart⟩
    · rw [h₁, h₂]
      exact ⟨rfl, h⟩
    · exact hsame
  · obtain ⟨h₁, h₂⟩ | hsame :=
      h.butPrevious.resize_other hsane hsize fun hin => absurd hin hout
    · rw [h₁, h₂]
      exact ⟨rfl, h⟩
    · exact hsame

/-! ## Sanity is kept -/

theorem basePosition_eq_of_eqOn
    (heq : Set.EqOn s'.mem.byte s.mem.byte (Memory.range (arena + 24) 8)) :
    (memArena s'.mem arena).basePosition = (memArena s.mem arena).basePosition :=
  Memory.load64_eq_of_eqOn heq

/-- The base address and the capacity are what sanity is about. -/
theorem Sane.of_eqOn (h : Sane arena s)
    (heq : Set.EqOn s'.mem.byte s.mem.byte (Memory.range (arena + 16) 16)) : Sane arena s' := by
  rcases h with hintact | hzero
  · left
    rw [basePosition_eq_of_eqOn (heq.mono (Set.Ico_subset_Ico (by omega) (by omega)))]
    exact hintact
  · right
    intro x hx
    rw [Set.mem_Ico] at hx
    rw [heq (by rw [Set.mem_Ico]; omega)]
    exact hzero x (by rw [Set.mem_Ico]; omega)

theorem Sane.setCurrent (h : Sane arena s) (v : UInt64) :
    Sane arena (s.withMem (setCurrentPosition arena v s.mem)) := by
  refine h.of_eqOn ((setCurrentPosition_eqOn v).mono (Memory.range_subset_compl ?_))
  exact .inr le_rfl

/-- A fill keeps an arena sane, when it leaves an intact base address alone. -/
theorem Sane.fill (h : Sane arena s) {a n : ℕ}
    (haway : (memArena s.mem arena).basePosition.toNat = arenaBase arena →
      arena + sizeofMemArena ≤ a ∨ a + n ≤ arena + 24) :
    Sane arena (s.withMem (s.mem.fill a n)) := by
  by_cases hintact : (memArena s.mem arena).basePosition.toNat = arenaBase arena
  · left
    rw [basePosition_eq_of_eqOn ((s.mem.fill_eqOn a n).mono (Memory.range_subset_compl ?_))]
    · exact hintact
    · exact (haway hintact).imp_left fun hle => (Nat.add_assoc arena 24 8).trans_le hle
  · right
    intro x hx
    rw [Proc.mem_withMem, Memory.fill]
    dsimp only
    split
    · rfl
    · exact h.resolve_left hintact x hx

/-- An allocation that returns keeps an arena sane, and its block is behind the base address. -/
theorem Sane.alloc (h : Sane arena s) {size : UInt64} {out : ℕ} {p : Proc}
    (halloc : arenaAlloc arena size s = .ok (out, p)) :
    Sane arena p ∧ (out ≠ NULL → (memArena s.mem arena).basePosition.toNat ≤ out) := by
  by_cases hne : arena = NULL
  · subst hne
    rw [arenaAlloc_null] at halloc
    obtain ⟨rfl, rfl⟩ := Prod.mk.inj (Except.ok.inj halloc)
    exact ⟨h, fun h0 => absurd rfl h0⟩
  obtain ⟨-, hcase⟩ | ⟨-, -, hcase⟩ | ⟨-, -, hcase⟩ := arenaAlloc_cases hne size s
  · rw [hcase] at halloc
    obtain ⟨rfl, rfl⟩ := Prod.mk.inj (Except.ok.inj halloc)
    exact ⟨h, fun h0 => absurd rfl h0⟩
  · rw [hcase] at halloc
    cases halloc
  · rw [hcase, Except.ok.injEq, Prod.mk.injEq] at halloc
    rw [← halloc.1, ← halloc.2]
    refine ⟨?_, fun _ => Nat.le_add_right _ _⟩
    have hset : Sane arena (s.withMem (setCurrentPosition arena
        ((memArena s.mem arena).currentPosition + size)
        (setPreviousPosition arena (memArena s.mem arena).currentPosition s.mem))) :=
      h.of_eqOn ((setPositions_eqOn _ _).mono (Memory.range_subset_compl (.inr le_rfl)))
    rw [allocMem]
    refine hset.fill fun hintact => .inl ?_
    -- the block begins at the base address or after it
    rw [Proc.mem_withMem, memArena_setCurrentPosition, memArena_setPreviousPosition] at hintact
    dsimp only at hintact
    rw [hintact]
    exact Nat.le_add_right (arenaBase arena) _

/-- A growth in place keeps an arena sane: a clear that reaches the base address has cleared the
whole capacity before. -/
theorem Sane.resizeMem (h : Sane arena s) (newSize oldSize : UInt64) :
    Sane arena (s.withMem (resizeMem arena newSize oldSize s.mem)) := by
  have hset := h.setCurrent ((memArena s.mem arena).previousPosition + newSize)
  rw [AgentResources.resizeMem]
  split
  · by_cases hshort : (newSize - oldSize).toNat ≤ 24
    · exact hset.fill fun _ => .inr (by omega)
    · right
      intro x hx
      rw [Set.mem_Ico] at hx
      exact Memory.byte_fill_of_mem (by rw [Set.mem_Ico]; omega)
  · exact hset

/-- A resize that returns keeps an arena sane. -/
theorem Sane.resize (h : Sane arena s) {oldMemory : ℕ} {newSize oldSize alignment : UInt64}
    {out : ℕ} {p : Proc}
    (hresize : arenaResizeAlign arena oldMemory newSize oldSize alignment s = .ok (out, p)) :
    Sane arena p := by
  obtain ⟨-, h₁⟩ | ⟨-, -, -, ⟨-, h₁⟩ | ⟨-, h₁⟩⟩ | ⟨-, hin, -, h₁⟩ | ⟨-, -, h₁⟩ :=
    arenaResizeAlign_cases arena oldMemory newSize oldSize alignment s
  · exact (h.alloc (h₁.symm.trans hresize)).1
  · rw [h₁, Except.ok.injEq, Prod.mk.injEq] at hresize
    rw [← hresize.2]
    exact h.resizeMem newSize oldSize
  · rw [h₁] at hresize
    cases hresize
  · -- the copy goes after the header
    have hbase := h.base_eq_of_inRange hin
    rw [h₁, copyOut] at hresize
    obtain ⟨⟨out', p'⟩, halloc, hresize⟩ := Except.bind_eq_ok.mp hresize
    obtain ⟨hsane, hle⟩ := h.alloc halloc
    dsimp only at hresize
    split at hresize
    · cases hresize
    · next hne =>
      obtain ⟨p'', hmove, hresize⟩ := Except.bind_eq_ok.mp hresize
      rw [Proc.memMove] at hmove
      split at hmove
      · cases hmove
        cases hresize
        refine hsane.of_eqOn ?_
        rw [Proc.mem_withMem]
        refine (Memory.store_eqOn _ _ _).mono (Memory.range_subset_compl (.inl ?_))
        have hout := hle hne
        rw [hbase, arenaBase, sizeofMemArena] at hout
        exact (Nat.add_assoc arena 16 16).trans_le hout
      · cases hmove
  · rw [h₁, Except.ok.injEq, Prod.mk.injEq] at hresize
    rw [← hresize.2]
    exact h

/-! ## Requests after a scope -/

/-- What a request returns. -/
def answer (arena : ℕ) (r : ArenaRun) : ResizeOp → Except Halt ℕ
  | .basic op => r.result arena op
  | .resize i newSize =>
    match r.live[i]? with
    | none => .ok NULL
    | some b => (arenaResize arena b.1 newSize (UInt64.ofNat (b.2 - b.1)) r.proc).map Prod.fst
  | .resizeAlign i newSize alignment =>
    match r.live[i]? with
    | none => .ok NULL
    | some b =>
      (arenaResizeAlign arena b.1 newSize (UInt64.ofNat (b.2 - b.1)) alignment r.proc).map Prod.fst

/-- A request that may follow a scope: an allocation, a pop, or a resize of a block that was among
`before`, in place or to no more than its size. -/
def Later (arena : ℕ) (before : List (ℕ × ℕ)) (r : ArenaRun) : ResizeOp → Prop
  | .basic (.alloc _) | .basic (.pop _) | .basic (.popTo _) => True
  | .resize i newSize => ∀ b, r.live[i]? = some b →
    (∃ c ∈ before, c.1 = b.1) ∧ (newSize.toNat ≤ b.2 - b.1 ∨ r.IsLast arena b)
  | _ => False

/-- Where the latest allocation started. -/
def latestStart (arena : ℕ) (s : Proc) : ℕ :=
  (memArena s.mem arena).basePosition.toNat + (memArena s.mem arena).previousPosition.toNat

/-- The headers are the same, or differ in a previous position at which none of the blocks starts
that may be resized. -/
def Alike (arena : ℕ) (live : List (ℕ × ℕ)) (s s' : Proc) : Prop :=
  SameHeader arena s s' ∨ SameButPrevious arena s s' ∧
    ∀ b ∈ live, b.1 < b.2 → InRange (memArena s.mem arena) b.1 →
      latestStart arena s ≠ b.1 ∧ latestStart arena s' ≠ b.1

/-- Two runs that cannot be told apart. -/
structure Related (arena : ℕ) (r r' : ArenaRun) : Prop where
  live_eq : r'.live = r.live
  sane : Sane arena r.proc
  alike : Alike arena r.live r.proc r'.proc

theorem Alike.butPrevious {live : List (ℕ × ℕ)} (h : Alike arena live s s') :
    SameButPrevious arena s s' := by
  rcases h with hsame | ⟨hbut, -⟩
  · exact hsame.butPrevious
  · exact hbut

/-- Runs whose processes are alike are related after blocks were dropped. -/
theorem Related.settle {p p' : Proc} {live : List (ℕ × ℕ)} (hsane : Sane arena p)
    (h : Alike arena live p p') :
    Related arena (r.settle arena p live) (r'.settle arena p' live) := by
  have hposition : position arena p' = position arena p := by
    rw [position, position, h.butPrevious.fields.1]
  refine ⟨?_, hsane, ?_⟩
  · rw [live_settle, live_settle, hposition]
  · rw [live_settle, proc_settle, proc_settle]
    rcases h with hsame | ⟨hbut, hstart⟩
    · exact .inl hsame
    · exact .inr ⟨hbut, fun b hb => hstart b (List.mem_of_mem_filter hb)⟩

namespace Related

/-- A resize that gives the same result. -/
theorem resized (h : Related arena r r') (i : ℕ) (newSize : UInt64)
    {x x' : Except Halt (ℕ × Proc)} (hx : SameResult arena x x')
    (hsane : ∀ out p, x = .ok (out, p) → Sane arena p) :
    x.map Prod.fst = x'.map Prod.fst ∧
      Related arena (r.resized arena i newSize x) (r'.resized arena i newSize x') := by
  match x, x', hx with
  | .error e, .error _, hx =>
    obtain rfl := hx
    exact ⟨rfl, h⟩
  | .ok (out, p), .ok (_, p'), hx =>
    obtain ⟨rfl, hsame⟩ := hx
    refine ⟨rfl, ?_⟩
    rw [ArenaRun.resized, ArenaRun.resized, h.live_eq]
    exact .settle (hsane out p rfl) (.inl hsame)

/-- An allocation: its answer, and the runs after it, whichever blocks it adds or replaces. -/
theorem alloc (h : Related arena r r') (size : UInt64) :
    (arenaAlloc arena size r.proc).map Prod.fst = (arenaAlloc arena size r'.proc).map Prod.fst ∧
      (∀ n, Related arena (r.grant arena n (arenaAlloc arena size r.proc))
        (r'.grant arena n (arenaAlloc arena size r'.proc))) ∧
      ∀ i n, Related arena (r.resized arena i n (arenaAlloc arena size r.proc))
        (r'.resized arena i n (arenaAlloc arena size r'.proc)) := by
  have hsane : ∀ out p, arenaAlloc arena size r.proc = .ok (out, p) → Sane arena p :=
    fun out p halloc => (h.sane.alloc halloc).1
  obtain ⟨h₁, h₂⟩ | ⟨h₁, h₂⟩ | ⟨out, p, p', h₁, h₂, -, hsame⟩ := h.alike.butPrevious.alloc size
  · rw [h₁, h₂]
    refine ⟨rfl, fun n => ?_, fun i n => ?_⟩
    · rw [ArenaRun.grant, ArenaRun.grant, if_pos rfl, if_pos rfl, h.live_eq]
      exact .settle h.sane h.alike
    · rw [ArenaRun.resized, ArenaRun.resized, if_pos rfl, if_pos rfl, h.live_eq]
      exact .settle h.sane h.alike
  · rw [h₁, h₂]
    exact ⟨rfl, fun _ => h, fun _ _ => h⟩
  · have hp := hsane out p h₁
    rw [h₁, h₂]
    refine ⟨rfl, fun n => ?_, fun i n => ?_⟩
    · rw [ArenaRun.grant, ArenaRun.grant, h.live_eq]
      exact .settle hp (.inl hsame)
    · rw [ArenaRun.resized, ArenaRun.resized, h.live_eq]
      exact .settle hp (.inl hsame)

/-- A move of the current position. -/
theorem setCurrent (h : Related arena r r') (v : UInt64) :
    Related arena
      (r.settle arena (r.proc.withMem (setCurrentPosition arena v r.proc.mem)) r.live)
      (r'.settle arena (r'.proc.withMem (setCurrentPosition arena v r'.proc.mem)) r'.live) := by
  rw [h.live_eq]
  refine .settle (h.sane.setCurrent v) ?_
  rcases h.alike with hsame | ⟨hbut, hstart⟩
  · exact .inl (hsame.setCurrent v)
  · refine .inr ⟨hbut.setCurrent v, ?_⟩
    simpa only [latestStart, InRange, Proc.mem_withMem, memArena_setCurrentPosition] using hstart

/-- A resize of a live block. -/
theorem resizeAlign (h : Related arena r r') {i : ℕ} {b : ℕ × ℕ} (hi : r.live[i]? = some b)
    (newSize alignment : UInt64) :
    let x := arenaResizeAlign arena b.1 newSize (UInt64.ofNat (b.2 - b.1)) alignment r.proc
    let x' := arenaResizeAlign arena b.1 newSize (UInt64.ofNat (b.2 - b.1)) alignment r'.proc
    x.map Prod.fst = x'.map Prod.fst ∧
      Related arena (r.resized arena i newSize x) (r'.resized arena i newSize x') := by
  intro x x'
  have hsane : ∀ out p, x = .ok (out, p) → Sane arena p := fun out p hx => h.sane.resize hx
  rcases h.alike with hsame | ⟨hbut, hstart⟩
  · exact h.resized i newSize (hsame.resize h.sane _ _ _ _) hsane
  by_cases hsize : UInt64.ofNat (b.2 - b.1) = 0
  · -- an empty block is allocated afresh
    have hx : x = arenaAlloc arena newSize r.proc := if_pos (.inr hsize)
    have hx' : x' = arenaAlloc arena newSize r'.proc := if_pos (.inr hsize)
    obtain ⟨hanswer, -, hnext⟩ := h.alloc newSize
    rw [hx, hx']
    exact ⟨hanswer, hnext i newSize⟩
  · have hlt : b.1 < b.2 := by
      by_contra hle
      rw [Nat.sub_eq_zero_of_le (Nat.not_lt.mp hle)] at hsize
      exact hsize rfl
    obtain ⟨hx, hx'⟩ | hresult :=
      hbut.resize_other h.sane hsize (hstart b (List.mem_of_getElem? hi) hlt)
    · rw [show x = _ from hx, show x' = _ from hx']
      refine ⟨rfl, ?_⟩
      rw [ArenaRun.resized, ArenaRun.resized, if_pos rfl, if_pos rfl, h.live_eq]
      exact .settle h.sane h.alike
    · exact h.resized i newSize hresult hsane

/-- Related runs answer alike and stay related. -/
theorem step (h : Related arena r r') {before : List (ℕ × ℕ)} {op : ResizeOp}
    (hop : Later arena before r op) :
    r.answer arena op = r'.answer arena op ∧
      Related arena (r.resizeStep arena op) (r'.resizeStep arena op) := by
  have hcurrent := h.alike.butPrevious.fields.1
  have hpop : ∀ size, Related arena (r.settle arena (arenaPop arena size r.proc) r.live)
      (r'.settle arena (arenaPop arena size r'.proc) r'.live) := by
    intro size
    rw [arenaPop, arenaPop, ← hcurrent]
    exact h.setCurrent _
  cases op with
  | basic op =>
    cases op with
    | alloc size =>
      obtain ⟨hanswer, hnext, -⟩ := h.alloc size
      exact ⟨hanswer, hnext size.toNat⟩
    | pop size => exact ⟨rfl, hpop size⟩
    | popTo pos =>
      refine ⟨rfl, ?_⟩
      rw [resizeStep, resizeStep, ArenaRun.step, ArenaRun.step, arenaPopTo, arenaPopTo,
        ← hcurrent]
      exact hpop _
    | _ => exact hop.elim
  | resize i newSize =>
    rw [answer, answer, resizeStep, resizeStep, h.live_eq]
    cases hi : r.live[i]? with
    | none => exact ⟨rfl, h⟩
    | some b => exact h.resizeAlign hi newSize ARENA_ALIGN
  | resizeAlign _ _ _ => exact hop.elim

end Related

/-! ## When a scope can be noticed -/

/-- A scope returns, and the requests after it are answered as if it had never run. -/
def ScopeInvisible (arena : ℕ) (r : ArenaRun) (body : ScopeBody) : Prop :=
  ∃ s', runScope arena body r.proc = .ok s' ∧
    ∀ ops, Run.Along (resizeStep arena) (Later arena r.live) r ops →
      Run.answers (resizeStep arena) (answer arena) { r with proc := s' } ops =
        Run.answers (resizeStep arena) (answer arena) r ops

/-- No allocation of the body faults, and the body takes the previous position back to where it was,
or no live block that has bytes starts at either of the two. Where the end of the arena wraps, the
previous position makes no difference. -/
def ScopeSpares (arena : ℕ) (capacity : UInt64) (r : ArenaRun) (body : ScopeBody) : Prop :=
  let before := previous arena r.proc
  ∃ after, body.marks arena capacity.toNat r.proc (position arena r.proc, before) = some after ∧
    (after.2 = before ∨ (capacity.toNat + sizeofMemArena < 2 ^ 64 → ∀ b ∈ r.live, b.1 < b.2 →
      b.1 ≠ arenaBase arena + before ∧ b.1 ≠ arenaBase arena + after.2))

/-- Headers with the same fields but for the previous position. -/
theorem sameButPrevious_of_fields (hmaps : s.maps = s'.maps)
    (hcurrent : (memArena s.mem arena).currentPosition = (memArena s'.mem arena).currentPosition)
    (hcapacity : (memArena s.mem arena).capacity = (memArena s'.mem arena).capacity)
    (hbase : (memArena s.mem arena).basePosition = (memArena s'.mem arena).basePosition) :
    SameButPrevious arena s s' := by
  refine ⟨hmaps, fun x hx => ?_⟩
  rw [Set.mem_sdiff, Set.mem_Ico, Set.mem_Ico, sizeofMemArena] at hx
  obtain hlow | hmiddle | hhigh : x < arena + 8 ∨ (arena + 16 ≤ x ∧ x < arena + 24) ∨
      arena + 24 ≤ x := by omega
  · exact Memory.eqOn_of_load64_eq hcurrent (by rw [Set.mem_Ico]; omega)
  · exact Memory.eqOn_of_load64_eq hcapacity (by rw [Set.mem_Ico]; omega)
  · exact Memory.eqOn_of_load64_eq hbase (by rw [Set.mem_Ico]; omega)

theorem SameButPrevious.sameHeader (h : SameButPrevious arena s s')
    (hprevious : (memArena s.mem arena).previousPosition =
      (memArena s'.mem arena).previousPosition) : SameHeader arena s s' := by
  refine ⟨h.maps_eq, fun x hx => ?_⟩
  by_cases hmem : x ∈ Memory.range (arena + 8) 8
  · exact Memory.eqOn_of_load64_eq hprevious hmem
  · exact h.eqOn ⟨hx, hmem⟩

/-- A scope leaves the header as it was, but for the previous position. -/
theorem ScopeDone.sameButPrevious {body : ScopeBody} (h : ScopeDone arena capacity body s s')
    (ha : ArenaAt arena capacity s) : SameButPrevious arena s s' := by
  refine sameButPrevious_of_fields h.maps_eq.symm ?_ ?_ ?_
  · exact UInt64.toNat_inj.mp h.position_eq.symm
  · rw [ha.capacity_eq, h.arenaAt.capacity_eq]
  · exact UInt64.toNat_inj.mp (ha.base_eq.trans h.arenaAt.base_eq.symm)

/-- A scope that spares the previous position cannot be noticed. -/
theorem HeaderInv.scopeInvisible (hr : HeaderInv arena capacity r) {body : ScopeBody}
    (hspares : ScopeSpares arena capacity r body) : ScopeInvisible arena r body := by
  obtain ⟨after, hmarks, hspares⟩ := hspares
  obtain ⟨s', hrun, hdone⟩ | ⟨-, hnone⟩ := runScope_cases body hr.arenaAt
  swap
  · rw [hnone] at hmarks
    cases hmarks
  refine ⟨s', hrun, fun ops hops => ?_⟩
  have hprevious : after.2 = previous arena s' := by
    have hmarks' := hdone.marks_eq
    rw [hmarks, Option.map_some, Option.some.injEq] at hmarks'
    exact hmarks'
  have hbut := hdone.sameButPrevious hr.arenaAt
  have hrelated : Related arena r { r with proc := s' } := by
    refine ⟨rfl, .inl hr.arenaAt.base_eq, ?_⟩
    rw [hprevious] at hspares
    rcases hspares with hsame | hstart
    · exact .inl (hbut.sameHeader (UInt64.toNat_inj.mp hsame.symm))
    · refine .inr ⟨hbut, fun b hb hlt hin => ?_⟩
      obtain ⟨hbefore, hafter⟩ := hstart ((hr.inRange_iff hb hlt).mp hin) b hb hlt
      rw [latestStart, latestStart, hr.arenaAt.base_eq, hdone.arenaAt.base_eq]
      exact ⟨hbefore.symm, hafter.symm⟩
  refine (Run.answers_eq_of_related (Related arena) ?_ ?_ hrelated hops).symm
  · exact fun _ _ _ h hop => (h.step hop).1
  · exact fun _ _ _ h hop => (h.step hop).2

/-- The answer to giving up the bytes of a live block tells whether it is the latest. -/
theorem HeaderInv.answer_shrink (hr : HeaderInv arena capacity r)
    (hcap : capacity.toNat + sizeofMemArena < 2 ^ 64) {i : ℕ} {b : ℕ × ℕ}
    (hi : r.live[i]? = some b) (hlt : b.1 < b.2) :
    (r.IsLast arena b → r.answer arena (.resize i 0) = .ok b.1) ∧
      (¬ r.IsLast arena b → r.answer arena (.resize i 0) = .ok NULL) := by
  have hb := List.mem_of_getElem? hi
  simp only [answer, hi, arenaResize]
  obtain ⟨hwrap, -⟩ | ⟨-, hlast, ⟨-, h⟩ | ⟨hmapped, -⟩⟩ | ⟨-, hother, h⟩ :=
    hr.arenaResizeAlign_cases hb 0 ARENA_ALIGN hlt
  · omega
  · rw [h]
    exact ⟨fun _ => rfl, fun hother => absurd hlast hother⟩
  · -- nothing is cleared
    rw [UInt64.toNat_zero, Nat.zero_sub] at hmapped
    exact absurd (r.proc.mapped_zero arena) hmapped
  · -- there is always room for nothing
    obtain ⟨hzero, -⟩ | ⟨-, hcopy⟩ :=
      hr.arenaAt.copyOut_cases b.1 0 (UInt64.ofNat (b.2 - b.1))
    · exact absurd UInt64.toNat_zero hzero
    · rw [h, hcopy]
      exact ⟨fun hlast => absurd hlast hother, fun _ => rfl⟩

/-- A scope that faults, or that moves the previous position onto a live block or away from one, is
noticed. -/
theorem HeaderInv.scopeSpares (hr : HeaderInv arena capacity r) {body : ScopeBody}
    (hinvisible : ScopeInvisible arena r body) : ScopeSpares arena capacity r body := by
  obtain ⟨s', hrun, hinvisible⟩ := hinvisible
  obtain ⟨s'', hrun', hdone⟩ | ⟨hfault, -⟩ := runScope_cases body hr.arenaAt
  swap
  · rw [hfault] at hrun
    cases hrun
  obtain rfl : s'' = s' := Except.ok.inj (hrun'.symm.trans hrun)
  obtain ⟨after, hmarks, hafter⟩ := Option.map_eq_some_iff.mp hdone.marks_eq
  refine ⟨after, hmarks, ?_⟩
  rw [hafter]
  have hr' : HeaderInv arena capacity { r with proc := s'' } :=
    ⟨hdone.arenaAt, hr.temps, hr.base_le, by rw [hdone.position_eq]; exact hr.live_le⟩
  by_cases hsame : previous arena s'' = previous arena r.proc
  · exact .inl hsame
  refine .inr fun hcap b hb hlt => ?_
  obtain ⟨i, hi⟩ := List.mem_iff_getElem?.mp hb
  have hnull : b.1 ≠ NULL := hr.ne_null_of_mem hb
  -- a resize to nothing answers the block iff it is the latest, so it tells the two apart
  have hanswers := hinvisible [.resize i 0] ⟨fun c hc => ?_, trivial⟩
  · have hanswer : answer arena { r with proc := s'' } (.resize i 0) =
        answer arena r (.resize i 0) := List.head_eq_of_cons_eq hanswers
    constructor
    · -- the latest block before the scope
      intro hstart
      rw [(hr.answer_shrink hcap hi hlt).1 ⟨hlt, hstart.symm⟩,
        (hr'.answer_shrink hcap hi hlt).2 fun h => hsame (by
          have := h.2
          dsimp only at this
          omega), Except.ok.injEq] at hanswer
      exact hnull hanswer.symm
    · -- the latest block after it
      intro hstart
      rw [(hr'.answer_shrink hcap hi hlt).1 ⟨hlt, hstart.symm⟩,
        (hr.answer_shrink hcap hi hlt).2 fun h => hsame (by
          have := h.2
          omega), Except.ok.injEq] at hanswer
      exact hnull hanswer
  · rw [hi, Option.some.injEq] at hc
    subst hc
    exact ⟨⟨b, hb, rfl⟩, .inl (Nat.zero_le _)⟩

end ArenaRun

open ArenaRun in
/-- In every intact arena, a temporary scope is invisible to the requests after it iff it does not
fault and leaves the previous position where it was, or moves it neither away from a live block nor
onto one. -/
theorem tempScope_invisible_iff (arena : ℕ) (capacity : UInt64) (r : ArenaRun) (body : ScopeBody)
    (hr : HeaderInv arena capacity r) :
    ScopeInvisible arena r body ↔ ScopeSpares arena capacity r body :=
  ⟨fun h => hr.scopeSpares h, fun h => hr.scopeInvisible h⟩

open ArenaRun in
theorem tempScope_invisible_iff_nested :
    ScopeInvisible (arenaCreate Kernel.above 64 Proc.fresh).1
        ((start Kernel.above 64 Proc.fresh).step (arenaCreate Kernel.above 64 Proc.fresh).1
          (.alloc 8))
        (.scope (.alloc 16 .nil) .nil) ↔
      ScopeSpares (arenaCreate Kernel.above 64 Proc.fresh).1 64
        ((start Kernel.above 64 Proc.fresh).step (arenaCreate Kernel.above 64 Proc.fresh).1
          (.alloc 8))
        (.scope (.alloc 16 .nil) .nil) := by
  have hcreate : (arenaCreate Kernel.above 64 Proc.fresh).1 ≠ NULL := by decide +kernel
  exact tempScope_invisible_iff _ 64 _ _ ((inv_start hcreate).toHeaderInv.step (.alloc 8))

open ArenaRun in
/-- A block of 8 bytes shrinks in place before a scope, and not after one that allocates. -/
theorem not_tempScope_invisible :
    ¬ ∀ (arena : ℕ) (capacity : UInt64) (r : ArenaRun) (body : ScopeBody),
      HeaderInv arena capacity r → ScopeInvisible arena r body := by
  intro hall
  have hcreate : (arenaCreate Kernel.above 64 Proc.fresh).1 ≠ NULL := by decide +kernel
  have hr := (inv_start hcreate).toHeaderInv.step (.alloc 8)
  obtain ⟨after, hmarks, hspares⟩ := hr.scopeSpares (hall _ 64 _ (.alloc 16 .nil) hr)
  have hafter : ScopeBody.marks (arenaCreate Kernel.above 64 Proc.fresh).1 (64 : UInt64).toNat
      ((start Kernel.above 64 Proc.fresh).step (arenaCreate Kernel.above 64 Proc.fresh).1
        (.alloc 8)).proc (.alloc 16 .nil) (8, 0) = some (24, 8) := by decide +kernel
  obtain rfl : after = (24, 8) := by
    refine Option.some.inj (hmarks.symm.trans ?_)
    rw [← hafter]
    decide +kernel
  rcases hspares with hsame | hstart
  · exact absurd hsame (by decide +kernel)
  · refine absurd (hstart (by decide) (4128, 4136) ?_ (by decide)).1 (by decide +kernel)
    exact List.mem_of_getElem? (i := 0) (by decide +kernel)

end AgentResources
