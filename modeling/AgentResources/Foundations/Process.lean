import AgentResources.Foundations.Except
import AgentResources.Foundations.Memory

/-!
# A process and its kernel

The state of a process as far as memory goes: its bytes and its mappings. The kernel decides
where a mapping goes and may refuse it; what it promises when it grants one is part of the
`Kernel` structure, so every statement about an arbitrary kernel already has that promise.

A call ends in one of two ways: it returns, or the process halts (`Halt`): an assertion fails, the
code does something the language gives no meaning to, an access leaves every mapping, or a loop
never ends.
-/

/-- The null pointer. -/
def NULL : ℕ := 0

/-- The size of a page of memory. -/
def pageSize : ℕ := 4096

/-- A length rounded up to whole pages. -/
def pageRound (len : ℕ) : ℕ := (len + (pageSize - 1)) / pageSize * pageSize

theorem le_pageRound (len : ℕ) : len ≤ pageRound len := by
  simp only [pageRound, pageSize]
  omega

/-- A mapped range of addresses, from `lo` up to but not including `hi`. -/
structure Mapping where
  /-- The first mapped address. -/
  lo : ℕ
  /-- The first address after the mapping. -/
  hi : ℕ
  deriving DecidableEq, Repr

/-- What is left of a mapping when the addresses from `lo` to `hi` are unmapped. -/
def Mapping.minus (r : Mapping) (lo hi : ℕ) : List Mapping :=
  (if r.lo < min r.hi lo then [⟨r.lo, min r.hi lo⟩] else []) ++
    (if max r.lo hi < r.hi then [⟨max r.lo hi, r.hi⟩] else [])

/-- Unmapping a whole mapping leaves nothing of it. -/
theorem Mapping.minus_self {r : Mapping} (h : r.lo ≤ r.hi) : r.minus r.lo r.hi = [] := by
  have h1 : ¬ r.lo < min r.hi r.lo := by omega
  have h2 : ¬ max r.lo r.hi < r.hi := by omega
  simp [minus, h1, h2]

/-- Unmapping addresses away from a mapping leaves it as it is. -/
theorem Mapping.minus_of_disjoint {r : Mapping} {lo hi : ℕ} (hr : r.lo < r.hi)
    (hlh : lo ≤ hi) (h : r.hi ≤ lo ∨ hi ≤ r.lo) : r.minus lo hi = [r] := by
  rcases h with h | h
  · have hright : ¬ max r.lo hi < r.hi := by omega
    simp [minus, hr, hright, min_eq_left h]
  · have hleft : ¬ r.lo < min r.hi lo := by omega
    simp [minus, hr, hleft, max_eq_left h]

/-- How the kernel answers requests for anonymous memory. -/
structure Kernel where
  /-- The address granted for a request of `len` bytes, given the present mappings. -/
  mmap : List Mapping → ℕ → Option ℕ
  /-- A granted request is for at least one byte; whole pages are mapped, away from the null
  page, from the last page, whose addresses are error codes, and from every present mapping. -/
  mmap_spec {maps : List Mapping} {len : ℕ} {a : ℕ} (h : mmap maps len = some a) :
    0 < len ∧ 0 < a ∧ pageSize ∣ a ∧ a + pageRound len + pageSize ≤ 2 ^ 64 ∧
      ∀ r ∈ maps, r.hi ≤ a ∨ a + pageRound len ≤ r.lo

/-- The end of the topmost mapping, or `a` when that is higher. -/
def topOf (maps : List Mapping) (a : ℕ) : ℕ := maps.foldr (fun r top => max r.hi top) a

theorem le_topOf (maps : List Mapping) (a : ℕ) :
    a ≤ topOf maps a ∧ ∀ r ∈ maps, r.hi ≤ topOf maps a := by
  induction maps with
  | nil => simp [topOf]
  | cons r maps ih =>
    refine ⟨ih.1.trans (le_max_right _ _), fun r' hr' => ?_⟩
    rcases List.mem_cons.mp hr' with rfl | hr'
    · exact le_max_left _ _
    · exact (ih.2 r' hr').trans (le_max_right _ _)

/-- The kernel that grants the first page above every present mapping. -/
def Kernel.above : Kernel where
  mmap maps len :=
    let a := pageRound (topOf maps pageSize)
    if 0 < len ∧ a + pageRound len + pageSize ≤ 2 ^ 64 then some a else none
  mmap_spec {maps len a} h := by
    dsimp only at h
    split at h
    · next hfit =>
      obtain rfl := Option.some.inj h
      have hpage : 0 < pageSize := by decide
      have htop := le_topOf maps pageSize
      refine ⟨hfit.1, ?_, ⟨_, Nat.mul_comm _ _⟩, hfit.2, fun r hr => .inl ?_⟩
      · exact hpage.trans_le (htop.1.trans (le_pageRound _))
      · exact (htop.2 r hr).trans (le_pageRound _)
    · simp at h

/-- The memory of a process. -/
structure Proc where
  /-- The bytes. -/
  mem : Memory
  /-- The mappings, newest first. -/
  maps : List Mapping

namespace Proc

/-- A process with zeroed memory and no mappings. -/
def fresh : Proc where
  mem := ⟨fun _ => 0⟩
  maps := []

/-- Ask the kernel for `len` bytes of zeroed anonymous memory. -/
def mmap (k : Kernel) (len : ℕ) (s : Proc) : Option ℕ × Proc :=
  match k.mmap s.maps len with
  | none => (none, s)
  | some a =>
    (some a,
      { mem := s.mem.fill a (pageRound len), maps := ⟨a, a + pageRound len⟩ :: s.maps })

/-- Give back the pages of the `len` bytes at `a`. -/
def munmap (a : ℕ) (len : ℕ) (s : Proc) : Proc :=
  { s with maps := s.maps.flatMap (·.minus a (a + pageRound len)) }

/-- Change the bytes only. -/
def withMem (s : Proc) (m : Memory) : Proc := { s with mem := m }

@[simp] theorem mem_withMem (s : Proc) (m : Memory) : (s.withMem m).mem = m := rfl

@[simp] theorem maps_withMem (s : Proc) (m : Memory) : (s.withMem m).maps = s.maps := rfl

@[simp] theorem withMem_withMem (s : Proc) (m m' : Memory) :
    (s.withMem m).withMem m' = s.withMem m' := rfl

/-- Every mapping is a nonempty range. -/
def WellMapped (s : Proc) : Prop := ∀ r ∈ s.maps, r.lo < r.hi

/-- Unmapping the newest mapping restores the mappings from before it was made. -/
theorem maps_munmap_cons {k : Kernel} {len : ℕ} {a : ℕ} {maps : List Mapping} {m : Memory}
    (hmaps : ∀ r ∈ maps, r.lo < r.hi) (hgrant : k.mmap maps len = some a) :
    (Proc.munmap a len ⟨m, ⟨a, a + pageRound len⟩ :: maps⟩).maps = maps := by
  obtain ⟨-, -, -, -, hfresh⟩ := k.mmap_spec hgrant
  have hself : Mapping.minus ⟨a, a + pageRound len⟩ a (a + pageRound len) = [] :=
    Mapping.minus_self (r := ⟨a, a + pageRound len⟩) (Nat.le_add_right _ _)
  have hrest : maps.flatMap (·.minus a (a + pageRound len)) = maps := by
    have hsingle : maps.flatMap (·.minus a (a + pageRound len)) = maps.flatMap ([·]) :=
      List.flatMap_congr fun r hr =>
        Mapping.minus_of_disjoint (hmaps r hr) (Nat.le_add_right _ _) (hfresh r hr)
    rw [hsingle, List.flatMap_singleton']
  simp only [munmap, List.flatMap_cons, hself, List.nil_append, hrest]

end Proc

/-- What a function that may write `size` bytes at `out` keeps: the mappings, and every other byte
of them. -/
structure Kept (out size : ℕ) (s s' : Proc) : Prop where
  maps_eq : s'.maps = s.maps
  eqOn : ∀ r ∈ s.maps, Set.EqOn s'.mem.byte s.mem.byte
    (Set.Ico r.lo r.hi \ Memory.range out size)

/-- The bytes of a mapped range away from the written one are kept. -/
theorem Kept.eqOn_range {out size lo n : ℕ} {s s' : Proc} {r : Mapping} (h : Kept out size s s')
    (hr : r ∈ s.maps) (hlo : r.lo ≤ lo) (hhi : lo + n ≤ r.hi)
    (haway : lo + n ≤ out ∨ out + size ≤ lo) :
    Set.EqOn s'.mem.byte s.mem.byte (Memory.range lo n) := by
  refine (h.eqOn r hr).mono fun x hx => ?_
  rw [Set.mem_Ico] at hx
  rw [Set.mem_sdiff, Set.mem_Ico, Set.mem_Ico]
  omega

/-- An action the language gives no meaning to. -/
inductive Undefined
  /-- An access through the null pointer. -/
  | nullPointer
  /-- A write past the end of the array written to. -/
  | overrun
  /-- A read past the end of what was read in or stored. -/
  | overread
  /-- A use of a variable that was never set. -/
  | uninitialized
  /-- A signed sum or product outside its type. -/
  | signedOverflow
  /-- A quotient by zero. -/
  | divisionByZero
  deriving DecidableEq, Repr

/-- Why a call does not return. -/
inductive Halt
  /-- A failed assertion aborts the process. -/
  | assertFailed
  /-- The behaviour is undefined. -/
  | undefined (u : Undefined)
  /-- An access to an address that is not mapped ends the process. -/
  | fault
  /-- A loop never ends. -/
  | hang
  deriving DecidableEq, Repr

/-! ## Accesses -/

/-- The addresses of what is left of a mapping. -/
theorem Mapping.exists_minus {r : Mapping} {lo hi x : ℕ} :
    (∃ q ∈ r.minus lo hi, q.lo ≤ x ∧ x < q.hi) ↔
      (r.lo ≤ x ∧ x < r.hi) ∧ (x < lo ∨ hi ≤ x) := by
  simp only [minus, List.mem_append, or_and_right, exists_or]
  have hleft : (∃ q ∈ if r.lo < min r.hi lo then [(⟨r.lo, min r.hi lo⟩ : Mapping)] else [],
      q.lo ≤ x ∧ x < q.hi) ↔ r.lo ≤ x ∧ x < r.hi ∧ x < lo := by
    split
    · simp
    · simp
      omega
  have hright : (∃ q ∈ if max r.lo hi < r.hi then [(⟨max r.lo hi, r.hi⟩ : Mapping)] else [],
      q.lo ≤ x ∧ x < q.hi) ↔ r.lo ≤ x ∧ hi ≤ x ∧ x < r.hi := by
    split
    · simp [and_assoc]
    · simp
      omega
  rw [hleft, hright]
  omega

/-- The parts of a range that none of the mappings holds. -/
def Mapping.uncovered (r : Mapping) : List Mapping → List Mapping
  | [] => [r]
  | m :: maps => (r.uncovered maps).flatMap (·.minus m.lo m.hi)

theorem Mapping.exists_uncovered {r : Mapping} {maps : List Mapping} {x : ℕ} :
    (∃ q ∈ r.uncovered maps, q.lo ≤ x ∧ x < q.hi) ↔
      (r.lo ≤ x ∧ x < r.hi) ∧ ∀ m ∈ maps, x < m.lo ∨ m.hi ≤ x := by
  induction maps with
  | nil => simp [uncovered]
  | cons m maps ih =>
    have hstep : (∃ q ∈ r.uncovered (m :: maps), q.lo ≤ x ∧ x < q.hi) ↔
        (∃ q ∈ r.uncovered maps, q.lo ≤ x ∧ x < q.hi) ∧ (x < m.lo ∨ m.hi ≤ x) := by
      simp only [uncovered, List.mem_flatMap]
      constructor
      · rintro ⟨p, ⟨q, hq, hp⟩, hx⟩
        obtain ⟨hqx, haway⟩ := exists_minus.mp ⟨p, hp, hx⟩
        exact ⟨⟨q, hq, hqx⟩, haway⟩
      · rintro ⟨⟨q, hq, hqx⟩, haway⟩
        obtain ⟨p, hp, hx⟩ := exists_minus.mpr ⟨hqx, haway⟩
        exact ⟨p, ⟨q, hq, hp⟩, hx⟩
    rw [hstep, ih, List.forall_mem_cons, and_assoc, and_comm (a := ∀ _ ∈ maps, _)]

namespace Proc

variable {s : Proc} {a n : ℕ}

/-- The `n` bytes at `a` can be accessed: each of them is mapped, and none lies in the null page or
in the last page. -/
def Mapped (s : Proc) (a n : ℕ) : Prop :=
  ∀ x ∈ Memory.range a n,
    (∃ r ∈ s.maps, r.lo ≤ x ∧ x < r.hi) ∧ pageSize ≤ x ∧ x + pageSize < 2 ^ 64

/-- Whether bytes are mapped is found by taking the mappings off their range. -/
theorem mapped_iff : s.Mapped a n ↔
    (n = 0 ∨ pageSize ≤ a ∧ a + n + pageSize ≤ 2 ^ 64) ∧
      ∀ q ∈ Mapping.uncovered ⟨a, a + n⟩ s.maps, q.hi ≤ q.lo := by
  have huncovered : (∀ q ∈ Mapping.uncovered ⟨a, a + n⟩ s.maps, q.hi ≤ q.lo) ↔
      ∀ x ∈ Memory.range a n, ∃ r ∈ s.maps, r.lo ≤ x ∧ x < r.hi := by
    constructor
    · intro hempty x hx
      by_contra hnone
      push Not at hnone
      have haway : ∀ m ∈ s.maps, x < m.lo ∨ m.hi ≤ x := fun m hm =>
        (Nat.lt_or_ge x m.lo).imp_right (hnone m hm)
      obtain ⟨q, hq, hlo, hhi⟩ :=
        Mapping.exists_uncovered (r := ⟨a, a + n⟩) |>.mpr ⟨Set.mem_Ico.mp hx, haway⟩
      exact absurd (hempty q hq) (by omega)
    · intro hmapped q hq
      by_contra hlt
      rw [Nat.not_le] at hlt
      obtain ⟨hx, haway⟩ := Mapping.exists_uncovered.mp ⟨q, hq, le_rfl, hlt⟩
      obtain ⟨r, hr, hlo, hhi⟩ := hmapped q.lo (Set.mem_Ico.mpr hx)
      have := haway r hr
      omega
  rw [huncovered, Mapped]
  simp only [Set.mem_Ico]
  constructor
  · intro h
    refine ⟨?_, fun x hx => (h x hx).1⟩
    by_cases hn : n = 0
    · exact .inl hn
    · have hfirst := (h a ⟨le_rfl, by omega⟩).2
      have hlast := (h (a + n - 1) ⟨by omega, by omega⟩).2
      exact .inr ⟨hfirst.1, by omega⟩
  · rintro ⟨hends, h⟩ x hx
    exact ⟨h x hx, by omega, by omega⟩

instance : Decidable (s.Mapped a n) := decidable_of_iff _ mapped_iff.symm

@[simp] theorem mapped_withMem (m : Memory) : (s.withMem m).Mapped a n ↔ s.Mapped a n := Iff.rfl

/-- Whether bytes are mapped depends on the mappings only. -/
theorem mapped_congr {s' : Proc} (h : s'.maps = s.maps) : s'.Mapped a n ↔ s.Mapped a n := by
  rw [Mapped, Mapped, h]

/-- No bytes are always mapped. -/
theorem mapped_zero (s : Proc) (a : ℕ) : s.Mapped a 0 := by
  intro x hx
  rw [Set.mem_Ico] at hx
  omega

/-- A part of what is mapped is mapped. -/
theorem Mapped.mono {b k : ℕ} (h : s.Mapped a n) (hlo : a ≤ b) (hhi : b + k ≤ a + n) :
    s.Mapped b k :=
  fun x hx => h x (Set.Ico_subset_Ico hlo hhi hx)

/-- Two ranges one behind the other are mapped iff both are. -/
theorem mapped_add (s : Proc) (a n k : ℕ) :
    s.Mapped a (n + k) ↔ s.Mapped a n ∧ s.Mapped (a + n) k := by
  refine ⟨fun h => ⟨h.mono le_rfl (by omega), h.mono (by omega) (by omega)⟩, ?_⟩
  rintro ⟨hfirst, hsecond⟩ x hx
  rw [Set.mem_Ico] at hx
  by_cases hlt : x < a + n
  · exact hfirst x (Set.mem_Ico.mpr ⟨hx.1, hlt⟩)
  · exact hsecond x (Set.mem_Ico.mpr (by omega))

/-- Mapped bytes end within the address space, before its last page. -/
theorem Mapped.bounds (h : s.Mapped a n) (hn : 0 < n) :
    pageSize ≤ a ∧ a + n + pageSize ≤ 2 ^ 64 := by
  obtain ⟨hends, -⟩ := mapped_iff.mp h
  exact hends.resolve_left hn.ne'

/-- A mapping the kernel granted, which is there. -/
structure Owns (s : Proc) (r : Mapping) : Prop where
  mem_maps : r ∈ s.maps
  pageSize_le : pageSize ≤ r.lo
  hi_le : r.hi + pageSize ≤ 2 ^ 64

/-- The bytes of a granted mapping can be accessed. -/
theorem Owns.mapped {r : Mapping} (h : s.Owns r) (hlo : r.lo ≤ a) (hhi : a + n ≤ r.hi) :
    s.Mapped a n := by
  intro x hx
  rw [Set.mem_Ico] at hx
  have hfirst := h.pageSize_le
  have hlast := h.hi_le
  exact ⟨⟨r, h.mem_maps, by omega, by omega⟩, by omega, by omega⟩

/-- A mapping that is granted is there. -/
theorem owns_of_granted {k : Kernel} {maps : List Mapping} {len : ℕ}
    (hgrant : k.mmap maps len = some a) (hmaps : s.maps = ⟨a, a + pageRound len⟩ :: maps) :
    s.Owns ⟨a, a + pageRound len⟩ := by
  obtain ⟨-, hpos, hpage, hfit, -⟩ := k.mmap_spec hgrant
  exact ⟨hmaps ▸ List.mem_cons_self, Nat.le_of_dvd hpos hpage, hfit⟩

theorem Owns.of_maps_eq {s' : Proc} {r : Mapping} (h : s.Owns r) (hmaps : s'.maps = s.maps) :
    s'.Owns r :=
  ⟨hmaps ▸ h.mem_maps, h.pageSize_le, h.hi_le⟩

/-- Write the bytes `bs` at `a`. -/
def write (a : ℕ) (bs : List UInt8) (s : Proc) : Except Halt Proc :=
  if s.Mapped a bs.length then .ok (s.withMem (s.mem.store a bs)) else .error .fault

/-- `MemSet` -/
def memSet (a n : ℕ) (s : Proc) : Except Halt Proc :=
  if s.Mapped a n then .ok (s.withMem (s.mem.fill a n)) else .error .fault

/-- `memmove` -/
def memMove (dst src n : ℕ) (s : Proc) : Except Halt Proc :=
  if s.Mapped src n ∧ s.Mapped dst n then .ok (s.withMem (s.mem.store dst (s.mem.load src n)))
  else .error .fault

theorem memMove_of_mapped {dst src : ℕ} (hsrc : s.Mapped src n) (hdst : s.Mapped dst n) :
    s.memMove dst src n = .ok (s.withMem (s.mem.store dst (s.mem.load src n))) :=
  if_pos ⟨hsrc, hdst⟩

/-- A copy that does not return faults. -/
theorem memMove_eq_error {dst src : ℕ} {e : Halt} (he : s.memMove dst src n = .error e) :
    e = .fault := by
  rw [memMove] at he
  split at he
  · cases he
  · exact (Except.error.inj he).symm

theorem memMove_of_not_mapped {dst src : ℕ} (hsrc : ¬ s.Mapped src n) :
    s.memMove dst src n = .error .fault :=
  if_neg fun h => hsrc h.1

end Proc
