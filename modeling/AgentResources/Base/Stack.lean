import AgentResources.Base.Arena
import AgentResources.Foundations.Layout

/-!
# The stack allocator

`base_stack.c`: a stack takes one mapping and pushes blocks of it, each behind a header whose first
byte is the padding that was put before the block. Popping a block reads that byte to find the
offset from before the push.

The padding is computed for every address and every power of two (`calculatePadding_eq`). The
source takes the branch for an unaligned address where the address is aligned, so the padding makes
a block aligned only where the address was (`calculatePadding_isLeast_iff`).

## Main definitions

* `calculatePadding`, `stackCreate`, `stackPushAlign`, `stackPush`, `stackPop`, `stackResizeAlign`,
  `stackPopAll`, `stackDestroy`: the functions of `base_stack.c`;
* `Alignment`: a power of two;
* `StackAt`: the struct of a stack is intact.
-/

namespace AgentResources

/-- `struct mem_stack` -/
structure MemStack where
  basePosition : UInt64
  currentOffset : UInt64
  capacity : UInt64
  deriving DecidableEq

instance : Layout MemStack := Layout.ofFields
  (fun s => (s.basePosition, s.currentOffset, s.capacity)) (fun (b, o, c) => ⟨b, o, c⟩) fun _ => rfl

/-- `sizeof(mem_stack)` -/
def sizeofMemStack : ℕ := 24

/-- `sizeof(mem_stack_header)` -/
def sizeofMemStackHeader : ℕ := 2

/-- Read the struct at `stack`. -/
def memStack (m : Memory) (stack : ℕ) : MemStack := m.loadAs MemStack stack

/-- `stack->current_offset = v` -/
def setCurrentOffset (stack : ℕ) (v : UInt64) (m : Memory) : Memory :=
  m.storeAs stack { memStack m stack with currentOffset := v }

/-- `stack_create` -/
def stackCreate (k : Kernel) (capacity : UInt64) (s : Proc) : ℕ × Proc :=
  match s.mmap k (capacity + UInt64.ofNat sizeofMemStack).toNat with
  | (none, s) => (NULL, s)
  | (some stack, s) =>
    let st : MemStack :=
      { capacity, basePosition := UInt64.ofNat (stack + sizeofMemStack), currentOffset := 0 }
    (stack, s.withMem (s.mem.storeAs stack st))

/-- `calculate_padding`. An alignment of zero passes the guard. -/
def calculatePadding (pointer alignment headerSize : UInt64) : Except Halt UInt64 :=
  if ¬ isPow alignment then .ok 0
  else
    let modulo := pointer &&& (alignment - 1)
    let padding := if 0 = modulo then alignment - modulo else 0
    if padding < headerSize then
      let headerSize := headerSize - padding
      if alignment = 0 then .error (.undefined .divisionByZero)
      else if headerSize &&& (alignment - 1) ≠ 0 then
        .ok (padding + alignment * (1 + headerSize / alignment))
      else .ok (padding + alignment * (headerSize / alignment))
    else .ok padding

/-- The end of `stack_push_align`, with the padding at hand. -/
def pushPadded (stack : ℕ) (size padding : UInt64) (s : Proc) : Except Halt (ℕ × Proc) :=
  let st := memStack s.mem stack
  if st.currentOffset + padding + size > st.capacity then .ok (NULL, s)
  else do
    let s := s.withMem (setCurrentOffset stack (st.currentOffset + padding) s.mem)
    let nextAddress := st.basePosition + st.currentOffset + padding
    -- the padding is stored in a byte
    let s ← s.write (nextAddress - UInt64.ofNat sizeofMemStackHeader).toNat [padding.toUInt8]
    let s := s.withMem
      (setCurrentOffset stack ((memStack s.mem stack).currentOffset + size) s.mem)
    let s ← s.memSet nextAddress.toNat size.toNat
    return (nextAddress.toNat, s)

/-- `stack_push_align` -/
def stackPushAlign (stack : ℕ) (size alignment : UInt64) (s : Proc) : Except Halt (ℕ × Proc) :=
  if ¬ isPow alignment then .ok (NULL, s)
  else do
    let alignment := if alignment > 128 then 128 else alignment
    let st := memStack s.mem stack
    let padding ← calculatePadding (st.basePosition + st.currentOffset) alignment
      (UInt64.ofNat sizeofMemStackHeader)
    pushPadded stack size padding s

/-- `stack_push` -/
def stackPush (stack : ℕ) (size : UInt64) (s : Proc) : Except Halt (ℕ × Proc) :=
  stackPushAlign stack size ARENA_ALIGN s

/-- `stack_pop` -/
def stackPop (stack pointer : ℕ) (s : Proc) : Proc :=
  if pointer = NULL then s
  else
    let st := memStack s.mem stack
    let start := st.basePosition
    let «end» := start + st.capacity
    let currentAddress := UInt64.ofNat pointer
    if ¬ (start ≤ currentAddress ∧ currentAddress < «end») then s
    else if currentAddress ≥ start + st.basePosition then s
    else
      let padding := s.mem.byte (currentAddress - UInt64.ofNat sizeofMemStackHeader).toNat
      s.withMem (setCurrentOffset stack (currentAddress - padding.toUInt64 - start) s.mem)

/-- `stack_resize_align`. The block that is pushed and copied to is not the one returned. -/
def stackResizeAlign (stack pointer : ℕ) (oldSize newSize alignment : UInt64) (s : Proc) :
    Except Halt (ℕ × Proc) :=
  if pointer = NULL then stackPushAlign stack newSize alignment s
  else if newSize = 0 then .ok (NULL, stackPop stack pointer s)
  else
    let minSize := if oldSize < newSize then oldSize else newSize
    let st := memStack s.mem stack
    let start := st.basePosition
    let «end» := start + st.capacity
    let currentAddress := UInt64.ofNat pointer
    if ¬ (start ≤ currentAddress ∧ currentAddress < «end») then .ok (NULL, s)
    else if currentAddress ≥ start + st.currentOffset then .ok (NULL, s)
    else if oldSize = newSize then .ok (pointer, s)
    else do
      let (newPointer, s) ← stackPushAlign stack newSize alignment s
      if newPointer = NULL then .error (.undefined .nullPointer)
      let s ← s.memMove newPointer pointer minSize.toNat
      return (pointer, s)

/-- `stack_pop_all` -/
def stackPopAll (stack : ℕ) (s : Proc) : Proc := s.withMem (setCurrentOffset stack 0 s.mem)

/-- `capacity + sizeof(mem_stack)`, the length that is mapped and unmapped: the sum wraps. -/
def stackMappingLen (capacity : UInt64) : ℕ := (capacity + UInt64.ofNat sizeofMemStack).toNat

/-- `stack_destroy` -/
def stackDestroy (stack : ℕ) (s : Proc) : Proc :=
  if stack = NULL then s
  else s.munmap stack (stackMappingLen (memStack s.mem stack).capacity)

/-! ## Padding -/

/-- A power of two in a word. -/
structure Alignment where
  value : UInt64
  pow_two : ∃ k, value.toNat = 2 ^ k

namespace Alignment

variable (a : Alignment)

theorem pos : 0 < a.value.toNat := by
  obtain ⟨k, hk⟩ := a.pow_two
  rw [hk]
  exact Nat.two_pow_pos k

/-- Masking with one less is the remainder. -/
theorem toNat_and_sub_one (x : UInt64) :
    (x &&& (a.value - 1)).toNat = x.toNat % a.value.toNat := by
  obtain ⟨k, hk⟩ := a.pow_two
  have hone : (1 : UInt64) ≤ a.value := UInt64.le_iff_toNat_le.mpr a.pos
  rw [UInt64.toNat_and, UInt64.toNat_sub_of_le _ _ hone, hk, UInt64.toNat_one,
    Nat.and_two_pow_sub_one_eq_mod]

theorem isPow_value : isPow a.value := by
  have hzero : (a.value &&& (a.value - 1)).toNat = 0 := by
    rw [a.toNat_and_sub_one, Nat.mod_self]
  rw [isPow, beq_iff_eq, ← UInt64.toNat_inj, hzero, UInt64.toNat_zero]

/-- The alignment a push uses. -/
def capped : Alignment where
  value := if a.value > 128 then 128 else a.value
  pow_two := by
    split
    · exact ⟨7, rfl⟩
    · exact a.pow_two

theorem capped_le : a.capped.value.toNat ≤ 128 := by
  unfold capped
  dsimp only
  split
  · exact le_rfl
  · next h =>
    rw [gt_iff_lt, UInt64.lt_iff_toNat_lt, Nat.not_lt] at h
    exact h

theorem toNat_capped : a.capped.value.toNat = min a.value.toNat 128 := by
  unfold capped
  dsimp only
  split
  · next h =>
    rw [gt_iff_lt, UInt64.lt_iff_toNat_lt] at h
    exact (min_eq_right h.le).symm
  · next h =>
    rw [gt_iff_lt, UInt64.lt_iff_toNat_lt, Nat.not_lt] at h
    exact (min_eq_left h).symm

/-- `ARENA_ALIGN` -/
def arena : Alignment := ⟨ARENA_ALIGN, 4, rfl⟩

end Alignment

/-- The alignments that pass the check and are not zero are the powers of two. -/
theorem exists_alignment {alignment : UInt64} (hpow : isPow alignment) (hne : alignment ≠ 0) :
    ∃ a : Alignment, a.value = alignment := by
  have hzero : alignment.toNat ≠ 0 := fun h => hne (UInt64.toNat_inj.mp h)
  have hone : (1 : UInt64) ≤ alignment :=
    UInt64.le_iff_toNat_le.mpr (Nat.one_le_iff_ne_zero.mpr hzero)
  rw [isPow, beq_iff_eq, ← UInt64.toNat_inj, UInt64.toNat_and, UInt64.toNat_sub_of_le _ _ hone,
    UInt64.toNat_one, UInt64.toNat_zero, Nat.and_sub_one_eq_zero_iff_isPowerOfTwo hzero] at hpow
  exact ⟨⟨alignment, hpow⟩, rfl⟩

/-- The least multiple of `a` that is at least `n`. -/
def roundUp (n a : ℕ) : ℕ := (n + (a - 1)) / a * a

theorem dvd_roundUp (n a : ℕ) : a ∣ roundUp n a := Dvd.intro_left _ rfl

theorem roundUp_isLeast {n a : ℕ} (ha : 0 < a) : IsLeast {m | n ≤ m ∧ a ∣ m} (roundUp n a) := by
  have hdiv := Nat.div_add_mod (n + (a - 1)) a
  have hmod := Nat.mod_lt (n + (a - 1)) ha
  rw [Nat.mul_comm] at hdiv
  refine ⟨⟨?_, dvd_roundUp n a⟩, ?_⟩
  · rw [roundUp]
    omega
  · rintro m ⟨hle, c, rfl⟩
    rw [roundUp, Nat.mul_comm a c]
    refine Nat.mul_le_mul_right a (Nat.lt_succ_iff.mp ((Nat.div_lt_iff_lt_mul ha).mpr ?_))
    rw [Nat.succ_mul, Nat.mul_comm c a]
    omega

theorem roundUp_of_mod_ne_zero {n a : ℕ} (ha : 0 < a) (hn : n % a ≠ 0) :
    roundUp n a = a * (1 + n / a) := by
  refine (roundUp_isLeast ha).unique ⟨⟨?_, Dvd.intro _ rfl⟩, ?_⟩
  · have hdiv := Nat.div_add_mod n a
    have hmod := Nat.mod_lt n ha
    rw [Nat.mul_add, Nat.mul_one]
    omega
  · rintro m ⟨hle, c, rfl⟩
    refine Nat.mul_le_mul_left a ?_
    rw [Nat.add_comm, Nat.succ_le_iff, Nat.div_lt_iff_lt_mul ha, Nat.mul_comm]
    refine lt_of_le_of_ne hle ?_
    rintro rfl
    exact hn (Nat.mul_mod_right a c)

theorem roundUp_of_dvd {n a : ℕ} (ha : 0 < a) (hn : a ∣ n) : roundUp n a = n :=
  (roundUp_isLeast ha).unique ⟨⟨le_rfl, hn⟩, fun _ hm => hm.1⟩

/-- A length of at most one unit takes one unit. -/
theorem roundUp_of_le {n a : ℕ} (hn : 0 < n) (hle : n ≤ a) : roundUp n a = a := by
  refine (roundUp_isLeast (hn.trans_le hle)).unique ⟨⟨hle, dvd_rfl⟩, ?_⟩
  rintro m ⟨hm, hdvd⟩
  exact Nat.le_of_dvd (hn.trans_le hm) hdvd

theorem roundUp_add_self {n a : ℕ} (ha : 0 < a) : roundUp (n + a) a = roundUp n a + a := by
  rw [roundUp, roundUp, Nat.add_right_comm, Nat.add_div_right _ ha, Nat.succ_mul]

/-- What is added for a header that is still too long: its length rounded up. -/
theorem Alignment.toNat_multiple (a : Alignment) {hs : UInt64}
    (hsum : hs.toNat + a.value.toNat ≤ 2 ^ 64) :
    (if hs &&& (a.value - 1) ≠ 0 then a.value * (1 + hs / a.value)
      else a.value * (hs / a.value)).toNat = roundUp hs.toNat a.value.toNat := by
  have hpos := a.pos
  have hmask : hs &&& (a.value - 1) ≠ 0 ↔ hs.toNat % a.value.toNat ≠ 0 := by
    rw [ne_eq, ← UInt64.toNat_inj, a.toNat_and_sub_one, UInt64.toNat_zero]
  have hdiv := Nat.div_add_mod hs.toNat a.value.toNat
  by_cases hmod : hs.toNat % a.value.toNat = 0
  · rw [if_neg (by rw [hmask]; exact not_not.mpr hmod),
      roundUp_of_dvd hpos (Nat.dvd_of_mod_eq_zero hmod), UInt64.toNat_mul, UInt64.toNat_div,
      Nat.mul_div_cancel' (Nat.dvd_of_mod_eq_zero hmod), Nat.mod_eq_of_lt (by omega)]
  · rw [if_pos (hmask.mpr hmod), roundUp_of_mod_ne_zero hpos hmod]
    have hle : a.value.toNat * (1 + hs.toNat / a.value.toNat) < 2 ^ 64 := by
      rw [Nat.mul_add, Nat.mul_one]
      omega
    have hquot : 1 + hs.toNat / a.value.toNat < 2 ^ 64 :=
      (Nat.le_mul_of_pos_left _ hpos).trans_lt hle
    rw [UInt64.toNat_mul, UInt64.toNat_add, UInt64.toNat_div, UInt64.toNat_one,
      Nat.mod_eq_of_lt hquot, Nat.mod_eq_of_lt hle]

/-- The second half of `calculatePadding`, with the padding from its first branch at hand. -/
theorem Alignment.padding_rest (a : Alignment) (padding headerSize : UInt64)
    (hsum : headerSize.toNat + a.value.toNat ≤ 2 ^ 64) : ∃ result,
      (if padding < headerSize then
        if a.value = 0 then .error (.undefined .divisionByZero)
        else if (headerSize - padding) &&& (a.value - 1) ≠ 0 then
          .ok (padding + a.value * (1 + (headerSize - padding) / a.value))
        else .ok (padding + a.value * ((headerSize - padding) / a.value))
      else .ok padding : Except Halt UInt64) = .ok result ∧
      (padding < headerSize → result.toNat =
        (padding.toNat + roundUp (headerSize.toNat - padding.toNat) a.value.toNat) % 2 ^ 64) ∧
      (¬ padding < headerSize → result = padding) := by
  have hne : a.value ≠ 0 := by
    rintro h0
    have hpos := a.pos
    rw [h0, UInt64.toNat_zero] at hpos
    exact absurd hpos (lt_irrefl 0)
  by_cases hlt : padding < headerSize
  · have hsub : (headerSize - padding).toNat = headerSize.toNat - padding.toNat :=
      UInt64.toNat_sub_of_le _ _ (UInt64.le_of_lt hlt)
    -- the header still to be covered leaves room for one more alignment
    have hheader : (headerSize - padding).toNat + a.value.toNat ≤ 2 ^ 64 := by omega
    have hadded := a.toNat_multiple hheader
    rw [if_pos hlt, if_neg hne]
    split at hadded
    · next hmask =>
      rw [if_pos hmask]
      exact ⟨_, rfl, fun _ => by rw [UInt64.toNat_add, hadded, hsub], fun h => absurd hlt h⟩
    · next hmask =>
      rw [if_neg hmask]
      exact ⟨_, rfl, fun _ => by rw [UInt64.toNat_add, hadded, hsub], fun h => absurd hlt h⟩
  · rw [if_neg hlt]
    exact ⟨_, rfl, fun h => absurd h hlt, fun _ => rfl⟩

/-- The padding, in numbers: the header rounded up to the alignment, or the alignment itself where
there is no header and the address is aligned. -/
theorem calculatePadding_eq (a : Alignment) (pointer headerSize : UInt64)
    (hsum : headerSize.toNat + a.value.toNat ≤ 2 ^ 64) :
    ∃ padding, calculatePadding pointer a.value headerSize = .ok padding ∧
      padding.toNat = if a.value.toNat ∣ pointer.toNat ∧ headerSize = 0 then a.value.toNat
        else roundUp headerSize.toNat a.value.toNat := by
  have hpos := a.pos
  have hmodulo : (0 : UInt64) = pointer &&& (a.value - 1) ↔ a.value.toNat ∣ pointer.toNat := by
    rw [eq_comm, ← UInt64.toNat_inj, a.toNat_and_sub_one, UInt64.toNat_zero,
      Nat.dvd_iff_mod_eq_zero]
  have hzero : headerSize = 0 ↔ headerSize.toNat = 0 := by
    rw [← UInt64.toNat_inj, UInt64.toNat_zero]
  have hbound : roundUp headerSize.toNat a.value.toNat < 2 ^ 64 := by
    have hsucc := Nat.div_mul_le_self (headerSize.toNat + (a.value.toNat - 1)) a.value.toNat
    rw [roundUp]
    omega
  obtain ⟨result, hresult, hless, hother⟩ := a.padding_rest
    (if (0 : UInt64) = pointer &&& (a.value - 1) then a.value - (pointer &&& (a.value - 1)) else 0)
    headerSize hsum
  refine ⟨result, ?_, ?_⟩
  · rw [calculatePadding, if_neg (not_not.mpr a.isPow_value)]
    exact hresult
  · by_cases hdvd : a.value.toNat ∣ pointer.toNat
    · -- the padding starts with a whole alignment
      have hmod := hmodulo.mpr hdvd
      rw [if_pos hmod, ← hmod, UInt64.sub_zero, UInt64.lt_iff_toNat_lt] at hless hother
      by_cases hlt : a.value.toNat < headerSize.toNat
      · have hadd : roundUp headerSize.toNat a.value.toNat =
            a.value.toNat + roundUp (headerSize.toNat - a.value.toNat) a.value.toNat := by
          rw [Nat.add_comm, ← roundUp_add_self hpos, Nat.sub_add_cancel hlt.le]
        rw [if_neg (fun h => by rw [hzero] at h; omega), hless hlt, ← hadd,
          Nat.mod_eq_of_lt hbound]
      · rw [hother hlt]
        split
        · rfl
        · next hne' =>
          refine (roundUp_of_le (Nat.pos_of_ne_zero fun h => hne' ⟨hdvd, hzero.mpr h⟩) ?_).symm
          exact Nat.not_lt.mp hlt
    · -- the remainder is not taken off, so the padding starts at zero
      rw [if_neg (fun h => hdvd (hmodulo.mp h)), UInt64.lt_iff_toNat_lt, UInt64.toNat_zero,
        Nat.sub_zero, Nat.zero_add] at hless
      rw [if_neg (fun h => hdvd (hmodulo.mp h)), UInt64.lt_iff_toNat_lt, UInt64.toNat_zero]
        at hother
      rw [if_neg (fun h => hdvd h.1)]
      by_cases hlt : 0 < headerSize.toNat
      · rw [hless hlt, Nat.mod_eq_of_lt hbound]
      · rw [hother hlt, UInt64.toNat_zero, Nat.eq_zero_of_not_pos hlt,
          roundUp_of_dvd hpos (Nat.dvd_zero _)]

/-- The padding is the least one that covers the header and aligns the address iff the address is
aligned already and there is a header. -/
theorem calculatePadding_isLeast_iff (a : Alignment) (pointer headerSize : UInt64)
    (hsum : headerSize.toNat + a.value.toNat ≤ 2 ^ 64) :
    (∃ padding, calculatePadding pointer a.value headerSize = .ok padding ∧
        IsLeast {n | headerSize.toNat ≤ n ∧ a.value.toNat ∣ pointer.toNat + n} padding.toNat) ↔
      a.value.toNat ∣ pointer.toNat ∧ headerSize ≠ 0 := by
  obtain ⟨padding, hpadding, hvalue⟩ := calculatePadding_eq a pointer headerSize hsum
  simp only [hpadding, Except.ok.injEq, exists_eq_left']
  by_cases hdvd : a.value.toNat ∣ pointer.toNat
  · -- from an aligned address the multiples of the alignment are reached by multiples of it
    simp only [Nat.dvd_add_right hdvd, hdvd, true_and]
    rw [hvalue]
    constructor
    · rintro ⟨-, hleast⟩ rfl
      rw [if_pos ⟨hdvd, rfl⟩] at hleast
      exact absurd (hleast ⟨Nat.zero_le _, Nat.dvd_zero _⟩) (Nat.not_le.mpr a.pos)
    · intro hne
      rw [if_neg fun h => hne h.2]
      exact roundUp_isLeast a.pos
  · -- from any other address a multiple of the alignment reaches none
    refine iff_of_false (fun hleast => hdvd ?_) fun h => hdvd h.1
    rw [if_neg fun h => hdvd h.1] at hvalue
    have hreach : a.value.toNat ∣ pointer.toNat + padding.toNat := hleast.1.2
    rw [hvalue] at hreach
    exact (Nat.dvd_add_left (dvd_roundUp _ _)).mp hreach

/-! ## Pushing -/

namespace Alignment

variable (a : Alignment)

/-- The padding of a push: the alignment it uses, or the header where that is more. -/
def padding : ℕ := max sizeofMemStackHeader (min a.value.toNat 128)

theorem padding_le : a.padding ≤ 128 := by
  simp only [padding, sizeofMemStackHeader]
  omega

theorem sizeofMemStackHeader_le_padding : sizeofMemStackHeader ≤ a.padding := le_max_left _ _

theorem min_dvd_padding : min a.value.toNat 128 ∣ a.padding := by
  rw [padding]
  by_cases hle : sizeofMemStackHeader ≤ min a.value.toNat 128
  · rw [max_eq_right hle]
  · have hpos := a.pos
    rw [sizeofMemStackHeader, Nat.not_le] at hle
    rw [show min a.value.toNat 128 = 1 by omega]
    exact one_dvd _

/-- The alignment a push uses divides the word size. -/
theorem min_dvd_word : min a.value.toNat 128 ∣ 2 ^ 64 := by
  obtain ⟨k, hk⟩ := a.capped.pow_two
  have hle := a.capped_le
  rw [a.toNat_capped] at hk hle
  rw [hk] at hle ⊢
  refine pow_dvd_pow 2 (le_of_not_gt fun hlt => ?_)
  have hpow : 2 ^ 64 ≤ 2 ^ k := Nat.pow_le_pow_right two_pos hlt.le
  omega

end Alignment

/-- A push to a power of two ends with the padding at hand. -/
theorem stackPushAlign_eq (stack : ℕ) (size : UInt64) (a : Alignment) (s : Proc) :
    ∃ padding, padding.toNat = a.padding ∧
      stackPushAlign stack size a.value s = pushPadded stack size padding s := by
  have hheader : (UInt64.ofNat sizeofMemStackHeader).toNat = sizeofMemStackHeader := rfl
  have hcapped := a.capped_le
  have hpos := a.capped.pos
  obtain ⟨padding, hpadding, hvalue⟩ := calculatePadding_eq a.capped
    ((memStack s.mem stack).basePosition + (memStack s.mem stack).currentOffset)
    (UInt64.ofNat sizeofMemStackHeader) (by rw [hheader, sizeofMemStackHeader]; omega)
  refine ⟨padding, ?_, ?_⟩
  · rw [hvalue, if_neg fun h => absurd h.2 (by decide), hheader, Alignment.padding,
      ← a.toNat_capped]
    by_cases hle : sizeofMemStackHeader ≤ a.capped.value.toNat
    · rw [max_eq_right hle, roundUp_of_le (by decide) hle]
    · -- the alignment is one
      rw [sizeofMemStackHeader] at hle ⊢
      rw [show a.capped.value.toNat = 1 by omega, roundUp_of_dvd one_pos (one_dvd _)]
      rfl
  · rw [stackPushAlign, if_neg (not_not.mpr a.isPow_value)]
    simp only [Alignment.capped] at hpadding
    simp only [hpadding, Except.ok_bind]

/-- The alignment zero passes the check, and the header is divided by it. -/
theorem stackPushAlign_zero (stack : ℕ) (size : UInt64) (s : Proc) :
    stackPushAlign stack size 0 s = .error (.undefined .divisionByZero) := by
  have hpow : isPow 0 := by decide
  have hpadding : ∀ pointer : UInt64,
      calculatePadding pointer 0 (UInt64.ofNat sizeofMemStackHeader) =
        .error (.undefined .divisionByZero) := by
    intro pointer
    -- in either branch the padding starts at zero
    have hstart :
        (if 0 = pointer &&& (0 - 1) then 0 - (pointer &&& (0 - 1)) else 0 : UInt64) = 0 := by
      split
      · next h => rw [← h, UInt64.sub_zero]
      · rfl
    rw [calculatePadding, if_neg (not_not.mpr hpow)]
    simp only [hstart]
    rfl
  rw [stackPushAlign, if_neg (not_not.mpr hpow)]
  dsimp only
  rw [if_neg (by decide), hpadding]
  rfl

/-! ## The struct in memory -/

section StackAt

variable {stack : ℕ} {capacity : UInt64} {m m' : Memory} {s : Proc}

/-- The address of the first byte after the struct. -/
def stackBase (stack : ℕ) : ℕ := stack + sizeofMemStack

/-- `stack->current_offset` as a number. -/
def offset (stack : ℕ) (s : Proc) : ℕ := (memStack s.mem stack).currentOffset.toNat

/-- The mapping of a stack. -/
def stackMapping (stack : ℕ) (capacity : UInt64) : Mapping :=
  ⟨stack, stack + pageRound (stackMappingLen capacity)⟩

/-- The struct still holds the base address and the capacity `stackCreate` wrote, the mapping is
there, and the offset is within the capacity and so far from the end of the address space that a
padding fits behind it. -/
structure StackAt (stack : ℕ) (capacity : UInt64) (s : Proc) : Prop where
  base_eq : (memStack s.mem stack).basePosition.toNat = stackBase stack
  capacity_eq : (memStack s.mem stack).capacity = capacity
  owns : s.Owns (stackMapping stack capacity)
  offset_le : offset stack s ≤ capacity.toNat
  offset_lt : stackBase stack + offset stack s + 128 < 2 ^ 64

theorem size_memStack : Layout.size MemStack = sizeofMemStack := rfl

/-- The struct depends only on its own bytes. -/
theorem memStack_eq_of_eqOn (h : Set.EqOn m.byte m'.byte (Memory.range stack sizeofMemStack)) :
    memStack m stack = memStack m' stack :=
  Memory.loadAs_eq_of_eqOn (by rwa [size_memStack])

@[simp]
theorem memStack_setCurrentOffset (v : UInt64) :
    memStack (setCurrentOffset stack v m) stack = { memStack m stack with currentOffset := v } :=
  Memory.loadAs_storeAs m stack _

/-- The struct takes up all of its bytes. -/
theorem exact_memStack : Layout.Exact MemStack :=
  @Layout.Exact.ofFields MemStack _ _
    (Layout.exact_uint64.prod (Layout.exact_uint64.prod Layout.exact_uint64))
    (fun s => (s.basePosition, s.currentOffset, s.capacity)) (fun (b, o, c) => ⟨b, o, c⟩)
    (fun _ => rfl) fun _ => rfl

/-- Setting the offset to what it is changes nothing. -/
theorem setCurrentOffset_self (stack : ℕ) (m : Memory) :
    setCurrentOffset stack (memStack m stack).currentOffset m = m := by
  have hstore : m.storeAs stack (memStack m stack) = m :=
    Memory.storeAs_loadAs exact_memStack m stack
  rw [setCurrentOffset]
  exact hstore

theorem setCurrentOffset_eqOn (stack : ℕ) (v : UInt64) (m : Memory) :
    Set.EqOn (setCurrentOffset stack v m).byte m.byte (Memory.range stack sizeofMemStack)ᶜ :=
  Memory.storeAs_eqOn m stack _

namespace StackAt

/-- Moving the offset to a place within the capacity keeps the struct. -/
theorem setCurrent (hs : StackAt stack capacity s) {v : UInt64} (hv : v.toNat ≤ capacity.toNat)
    (hlt : stackBase stack + v.toNat + 128 < 2 ^ 64) :
    StackAt stack capacity (s.withMem (setCurrentOffset stack v s.mem)) := by
  have hoffset : offset stack (s.withMem (setCurrentOffset stack v s.mem)) = v.toNat := by
    rw [offset, Proc.mem_withMem, memStack_setCurrentOffset]
  refine ⟨?_, ?_, hs.owns.of_maps_eq rfl, ?_, ?_⟩
  · rw [Proc.mem_withMem, memStack_setCurrentOffset]
    exact hs.base_eq
  · rw [Proc.mem_withMem, memStack_setCurrentOffset]
    exact hs.capacity_eq
  · rw [hoffset]
    exact hv
  · rw [hoffset]
    exact hlt

/-- Moving the offset down keeps the struct. -/
theorem setCurrent_of_le (hs : StackAt stack capacity s) {v : UInt64}
    (hv : v.toNat ≤ offset stack s) :
    StackAt stack capacity (s.withMem (setCurrentOffset stack v s.mem)) := by
  have hlt := hs.offset_lt
  exact hs.setCurrent (hv.trans hs.offset_le) (by omega)

/-- Changing bytes after the struct keeps it. -/
theorem of_eqOn (hs : StackAt stack capacity s) {s' : Proc} (hmaps : s'.maps = s.maps)
    (h : Set.EqOn s'.mem.byte s.mem.byte (Memory.range stack sizeofMemStack)) :
    StackAt stack capacity s' := by
  have heq := memStack_eq_of_eqOn h
  have hoffset : offset stack s' = offset stack s := by rw [offset, heq, offset]
  refine ⟨?_, ?_, hs.owns.of_maps_eq hmaps, ?_, ?_⟩
  · rw [heq]
    exact hs.base_eq
  · rw [heq]
    exact hs.capacity_eq
  · rw [hoffset]
    exact hs.offset_le
  · rw [hoffset]
    exact hs.offset_lt

/-- What the struct counts as handed out can be accessed, if the length that is mapped does not
wrap. -/
theorem mapped (hs : StackAt stack capacity s) (hcap : capacity.toNat + sizeofMemStack < 2 ^ 64)
    {a n : ℕ} (hlo : stack ≤ a) (hhi : a + n ≤ stackBase stack + capacity.toNat) :
    s.Mapped a n := by
  have hlen : stackMappingLen capacity = capacity.toNat + sizeofMemStack := by
    rw [stackMappingLen, UInt64.toNat_add]
    exact Nat.mod_eq_of_lt hcap
  have hle := le_pageRound (stackMappingLen capacity)
  refine hs.owns.mapped hlo ?_
  simp only [stackMapping, stackBase] at *
  omega

end StackAt

theorem offset_setCurrentOffset (v : UInt64) :
    offset stack (s.withMem (setCurrentOffset stack v s.mem)) = v.toNat := by
  rw [offset, Proc.mem_withMem, memStack_setCurrentOffset]

/-- A new stack is one, at offset zero. -/
theorem stackAt_create {k : Kernel} (h : (stackCreate k capacity s).1 ≠ NULL) :
    StackAt (stackCreate k capacity s).1 capacity (stackCreate k capacity s).2 ∧
      offset (stackCreate k capacity s).1 (stackCreate k capacity s).2 = 0 := by
  rw [stackCreate, Proc.mmap] at h ⊢
  cases hgrant : k.mmap s.maps (capacity + UInt64.ofNat sizeofMemStack).toNat with
  | none =>
    rw [hgrant] at h
    exact absurd rfl h
  | some a =>
    obtain ⟨hlen, -, -, hfit, -⟩ := k.mmap_spec hgrant
    -- the mapping ends within the address space, so the base address does not wrap
    have hpage : pageSize ≤ pageRound (capacity + UInt64.ofNat sizeofMemStack).toNat := by
      simp only [pageRound, pageSize]
      omega
    have hbase : (UInt64.ofNat (a + sizeofMemStack)).toNat = stackBase a := by
      rw [UInt64.toNat_ofNat', Nat.mod_eq_of_lt, stackBase]
      simp only [sizeofMemStack, pageSize] at *
      omega
    have hzero : ∀ p : Proc, offset a (p.withMem (p.mem.storeAs a
        ({ capacity, basePosition := UInt64.ofNat (a + sizeofMemStack), currentOffset := 0 } :
          MemStack))) = 0 := by
      intro p
      rw [offset, Proc.mem_withMem, memStack, Memory.loadAs_storeAs, UInt64.toNat_zero]
    dsimp only
    refine ⟨⟨?_, ?_, Proc.owns_of_granted hgrant rfl, ?_, ?_⟩, hzero _⟩
    · rw [Proc.mem_withMem, memStack, Memory.loadAs_storeAs]
      exact hbase
    · rw [Proc.mem_withMem, memStack, Memory.loadAs_storeAs]
    · rw [hzero]
      exact Nat.zero_le _
    · rw [hzero, stackBase]
      simp only [sizeofMemStack, pageSize] at *
      omega

/-- A creation that returns a stack: the mapping is new, and nothing outside it has changed. -/
theorem stackCreate_cases (k : Kernel) (capacity : UInt64) (s : Proc) :
    stackCreate k capacity s = (NULL, s) ∨
    ∃ a s', k.mmap s.maps (stackMappingLen capacity) = some a ∧
      stackCreate k capacity s = (a, s') ∧ a ≠ NULL ∧
      s'.maps = ⟨a, a + pageRound (stackMappingLen capacity)⟩ :: s.maps ∧
      Set.EqOn s'.mem.byte s.mem.byte
        (Memory.range a (pageRound (stackMappingLen capacity)))ᶜ := by
  rw [stackCreate, Proc.mmap, ← stackMappingLen]
  cases hgrant : k.mmap s.maps (stackMappingLen capacity) with
  | none => exact .inl rfl
  | some a =>
    obtain ⟨hlen, hpos, -⟩ := k.mmap_spec hgrant
    refine .inr ⟨a, _, rfl, rfl, hpos.ne', rfl, fun x hx => ?_⟩
    -- the struct lies in the first page of the mapping
    have hpage : sizeofMemStack ≤ pageRound (stackMappingLen capacity) := by
      simp only [sizeofMemStack, pageRound, pageSize]
      omega
    have hstruct : x ∈ (Memory.range a sizeofMemStack)ᶜ :=
      Set.compl_subset_compl.mpr (Set.Ico_subset_Ico le_rfl (Nat.add_le_add_left hpage a)) hx
    exact (Memory.storeAs_eqOn _ _ _ hstruct).trans (Memory.fill_eqOn _ _ _ hx)

/-- The exact offset after a push. -/
def pushEnd (stack : ℕ) (size : UInt64) (a : Alignment) (s : Proc) : ℕ :=
  offset stack s + a.padding + size.toNat

/-- The memory after a push that passed the check. -/
def pushMem (stack : ℕ) (size padding : UInt64) (m : Memory) : Memory :=
  let st := memStack m stack
  let next := st.basePosition + st.currentOffset + padding
  let m := setCurrentOffset stack (st.currentOffset + padding) m
  let m := m.store (next - UInt64.ofNat sizeofMemStackHeader).toNat [padding.toUInt8]
  (setCurrentOffset stack ((memStack m stack).currentOffset + size) m).fill next.toNat size.toNat

/-- The address of the block of a push, as the code computes it. -/
def pushNext (stack : ℕ) (a : Alignment) (s : Proc) : ℕ :=
  ((memStack s.mem stack).basePosition.toNat + offset stack s + a.padding) % 2 ^ 64

/-- The byte of its header and the block of a push can be accessed. -/
def PushMapped (stack : ℕ) (size : UInt64) (a : Alignment) (s : Proc) : Prop :=
  s.Mapped ((pushNext stack a s + (2 ^ 64 - sizeofMemStackHeader)) % 2 ^ 64) 1 ∧
    s.Mapped (pushNext stack a s) size.toNat

instance (stack : ℕ) (size : UInt64) (a : Alignment) (s : Proc) :
    Decidable (PushMapped stack size a s) :=
  inferInstanceAs (Decidable (_ ∧ _))

/-- What a push with the padding at hand can do: be refused, leave what is mapped, or return. -/
theorem pushPadded_eq (stack : ℕ) (size padding : UInt64) (s : Proc) :
    let st := memStack s.mem stack
    let next := st.basePosition + st.currentOffset + padding
    pushPadded stack size padding s =
      if st.currentOffset + padding + size > st.capacity then .ok (NULL, s)
      else if s.Mapped (next - UInt64.ofNat sizeofMemStackHeader).toNat 1 ∧
          s.Mapped next.toNat size.toNat then
        .ok (next.toNat, s.withMem (pushMem stack size padding s.mem))
      else .error .fault := by
  intro st next
  rw [pushPadded]
  split
  · rfl
  by_cases hheader : s.Mapped (next - UInt64.ofNat sizeofMemStackHeader).toNat 1
  · have hwrite : ∀ m bs, bs.length = 1 →
        (s.withMem m).write (next - UInt64.ofNat sizeofMemStackHeader).toNat bs =
          .ok (s.withMem (m.store (next - UInt64.ofNat sizeofMemStackHeader).toNat bs)) := by
      intro m bs hbs
      rw [Proc.write, hbs, if_pos (by exact hheader)]
      rfl
    dsimp only
    rw [hwrite _ _ rfl, Except.ok_bind, Proc.memSet]
    by_cases hblock : s.Mapped next.toNat size.toNat
    · rw [if_pos (by exact hblock), if_pos ⟨hheader, hblock⟩]
      rfl
    · rw [if_neg (by exact hblock), if_neg fun h => hblock h.2]
      rfl
  · dsimp only
    rw [Proc.write, List.length_singleton, if_neg (by exact hheader), if_neg fun h => hheader h.1]
    rfl

/-- With the padding at hand nothing is divided. -/
theorem pushPadded_ne_divisionByZero (stack : ℕ) (size padding : UInt64) (s : Proc) :
    pushPadded stack size padding s ≠ .error (.undefined .divisionByZero) := by
  rw [pushPadded_eq]
  split
  · nofun
  split
  · nofun
  · nofun

/-- What a push can do: be refused and change nothing, or pass the check on the wrapped sum. Then it
returns if its header and its block are mapped. -/
theorem stackPushAlign_cases (stack : ℕ) (size : UInt64) (a : Alignment) (s : Proc) :
    ((memStack s.mem stack).capacity.toNat < pushEnd stack size a s % 2 ^ 64 ∧
      stackPushAlign stack size a.value s = .ok (NULL, s)) ∨
    (pushEnd stack size a s % 2 ^ 64 ≤ (memStack s.mem stack).capacity.toNat ∧
      ((¬ PushMapped stack size a s ∧ stackPushAlign stack size a.value s = .error .fault) ∨
      (PushMapped stack size a s ∧ ∃ padding, padding.toNat = a.padding ∧
        stackPushAlign stack size a.value s =
          .ok (pushNext stack a s, s.withMem (pushMem stack size padding s.mem))))) := by
  obtain ⟨padding, hpad, hpush⟩ := stackPushAlign_eq stack size a s
  -- the two sums of the source, each wrapped once
  have hsum : ((memStack s.mem stack).currentOffset + padding + size).toNat =
      pushEnd stack size a s % 2 ^ 64 := by
    rw [UInt64.toNat_add, UInt64.toNat_add, hpad, pushEnd, offset, Nat.mod_add_mod]
  have hnext : ((memStack s.mem stack).basePosition + (memStack s.mem stack).currentOffset +
      padding).toNat = pushNext stack a s := by
    rw [UInt64.toNat_add, UInt64.toNat_add, hpad, Nat.mod_add_mod, pushNext, offset]
  have hheader : ((memStack s.mem stack).basePosition + (memStack s.mem stack).currentOffset +
      padding - UInt64.ofNat sizeofMemStackHeader).toNat =
        (pushNext stack a s + (2 ^ 64 - sizeofMemStackHeader)) % 2 ^ 64 := by
    rw [UInt64.toNat_sub, hnext, Nat.add_comm]
    rfl
  have heq := pushPadded_eq stack size padding s
  simp only [hheader, hnext, gt_iff_lt, UInt64.lt_iff_toNat_lt, hsum] at heq
  rw [hpush, heq]
  by_cases hgt : (memStack s.mem stack).capacity.toNat < pushEnd stack size a s % 2 ^ 64
  · exact .inl ⟨hgt, if_pos hgt⟩
  · right
    rw [if_neg hgt]
    refine ⟨Nat.not_lt.mp hgt, ?_⟩
    by_cases hmapped : PushMapped stack size a s
    · exact .inr ⟨hmapped, padding, hpad, if_pos hmapped⟩
    · exact .inl ⟨hmapped, if_neg hmapped⟩

/-- After the struct, a push that passed the check zeroes the block and writes the padding to the
byte where the header begins. -/
theorem byte_pushMem (size padding : UInt64) {x : ℕ} (hx : x ∉ Memory.range stack sizeofMemStack) :
    (pushMem stack size padding m).byte x =
      if x ∈ Memory.range ((memStack m stack).basePosition + (memStack m stack).currentOffset +
          padding).toNat size.toNat then 0
      else if x = ((memStack m stack).basePosition + (memStack m stack).currentOffset + padding -
          UInt64.ofNat sizeofMemStackHeader).toNat then padding.toUInt8
      else m.byte x := by
  rw [pushMem]
  split
  · next hblock => exact Memory.byte_fill_of_mem hblock
  · next hblock =>
    rw [Memory.byte_fill_of_notMem hblock, setCurrentOffset_eqOn _ _ _ hx]
    split
    · next hheader =>
      subst hheader
      exact Memory.byte_store_singleton _ _ _
    · next hheader =>
      rw [Memory.byte_store_of_notMem, setCurrentOffset_eqOn _ _ _ hx]
      rw [Set.mem_Ico, List.length_singleton]
      omega

/-- A push whose header begins after the struct sets the offset in the struct. -/
theorem memStack_pushMem (size padding : UInt64)
    (hheader : stackBase stack ≤ ((memStack m stack).basePosition +
      (memStack m stack).currentOffset + padding - UInt64.ofNat sizeofMemStackHeader).toNat)
    (hnext : stackBase stack ≤ ((memStack m stack).basePosition +
      (memStack m stack).currentOffset + padding).toNat) :
    memStack (pushMem stack size padding m) stack = { memStack m stack with
      currentOffset := (memStack m stack).currentOffset + padding + size } := by
  rw [stackBase] at hheader hnext
  rw [pushMem]
  dsimp only
  -- the stores of a push, from the last one back
  rw [memStack_eq_of_eqOn ((Memory.fill_eqOn _ _ _).mono
      (Memory.range_subset_compl (.inl hnext))), memStack_setCurrentOffset,
    memStack_eq_of_eqOn ((Memory.store_eqOn _ _ _).mono
      (Memory.range_subset_compl (.inl hheader))), memStack_setCurrentOffset]

namespace StackAt

variable {a : Alignment} {padding : UInt64}

/-- The address of the block of a push. -/
theorem toNat_next (hs : StackAt stack capacity s) (hpad : padding.toNat = a.padding)
    (haddr : stackBase stack + offset stack s + a.padding < 2 ^ 64) :
    ((memStack s.mem stack).basePosition + (memStack s.mem stack).currentOffset +
      padding).toNat = stackBase stack + offset stack s + a.padding := by
  rw [UInt64.toNat_add, UInt64.toNat_add, hs.base_eq, hpad, Nat.mod_add_mod, ← offset,
    Nat.mod_eq_of_lt haddr]

/-- The address of its header. -/
theorem toNat_header (hs : StackAt stack capacity s) (hpad : padding.toNat = a.padding)
    (haddr : stackBase stack + offset stack s + a.padding < 2 ^ 64) :
    ((memStack s.mem stack).basePosition + (memStack s.mem stack).currentOffset +
      padding - UInt64.ofNat sizeofMemStackHeader).toNat =
        stackBase stack + offset stack s + a.padding - sizeofMemStackHeader := by
  have hheader := a.sizeofMemStackHeader_le_padding
  have hnext := hs.toNat_next hpad haddr
  have hsize : (UInt64.ofNat sizeofMemStackHeader).toNat = sizeofMemStackHeader := rfl
  rw [UInt64.toNat_sub_of_le, hnext, hsize]
  rw [UInt64.le_iff_toNat_le, hnext, hsize]
  omega

/-- The address of the block as the code computes it does not wrap. -/
theorem pushNext_eq (hs : StackAt stack capacity s) (a : Alignment) :
    pushNext stack a s = stackBase stack + offset stack s + a.padding := by
  have hpadding := a.padding_le
  have hlt := hs.offset_lt
  rw [pushNext, hs.base_eq]
  exact Nat.mod_eq_of_lt (by omega)

/-- A push whose header and block are mapped ends before the last page, so its sums do not wrap. -/
theorem pushEnd_lt (hs : StackAt stack capacity s) {size : UInt64}
    (hmapped : PushMapped stack size a s) :
    stackBase stack + pushEnd stack size a s + 128 < 2 ^ 64 := by
  have hlt := hs.offset_lt
  have hlo := a.sizeofMemStackHeader_le_padding
  have hhi := a.padding_le
  obtain ⟨hheader, hblock⟩ := hmapped
  rw [hs.pushNext_eq a] at hheader hblock
  have hfirst := (hheader.bounds one_pos).2
  have hsize : 0 < size.toNat → stackBase stack + offset stack s + a.padding + size.toNat +
      pageSize ≤ 2 ^ 64 := fun hpos => (hblock.bounds hpos).2
  simp only [sizeofMemStackHeader, pageSize, pushEnd] at *
  omega

/-- A push that passes the check finds its header and its block mapped iff its sum does not wrap, if
the length that was mapped does not wrap either. -/
theorem pushMapped_iff (hs : StackAt stack capacity s) {size : UInt64}
    (hcap : capacity.toNat + sizeofMemStack < 2 ^ 64)
    (hle : pushEnd stack size a s % 2 ^ 64 ≤ capacity.toNat) :
    PushMapped stack size a s ↔ pushEnd stack size a s < 2 ^ 64 := by
  constructor
  · intro hmapped
    have hend := hs.pushEnd_lt hmapped
    omega
  · intro hend
    have hlt := hs.offset_lt
    have hlo := a.sizeofMemStackHeader_le_padding
    have hhi := a.padding_le
    rw [Nat.mod_eq_of_lt hend, pushEnd] at hle
    rw [PushMapped, hs.pushNext_eq a]
    refine ⟨hs.mapped hcap ?_ ?_, hs.mapped hcap ?_ ?_⟩
    all_goals
      simp only [sizeofMemStackHeader, stackBase] at *
      omega

end StackAt

/-- What a push that returns a block leaves behind: the offset is moved by padding and size, the
padding is in the byte where the header begins, the block is zero, and all else is as it was. -/
structure Pushed (stack : ℕ) (capacity : UInt64) (size : UInt64) (a : Alignment) (s : Proc) (p : ℕ)
    (s' : Proc) : Prop where
  pointer_eq : p = stackBase stack + offset stack s + a.padding
  stackAt : StackAt stack capacity s'
  offset_eq : offset stack s' = pushEnd stack size a s
  maps_eq : s'.maps = s.maps
  header_eq : s'.mem.byte (p - sizeofMemStackHeader) = UInt8.ofNat a.padding
  zeroed : ∀ x ∈ Memory.range p size.toNat, s'.mem.byte x = 0
  frame : ∀ x ∉ Memory.range stack sizeofMemStack, x ∉ Memory.range p size.toNat →
    x ≠ p - sizeofMemStackHeader → s'.mem.byte x = s.mem.byte x

namespace Pushed

variable {size : UInt64} {a : Alignment} {p : ℕ} {s' : Proc}

/-- Between the struct and the offset, and above the block, a push writes nothing. -/
theorem eqOn (h : Pushed stack capacity size a s p s') :
    Set.EqOn s'.mem.byte s.mem.byte (Memory.range stack sizeofMemStack ∪
      Set.Ico (stackBase stack + offset stack s) (p + size.toNat))ᶜ := by
  intro x hx
  have hp := h.pointer_eq
  have hheader := a.sizeofMemStackHeader_le_padding
  rw [Set.compl_union] at hx
  have hframe := hx.2
  rw [Set.mem_compl_iff, Set.mem_Ico] at hframe
  refine h.frame x hx.1 (fun hblock => ?_) fun hheaderAt => ?_
  · rw [Set.mem_Ico] at hblock
    omega
  · simp only [sizeofMemStackHeader] at *
    omega

/-- What a push leaves in a byte after the struct: what was there, a zero, or its padding in front
of the block. -/
theorem byte_cases (h : Pushed stack capacity size a s p s') {x : ℕ} (hx : stackBase stack ≤ x) :
    s'.mem.byte x = s.mem.byte x ∨ s'.mem.byte x = 0 ∨
      (x = p - sizeofMemStackHeader ∧ s'.mem.byte x = UInt8.ofNat a.padding) := by
  by_cases hblock : x ∈ Memory.range p size.toNat
  · exact .inr (.inl (h.zeroed x hblock))
  by_cases hheader : x = p - sizeofMemStackHeader
  · refine .inr (.inr ⟨hheader, ?_⟩)
    rw [hheader]
    exact h.header_eq
  · refine .inl (h.frame x (fun hstruct => ?_) hblock hheader)
    rw [Set.mem_Ico] at hstruct
    rw [stackBase] at hx
    omega

end Pushed

/-- What a push can do, in numbers: be refused and change nothing, pass the check on the wrapped sum
and leave what is mapped, or return a block within the capacity. -/
theorem StackAt.push_cases (hs : StackAt stack capacity s) (size : UInt64) (a : Alignment) :
    (capacity.toNat < pushEnd stack size a s % 2 ^ 64 ∧
      stackPushAlign stack size a.value s = .ok (NULL, s)) ∨
    (pushEnd stack size a s % 2 ^ 64 ≤ capacity.toNat ∧ ¬ PushMapped stack size a s ∧
      stackPushAlign stack size a.value s = .error .fault) ∨
    (pushEnd stack size a s ≤ capacity.toNat ∧ PushMapped stack size a s ∧
      ∃ p s', stackPushAlign stack size a.value s = .ok (p, s') ∧ p ≠ NULL ∧
        Pushed stack capacity size a s p s') := by
  have hcap := hs.capacity_eq
  have hbase := hs.base_eq
  obtain ⟨hgt, h⟩ | ⟨hle, ⟨hmapped, h⟩ | ⟨hmapped, padding, hpad, h⟩⟩ :=
    stackPushAlign_cases stack size a s
  · rw [hcap] at hgt
    exact .inl ⟨hgt, h⟩
  · rw [hcap] at hle
    exact .inr (.inl ⟨hle, hmapped, h⟩)
  refine .inr (.inr ?_)
  -- what is mapped does not wrap
  have hend := hs.pushEnd_lt hmapped
  have hlt : pushEnd stack size a s < 2 ^ 64 := by omega
  have haddr : stackBase stack + offset stack s + a.padding < 2 ^ 64 := by
    rw [pushEnd] at hend
    omega
  rw [hcap, Nat.mod_eq_of_lt hlt] at hle
  have hheader := a.sizeofMemStackHeader_le_padding
  have hnext := hs.toNat_next hpad haddr
  have hheaderAt := hs.toNat_header hpad haddr
  have hstruct : memStack (pushMem stack size padding s.mem) stack = { memStack s.mem stack with
      currentOffset := (memStack s.mem stack).currentOffset + padding + size } := by
    refine memStack_pushMem size padding ?_ ?_
    · rw [hheaderAt]
      omega
    · rw [hnext]
      omega
  have hoffset : offset stack (s.withMem (pushMem stack size padding s.mem)) =
      pushEnd stack size a s := by
    rw [offset, Proc.mem_withMem, hstruct]
    dsimp only
    rw [UInt64.toNat_add, UInt64.toNat_add, hpad, Nat.mod_add_mod]
    exact Nat.mod_eq_of_lt hlt
  rw [hs.pushNext_eq a] at h
  refine ⟨hle, hmapped, _, _, h, ?_, rfl, ⟨?_, ?_, hs.owns.of_maps_eq rfl, ?_, ?_⟩,
    hoffset, rfl, ?_, fun x hx => ?_, fun x hx hblock hheader' => ?_⟩
  · simp [stackBase, sizeofMemStack, NULL]
  · rw [Proc.mem_withMem, hstruct]
    exact hbase
  · rw [Proc.mem_withMem, hstruct]
    exact hcap
  · rw [hoffset]
    exact hle
  · rw [hoffset]
    exact hend
  · -- the block begins after the header, and the struct ends before it
    rw [Proc.mem_withMem, byte_pushMem, hnext, hheaderAt, if_neg, if_pos rfl, ← hpad]
    · rfl
    · rw [Set.mem_Ico]
      simp only [sizeofMemStackHeader] at *
      omega
    · rw [Set.mem_Ico]
      simp only [stackBase] at *
      omega
  · rw [Proc.mem_withMem, byte_pushMem, hnext, if_pos hx]
    rw [Set.mem_Ico] at hx ⊢
    simp only [stackBase] at *
    omega
  · rw [Proc.mem_withMem, byte_pushMem _ _ hx, hnext, hheaderAt, if_neg hblock, if_neg hheader']

/-- A push whose sum does not wrap returns, if the length that was mapped does not wrap either. -/
theorem StackAt.exists_push {s : Proc} (hs : StackAt stack capacity s) {size : UInt64}
    {a : Alignment} (hcap : capacity.toNat + sizeofMemStack < 2 ^ 64)
    (hlt : pushEnd stack size a s < 2 ^ 64) :
    ∃ out, stackPushAlign stack size a.value s = .ok out := by
  obtain ⟨-, h⟩ | ⟨hle, hmapped, -⟩ | ⟨-, -, p, s', h, -⟩ := hs.push_cases size a
  · exact ⟨_, h⟩
  · exact absurd ((hs.pushMapped_iff hcap hle).mpr hlt) hmapped
  · exact ⟨_, h⟩

/-- The two comparisons an address has to pass to be popped: it is below the end of the stack, and
below twice the base address. -/
def PopPasses (stack : ℕ) (capacity : UInt64) (p : ℕ) : Prop :=
  p < (stackBase stack + capacity.toNat) % 2 ^ 64 ∧ p < (stackBase stack + stackBase stack) % 2 ^ 64

/-- A pop in numbers: an address that passes the comparisons moves the offset back by the byte in
front of the header. -/
theorem StackAt.stackPop_eq (hs : StackAt stack capacity s) {p : ℕ} (hp : stackBase stack ≤ p)
    (hlt : p < 2 ^ 64) :
    (PopPasses stack capacity p → stackPop stack p s = s.withMem (setCurrentOffset stack
      (UInt64.ofNat p - (s.mem.byte (p - sizeofMemStackHeader)).toUInt64 -
        UInt64.ofNat (stackBase stack)) s.mem)) ∧
    (¬ PopPasses stack capacity p → stackPop stack p s = s) := by
  have hbase := hs.base_eq
  have hcap := hs.capacity_eq
  have hne : p ≠ NULL := by
    simp only [stackBase, sizeofMemStack, NULL] at *
    omega
  have hcurrent : (UInt64.ofNat p).toNat = p := UInt64.toNat_ofNat_of_lt' hlt
  have hword : (memStack s.mem stack).basePosition = UInt64.ofNat (stackBase stack) := by
    rw [← hbase, UInt64.ofNat_toNat]
  have hstart : (memStack s.mem stack).basePosition ≤ UInt64.ofNat p := by
    rw [UInt64.le_iff_toNat_le, hbase, hcurrent]
    exact hp
  have hheader : (UInt64.ofNat p - UInt64.ofNat sizeofMemStackHeader).toNat =
      p - sizeofMemStackHeader := by
    have hsize : (UInt64.ofNat sizeofMemStackHeader).toNat = sizeofMemStackHeader := rfl
    rw [UInt64.toNat_sub_of_le, hcurrent, hsize]
    rw [UInt64.le_iff_toNat_le, hcurrent, hsize]
    simp only [stackBase, sizeofMemStack, sizeofMemStackHeader] at *
    omega
  have hend : UInt64.ofNat p <
      (memStack s.mem stack).basePosition + (memStack s.mem stack).capacity ↔
        p < (stackBase stack + capacity.toNat) % 2 ^ 64 := by
    rw [UInt64.lt_iff_toNat_lt, hcurrent, UInt64.toNat_add, hbase, hcap]
  -- the source adds the base address to itself
  have htwice : UInt64.ofNat p ≥
      (memStack s.mem stack).basePosition + (memStack s.mem stack).basePosition ↔
        ¬ p < (stackBase stack + stackBase stack) % 2 ^ 64 := by
    rw [ge_iff_le, UInt64.le_iff_toNat_le, hcurrent, UInt64.toNat_add, hbase, Nat.not_lt]
  rw [hword] at hstart hend htwice
  rw [stackPop, if_neg hne]
  simp only [hword, hstart, hend, htwice, hheader, true_and]
  constructor
  · rintro ⟨hin, hbelow⟩
    rw [if_neg (not_not.mpr hin), if_neg (not_not.mpr hbelow)]
  · intro hrefused
    by_cases hin : p < (stackBase stack + capacity.toNat) % 2 ^ 64
    · rw [if_neg (not_not.mpr hin), if_pos fun hbelow => hrefused ⟨hin, hbelow⟩]
    · rw [if_pos hin]

/-- A pop of a block whose header is intact moves the offset back to where the padding of the block
begins, if its address passes the comparisons. -/
theorem StackAt.pop_cases (hs : StackAt stack capacity s) {before pad : ℕ} (hpad : pad ≤ 128)
    (haddr : stackBase stack + before + pad < 2 ^ 64)
    (hbyte : s.mem.byte (stackBase stack + before + pad - sizeofMemStackHeader) =
      UInt8.ofNat pad) :
    (PopPasses stack capacity (stackBase stack + before + pad) ∧
      stackPop stack (stackBase stack + before + pad) s =
        s.withMem (setCurrentOffset stack (UInt64.ofNat before) s.mem)) ∨
    (¬ PopPasses stack capacity (stackBase stack + before + pad) ∧
      stackPop stack (stackBase stack + before + pad) s = s) := by
  obtain ⟨hpasses, hrefused⟩ :=
    hs.stackPop_eq (Nat.le_trans (Nat.le_add_right _ before) (Nat.le_add_right _ pad)) haddr
  have hundo : UInt64.ofNat (stackBase stack + before + pad) - (UInt8.ofNat pad).toUInt64 -
      UInt64.ofNat (stackBase stack) = UInt64.ofNat before := by
    have hwide : (UInt8.ofNat pad).toUInt64.toNat = pad := by
      rw [UInt8.toNat_toUInt64, UInt8.toNat_ofNat', Nat.mod_eq_of_lt (by omega)]
    apply UInt64.toNat_inj.mp
    simp only [UInt64.toNat_sub, UInt64.toNat_ofNat', hwide]
    omega
  by_cases h : PopPasses stack capacity (stackBase stack + before + pad)
  · refine .inl ⟨h, ?_⟩
    rw [hpasses h, hbyte, hundo]
  · exact .inr ⟨h, hrefused h⟩

end StackAt

end AgentResources
