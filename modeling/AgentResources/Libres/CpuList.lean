import AgentResources.Foundations.LineScan
import AgentResources.Libres.CpuReadable

/-!
# Lists of CPUs

The kernel writes the enabled CPUs as a list of ids and ranges, `0-3,5`. `CpuList` is such a list,
with the ids it denotes, and `text` is how it is written. `cpu_get_cores_enabled_arm` takes the
greatest number in the text for the core count, and the last path that
`cpu_read_enabled_core_cpu_frequency` builds from the count is then that of the greatest id.

## Main results

* `coreNumbers_text`: the numbers of the text are the bounds of its items;
* `cpuGetCoresEnabledArm_cores_iff`: the core count is the number of ids iff exactly one id below an
  enabled one is missing, or there is none;
* `freqPath_enabled_iff`: the path names an enabled CPU iff there is one and none is above 126.
-/

namespace AgentResources

variable {h : Host} {out out' : SysCpu}

/-- An item of a list of CPUs. -/
inductive CpuItem
  /-- `a` -/
  | id (a : ℕ)
  /-- `a-b` -/
  | range (a b : ℕ)

namespace CpuItem

/-- The first and the last id, as they are written. -/
def bounds : CpuItem → List ℕ
  | id a => [a]
  | range a b => [a, b]

/-- The ids an item denotes. -/
def ids : CpuItem → List ℕ
  | id a => [a]
  | range a b => List.range' a (b + 1 - a)

/-- The item as the kernel writes it. -/
def text : CpuItem → List UInt8
  | id a => Scanf.digits a
  | range a b => Scanf.digits a ++ 45 :: Scanf.digits b

/-- Items with commas between them. -/
def joined : List CpuItem → List UInt8
  | [] => []
  | [item] => item.text
  | item :: next :: items => item.text ++ 44 :: joined (next :: items)

end CpuItem

/-- A well-formed list of CPUs. -/
structure CpuList where
  items : List CpuItem
  range_le : ∀ a b, .range a b ∈ items → a ≤ b
  increasing : (items.flatMap CpuItem.ids).Pairwise (· < ·)

namespace CpuList

variable (l : CpuList)

/-- The ids a list denotes. -/
def ids : List ℕ := l.items.flatMap CpuItem.ids

/-- The list as the kernel writes it. -/
def text : List UInt8 := CpuItem.joined l.items

end CpuList

/-! ## The numbers of the text -/

/-- A number that ends is the first of the text. -/
theorem numbers_digits_append (n : ℕ) {rest : List UInt8} (hrest : ∀ c ∈ rest.head?, ¬ isDigit c) :
    numbers (Scanf.digits n ++ rest) = n :: numbers rest := by
  rw [numbers_run_append (fun _ => Scanf.isDigit_of_mem_digits) (Scanf.digits_ne_nil n) hrest,
    Scanf.ofDigits_digits]

theorem numbers_item_append (item : CpuItem) {rest : List UInt8}
    (hrest : ∀ c ∈ rest.head?, ¬ isDigit c) :
    numbers (item.text ++ rest) = item.bounds ++ numbers rest := by
  cases item with
  | id a => exact numbers_digits_append a hrest
  | range a b =>
    have hdash : ∀ c ∈ (45 :: (Scanf.digits b ++ rest)).head?, ¬ isDigit c := by
      intro c hc
      obtain rfl := Option.some.inj hc
      decide
    rw [CpuItem.text, List.append_assoc, List.cons_append, numbers_digits_append a hdash,
      numbers_cons_of_not (by decide), numbers_digits_append b hrest]
    rfl

theorem numbers_joined_append (items : List CpuItem) {rest : List UInt8}
    (hrest : ∀ c ∈ rest.head?, ¬ isDigit c) :
    numbers (CpuItem.joined items ++ rest) = items.flatMap CpuItem.bounds ++ numbers rest := by
  induction items with
  | nil => rfl
  | cons item items ih =>
    cases items with
    | nil => simpa [CpuItem.joined] using numbers_item_append item hrest
    | cons next items =>
      have hcomma : ∀ c ∈ (44 :: (CpuItem.joined (next :: items) ++ rest)).head?, ¬ isDigit c := by
        intro c hc
        obtain rfl := Option.some.inj hc
        decide
      rw [CpuItem.joined, List.append_assoc, List.cons_append, numbers_item_append item hcomma,
        numbers_cons_of_not (by decide), ih]
      simp only [List.flatMap_cons, List.append_assoc]

/-- The bytes of a list of CPUs. -/
def IsListByte (c : UInt8) : Prop := isDigit c ∨ c = 45 ∨ c = 44

theorem isListByte_of_mem_text {item : CpuItem} {c : UInt8} (hc : c ∈ item.text) :
    IsListByte c := by
  cases item with
  | id a => exact .inl (Scanf.isDigit_of_mem_digits hc)
  | range a b =>
    rw [CpuItem.text, List.mem_append, List.mem_cons] at hc
    rcases hc with hc | rfl | hc
    · exact .inl (Scanf.isDigit_of_mem_digits hc)
    · exact .inr (.inl rfl)
    · exact .inl (Scanf.isDigit_of_mem_digits hc)

theorem isListByte_of_mem_joined {items : List CpuItem} {c : UInt8}
    (hc : c ∈ CpuItem.joined items) : IsListByte c := by
  induction items with
  | nil => cases hc
  | cons item items ih =>
    cases items with
    | nil => exact isListByte_of_mem_text hc
    | cons next items =>
      rw [CpuItem.joined, List.mem_append, List.mem_cons] at hc
      rcases hc with hc | rfl | hc
      · exact isListByte_of_mem_text hc
      · exact .inr (.inr rfl)
      · exact ih hc

/-- What the kernel writes: the list, and a newline or not. -/
structure CpuFile (l : CpuList) (text : List UInt8) : Prop where
  eq : ∃ eol ∈ [[], [Stream.newline]], text = l.text ++ eol

variable {l : CpuList} {text : List UInt8}

/-- A text that fits the buffer is read whole. -/
theorem CpuFile.takeLine (hl : CpuFile l text) (hlen : text.length < 256) :
    cstr (Stream.takeLine (buffDefault - 1) text).1 = text := by
  obtain ⟨eol, heol, rfl⟩ := hl.eq
  -- the text has neither a zero nor a newline, so all of it is one line
  have hbyte : ∀ c ∈ l.text, c ≠ 0 ∧ c ≠ Stream.newline := by
    intro c hc
    have hlist : IsListByte c := isListByte_of_mem_joined hc
    constructor
    · rintro rfl
      exact absurd hlist (by unfold IsListByte; decide)
    · rintro rfl
      exact absurd hlist (by unfold IsListByte; decide)
  have hline : Stream.IsLine (l.text ++ eol) [] := by
    refine ⟨fun hmem => ?_, .inr rfl⟩
    rcases List.mem_pair.mp heol with rfl | rfl
    · rw [List.append_nil] at hmem
      exact (hbyte _ (List.dropLast_subset _ hmem)).2 rfl
    · rw [List.dropLast_concat] at hmem
      exact (hbyte _ hmem).2 rfl
  have hle : (l.text ++ eol).length ≤ buffDefault - 1 := Nat.le_sub_one_of_lt hlen
  have hread := hline.takeLine_append (buffDefault - 1)
  rw [List.append_nil, List.take_of_length_le hle] at hread
  rw [hread]
  refine cstr_of_notMem fun hmem => ?_
  rcases List.mem_append.mp hmem with hmem | hmem
  · exact (hbyte _ hmem).1 rfl
  · rcases List.mem_pair.mp heol with rfl | rfl
    · cases hmem
    · exact absurd hmem (by decide)

/-- The numbers of the text are the bounds of its items. -/
theorem coreNumbers_text (hl : CpuFile l text) (hlen : text.length < 256) :
    coreNumbers text = l.items.flatMap CpuItem.bounds := by
  rw [coreNumbers, hl.takeLine hlen]
  obtain ⟨eol, heol, rfl⟩ := hl.eq
  rcases List.mem_pair.mp heol with rfl | rfl
  · rw [CpuList.text, numbers_joined_append _ (by simp)]
    exact List.append_nil _
  · have hnewline : ∀ c ∈ [Stream.newline].head?, ¬ isDigit c := by
      intro c hc
      obtain rfl := Option.some.inj hc
      decide
    rw [CpuList.text, numbers_joined_append _ hnewline]
    exact List.append_nil _

/-! ## The greatest id -/

theorem CpuItem.forall_bounds_iff {item : CpuItem} (hle : ∀ a b, item = .range a b → a ≤ b)
    {m : ℕ} : (∀ n ∈ item.bounds, n ≤ m) ↔ ∀ n ∈ item.ids, n ≤ m := by
  cases item with
  | id a => exact Iff.rfl
  | range a b =>
    have hab := hle a b rfl
    simp only [CpuItem.bounds, CpuItem.ids, List.mem_range'_1, List.forall_mem_cons]
    constructor
    · rintro ⟨-, hb, -⟩ n hn
      omega
    · intro hall
      exact ⟨hall a (by omega), hall b (by omega), by simp⟩

/-- The bounds of the items are below what the ids are below. -/
theorem CpuList.forall_bounds_iff (l : CpuList) {m : ℕ} :
    (∀ n ∈ l.items.flatMap CpuItem.bounds, n ≤ m) ↔ ∀ n ∈ l.ids, n ≤ m := by
  rw [CpuList.ids, List.forall_mem_flatMap, List.forall_mem_flatMap]
  refine forall₂_congr fun item hitem => CpuItem.forall_bounds_iff fun a b hab => ?_
  exact l.range_le a b (hab ▸ hitem)

namespace CpuList

/-- The greatest id. -/
def greatest (l : CpuList) : ℕ := l.ids.foldl max 0

theorem greatest_le {m : ℕ} : l.greatest ≤ m ↔ ∀ n ∈ l.ids, n ≤ m := by
  rw [greatest, foldl_max_le_iff]
  exact and_iff_right (Nat.zero_le m)

theorem greatest_mem (hne : l.ids ≠ []) : l.greatest ∈ l.ids := by
  obtain ⟨n, hn⟩ := List.exists_mem_of_ne_nil _ hne
  by_contra hmem
  -- otherwise all ids are below a smaller bound
  have hlt : ∀ n ∈ l.ids, n < l.greatest := fun n hn =>
    lt_of_le_of_ne (greatest_le.mp le_rfl n hn) fun h => hmem (h ▸ hn)
  have hle : l.greatest ≤ l.greatest - 1 :=
    greatest_le.mpr fun n hn => Nat.le_sub_one_of_lt (hlt n hn)
  have := hlt n hn
  omega

/-- The ids are as many as the greatest of them says iff exactly one below it is missing. -/
theorem length_eq_greatest_iff (hne : l.ids ≠ []) :
    l.greatest = l.ids.length ↔ ∃! i, i ∉ l.ids ∧ ∃ j ∈ l.ids, i < j := by
  have hnodup : l.ids.Nodup := l.increasing.imp ne_of_lt
  have hsub : l.ids.toFinset ⊆ Finset.range (l.greatest + 1) := by
    intro n hn
    rw [Finset.mem_range, Nat.lt_succ_iff]
    exact greatest_le.mp le_rfl n (List.mem_toFinset.mp hn)
  -- the ids that are missing are what is left of the numbers up to the greatest id
  have hmissing : ∀ i, i ∈ Finset.range (l.greatest + 1) \ l.ids.toFinset ↔
      i ∉ l.ids ∧ ∃ j ∈ l.ids, i < j := by
    intro i
    rw [Finset.mem_sdiff, Finset.mem_range, List.mem_toFinset, Nat.lt_succ_iff]
    constructor
    · rintro ⟨hle, hi⟩
      refine ⟨hi, l.greatest, greatest_mem hne, lt_of_le_of_ne hle ?_⟩
      rintro rfl
      exact hi (greatest_mem hne)
    · rintro ⟨hi, j, hj, hlt⟩
      exact ⟨hlt.le.trans (greatest_le.mp le_rfl j hj), hi⟩
  have hcard : (Finset.range (l.greatest + 1) \ l.ids.toFinset).card =
      l.greatest + 1 - l.ids.length := by
    rw [Finset.card_sdiff_of_subset hsub, Finset.card_range, List.toFinset_card_of_nodup hnodup]
  have hle : l.ids.length ≤ l.greatest + 1 := by
    have := Finset.card_le_card hsub
    rwa [Finset.card_range, List.toFinset_card_of_nodup hnodup] at this
  calc l.greatest = l.ids.length
      ↔ (Finset.range (l.greatest + 1) \ l.ids.toFinset).card = 1 := by
        rw [hcard]
        omega
    _ ↔ ∃! i, i ∈ Finset.range (l.greatest + 1) \ l.ids.toFinset := by
        rw [Finset.card_eq_one_iff_existsUnique]
    _ ↔ ∃! i, i ∉ l.ids ∧ ∃ j ∈ l.ids, i < j := existsUnique_congr hmissing

end CpuList

/-- The greatest number in the text is the greatest id. -/
theorem lastCore_eq (hfile : h.file .cpuEnabled = some text) (hl : CpuFile l text)
    (hlen : text.length < 256) : lastCore h = l.greatest := by
  refine eq_of_forall_ge_iff fun m => ?_
  simp only [lastCore, hfile]
  rw [coreNumbers_text hl hlen, foldl_max_le_iff, and_iff_right (Nat.zero_le m),
    l.forall_bounds_iff, CpuList.greatest_le]

/-! ## The core count -/

/-- The file is readable iff it is not empty and its ids are in an `int`. -/
theorem coresReadable_iff (hfile : h.file .cpuEnabled = some text) (hl : CpuFile l text)
    (hlen : text.length < 256) :
    CoresReadable h (2 ^ 31 - 1) ↔ text ≠ [] ∧ ∀ i ∈ l.ids, i < 2 ^ 31 := by
  simp only [CoresReadable, hfile, Option.some.injEq, exists_eq_left', coreNumbers_text hl hlen,
    l.forall_bounds_iff]
  refine and_congr_right fun _ => forall₂_congr fun i _ => ?_
  exact Nat.le_sub_one_iff_lt (by decide)

/-- The core count that is left is the greatest number that was read. -/
theorem cores_eq_lastCore (hout : cpuGetCoresEnabledArm h out = .ok (errOk, out')) :
    out'.cores.toNat = lastCore h := by
  obtain ⟨-, rfl, hlt⟩ := cpuGetCoresEnabledArm_returns.2 _ hout
  dsimp only
  rw [UInt32.toNat_ofNat', Nat.mod_eq_of_lt (by omega)]

/-- The core count is the number of ids iff the file is not empty, all ids are in an `int`, and
exactly one id below an enabled one is missing or none is enabled. -/
theorem cpuGetCoresEnabledArm_cores_iff (h : Host) (out : SysCpu) (l : CpuList) (text : List UInt8)
    (hfile : h.file .cpuEnabled = some text) (hl : CpuFile l text) (hlen : text.length < 256) :
    (∃ out', cpuGetCoresEnabledArm h out = .ok (errOk, out') ∧
        out'.cores.toNat = l.ids.length) ↔
      text ≠ [] ∧ (∀ i ∈ l.ids, i < 2 ^ 31) ∧
        (l.ids = [] ∨ ∃! i, i ∉ l.ids ∧ ∃ j ∈ l.ids, i < j) := by
  have hcount : l.greatest = l.ids.length ↔
      l.ids = [] ∨ ∃! i, i ∉ l.ids ∧ ∃ j ∈ l.ids, i < j := by
    by_cases hnil : l.ids = []
    · rw [CpuList.greatest, hnil]
      exact iff_of_true rfl (.inl rfl)
    · rw [CpuList.length_eq_greatest_iff hnil, or_iff_right hnil]
  have hreturns : Except.Returns (cpuGetCoresEnabledArm h out) _ _ := cpuGetCoresEnabledArm_returns
  rw [← hcount, ← and_assoc, ← coresReadable_iff hfile hl hlen, ← hreturns.1,
    ← lastCore_eq hfile hl hlen]
  constructor
  · rintro ⟨out', hout, hcores⟩
    exact ⟨⟨_, hout⟩, (cores_eq_lastCore hout).symm.trans hcores⟩
  · rintro ⟨⟨⟨code, out'⟩, hout⟩, hlast⟩
    obtain ⟨rfl, -⟩ := hreturns.2 _ hout
    exact ⟨out', hout, (cores_eq_lastCore hout).trans hlast⟩

theorem cpuGetCoresEnabledArm_cores_iff_three :
    let l : CpuList := ⟨[.range 1 3], by simp, by decide⟩
    ∃ out', cpuGetCoresEnabledArm (hostOf (ascii "1-3\n")) SysCpu.zero = .ok (errOk, out') ∧
      out'.cores.toNat = l.ids.length := by
  intro l
  refine (cpuGetCoresEnabledArm_cores_iff (hostOf (ascii "1-3\n")) SysCpu.zero l _ rfl
    ⟨[Stream.newline], by decide, by decide⟩ (by decide)).mpr ⟨by decide, by decide, .inr ?_⟩
  -- zero is the one id that is missing
  refine ⟨0, ⟨by decide, 1, by decide, by decide⟩, ?_⟩
  rintro i ⟨hi, j, hj, hlt⟩
  have hj' : j ∈ [1, 2, 3] := hj
  have hi' : i ∉ [1, 2, 3] := hi
  simp only [List.mem_cons, List.not_mem_nil, or_false] at hj' hi'
  omega

/-- Four CPUs from zero on are counted as three. -/
theorem not_cpuGetCoresEnabledArm_cores :
    ¬ ∀ (h : Host) (out : SysCpu) (l : CpuList) (text : List UInt8),
      h.file .cpuEnabled = some text → CpuFile l text → text.length < 256 →
      ∃ out', cpuGetCoresEnabledArm h out = .ok (errOk, out') ∧
        out'.cores.toNat = l.ids.length := by
  intro hall
  obtain ⟨out', hout, hcores⟩ := hall (hostOf (ascii "0-3\n")) SysCpu.zero
    ⟨[.range 0 3], by simp, by decide⟩ _ rfl ⟨[Stream.newline], by decide, by decide⟩ (by decide)
  have hlast : lastCore (hostOf (ascii "0-3\n")) = 3 := by decide +kernel
  rw [cores_eq_lastCore hout, hlast] at hcores
  exact absurd hcores (by decide)

/-! ## The path of the last core -/

/-- More rounds than it takes change nothing. -/
theorem freqPath_add {count i : ℤ} {fuel : ℕ} {path out : Option Path}
    (hpath : freqPath count fuel i path = .ok out) (k : ℕ) :
    freqPath count (fuel + k) i path = .ok out := by
  induction fuel generalizing i path with
  | zero => cases hpath
  | succ fuel ih =>
    rw [freqPath] at hpath
    rw [Nat.succ_add, freqPath]
    split
    · next hle =>
      rw [if_pos hle] at hpath
      exact ih hpath
    · next hgt =>
      rw [if_neg hgt] at hpath
      exact hpath

/-- The frequency is read from the file of an enabled CPU. -/
def OpensEnabled (count : ℤ) (ids : List ℕ) : Prop :=
  ∃ fuel, ∃ i ∈ ids, freqPath count fuel 0 none = .ok (some (.scalingCurFreq i))

/-- The loop ends with an enabled CPU iff the count is one, and the counter can pass it. -/
theorem opensEnabled_iff {core : ℕ} {ids : List ℕ} :
    OpensEnabled core ids ↔ core ∈ ids ∧ core ≤ 126 := by
  constructor
  · rintro ⟨fuel, i, hi, hpath⟩
    rcases Nat.lt_or_ge 126 core with hbig | hle
    · rw [freqPath_hang (by omega) (by omega)] at hpath
      cases hpath
    · have hlast := freqPath_add hpath 129
      rw [freqPath_eq (by omega) le_rfl (by omega) (by omega), if_pos (by omega)] at hlast
      obtain rfl : core = i := by simpa using hlast
      exact ⟨hi, hle⟩
  · rintro ⟨hcore, hle⟩
    refine ⟨129, core, hcore, ?_⟩
    rw [freqPath_eq (by omega) le_rfl (by omega) (by omega), if_pos (by omega)]

/-- For the core count of a list, the path names an enabled CPU iff the greatest number that was
read is one and at most 126; for a list that fits the buffer, iff there is one and none is above
126. -/
theorem freqPath_enabled_iff (h : Host) (out out' : SysCpu) (l : CpuList) (text : List UInt8)
    (hfile : h.file .cpuEnabled = some text) (hl : CpuFile l text)
    (hout : cpuGetCoresEnabledArm h out = .ok (errOk, out')) :
    (OpensEnabled out'.cores.toNat l.ids ↔ lastCore h ∈ l.ids ∧ lastCore h ≤ 126) ∧
    (text.length < 256 →
      (OpensEnabled out'.cores.toNat l.ids ↔ l.ids ≠ [] ∧ ∀ i ∈ l.ids, i ≤ 126)) := by
  rw [cores_eq_lastCore hout, opensEnabled_iff]
  refine ⟨Iff.rfl, fun hlen => ?_⟩
  rw [lastCore_eq hfile hl hlen, ← CpuList.greatest_le]
  refine and_congr_left fun _ => ?_
  exact ⟨List.ne_nil_of_mem, CpuList.greatest_mem⟩

theorem freqPath_enabled_iff_gap :
    let l : CpuList := ⟨[.id 0, .range 2 3], by simp, by decide⟩
    ∃ out', cpuGetCoresEnabledArm (hostOf (ascii "0,2-3\n")) SysCpu.zero = .ok (errOk, out') ∧
      OpensEnabled out'.cores.toNat l.ids := by
  intro l
  refine ⟨{ SysCpu.zero with cores := 3 }, rfl, ?_⟩
  exact ((freqPath_enabled_iff (hostOf (ascii "0,2-3\n")) SysCpu.zero _ l _ rfl
    ⟨[Stream.newline], by decide, by decide⟩ rfl).2 (by decide)).mpr ⟨by decide, by decide⟩

/-- With 128 CPUs the loop does not end. -/
theorem not_freqPath_enabled :
    ¬ ∀ (h : Host) (out out' : SysCpu) (l : CpuList) (text : List UInt8),
      h.file .cpuEnabled = some text → CpuFile l text →
      cpuGetCoresEnabledArm h out = .ok (errOk, out') → OpensEnabled out'.cores.toNat l.ids := by
  intro hall
  have hopens := hall (hostOf (ascii "0-127\n")) SysCpu.zero { SysCpu.zero with cores := 127 }
    ⟨[.range 0 127], by simp, by decide +kernel⟩ _ rfl ⟨[Stream.newline], by decide, by decide⟩ rfl
  exact absurd (opensEnabled_iff.mp hopens).2 (by decide)

end AgentResources
