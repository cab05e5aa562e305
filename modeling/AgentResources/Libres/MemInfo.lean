import AgentResources.Base.TextScan
import AgentResources.Foundations.LineScan
import AgentResources.Libres.Ram

/-!
# The two sizes of the memory

`sys_ram_read` takes two numbers out of `/proc/meminfo`. A text that gives each of them once, in
whatever order and among whatever other lines, is read as it says (`sysRamRead_sizes`). A text that
misses one, or repeats them until the scratch arena is full, is not: then the reader goes on with
what it never set (`sysRamRead_defined_iff`).
-/

namespace AgentResources

/-! ## Lines with a size -/

/-- A line that gives a size in kB for a key, whatever follows. -/
def SizeLine (key : String) (n : ℕ) (line : List UInt8) : Prop :=
  ∃ blanks run rest, (∀ b ∈ blanks, b = 32) ∧ run ≠ [] ∧ (∀ c ∈ run, isDigit c) ∧
    Scanf.ofDigits run = n ∧ line = ascii key ++ 58 :: (blanks ++ run ++ ascii " kB" ++ rest)

/-- One line gives a size for the key, and no other begins with it. -/
def OnlySizeLine (key : String) (n : ℕ) (text : List UInt8) : Prop :=
  ∃ pre line post, Stream.lines text = pre ++ line :: post ∧ SizeLine key n line ∧
    ∀ other ∈ pre ++ post, ¬ ascii key <+: other

variable {key : String} {n : ℕ} {line text : List UInt8}

theorem kB_eq : ascii " kB" = [32, 107, 66] := by decide

/-- The value of such a line is its number and a blank. -/
theorem lineValue_size {blanks run rest : List UInt8} (hkey : 58 ∉ ascii key)
    (hzero : 0 ∉ ascii key) (hblanks : ∀ b ∈ blanks, b = 32) (hne : run ≠ [])
    (hrun : ∀ c ∈ run, isDigit c) :
    lineValue [32] [107, 10] key (ascii key ++ 58 :: (blanks ++ run ++ ascii " kB" ++ rest)) =
      some (run ++ [32]) := by
  obtain ⟨tail, htail⟩ : ∃ tail, tail = run ++ 32 :: 107 :: cstr (66 :: rest) := ⟨_, rfl⟩
  have hrunZero : (0 : UInt8) ∉ run := fun h => absurd (hrun 0 h) (by decide)
  -- no byte up to the end of the number is zero
  have hcstr : cstr (ascii key ++ 58 :: (blanks ++ run ++ ascii " kB" ++ rest)) =
      ascii key ++ 58 :: (blanks ++ tail) := by
    have hpre : (0 : UInt8) ∉ ascii key ++ 58 :: (blanks ++ run ++ [32, 107]) := by
      simp only [List.mem_append, List.mem_cons, not_or]
      refine ⟨hzero, by decide, ⟨⟨fun h => absurd (hblanks 0 h) (by decide), hrunZero⟩, ?_⟩⟩
      decide
    have hsplit : ascii key ++ 58 :: (blanks ++ run ++ ascii " kB" ++ rest) =
        (ascii key ++ 58 :: (blanks ++ run ++ [32, 107])) ++ 66 :: rest := by
      rw [kB_eq]
      simp only [List.append_assoc, List.cons_append, List.nil_append]
    rw [hsplit, cstr_append hpre, htail]
    simp only [List.append_assoc, List.cons_append, List.nil_append]
  have hafter : afterColon [32] (ascii key ++ 58 :: (blanks ++ tail)) = some tail := by
    refine afterColon_append hkey (fun b hb => List.mem_singleton.mpr (hblanks b hb)) ?_
    -- the tail begins with a digit
    obtain ⟨c, run, rfl⟩ := List.exists_cons_of_ne_nil hne
    intro b hb
    rw [htail] at hb
    obtain rfl : c = b := Option.some.inj hb
    rw [List.mem_singleton]
    rintro rfl
    exact absurd (hrun 32 List.mem_cons_self) (by decide)
  -- the `k` ends the value, and no digit does
  have hspan : spanUntil [107, 10] tail = run ++ [32] := by
    rw [htail, spanUntil_append]
    · simp [spanUntil]
    · intro c hc
      have hcut : c ≠ 107 ∧ c ≠ 10 := by
        constructor <;> rintro rfl <;> exact absurd (hrun _ hc) (by decide)
      simp [hcut]
  have hprefix : (ascii key).isPrefixOf (ascii key ++ 58 :: (blanks ++ tail)) := by simp
  rw [lineValue, hcstr, if_pos hprefix, hafter, Option.map_some, hspan]

/-- The number is parsed up to the blank behind it. -/
theorem parseU64_run {run : List UInt8} (hrun : ∀ c ∈ run, isDigit c) :
    parseU64 (run ++ [32]) (run ++ [32]).length = UInt64.ofNat (Scanf.ofDigits run) := by
  have hdigits : digitRun (run ++ [32]) (run ++ [32]).length = run := by
    rw [digitRun, List.take_length, List.takeWhile_append_of_pos hrun,
      List.takeWhile_cons_of_neg (by decide), List.append_nil]
  rw [parseU64_eq_ofDigits, hdigits]

/-! ## Reading the sizes -/

/-- On short lines the values for a key are those of the lines. -/
theorem meminfoValues_eq (hshort : Stream.ShortLines buffSmall text)
    (hkey : Stream.newline ∉ ascii key) :
    meminfoValues key text = (Stream.lines text).filterMap (lineValue [32] [107, 10] key) := by
  -- a newline ends every value, so that it may be cut off
  have hconcat : ∀ content : List UInt8,
      lineValue [32] [107, 10] key (content ++ [Stream.newline]) =
        lineValue [32] [107, 10] key content :=
    fun content => lineValue_concat (by decide) (by decide) hkey (by decide) (by decide)
  refine Stream.filterMap_chunks_of_short (by decide) hshort ?_ fun content _ =>
    (hconcat content).symm
  exact (hconcat []).trans (lineValue_of_afterColon_eq_none rfl _ _)

/-- The only value for a key is the number of its only line. -/
theorem OnlySizeLine.meminfoValues_eq (h : OnlySizeLine key n text)
    (hshort : Stream.ShortLines buffSmall text) (hnewline : Stream.newline ∉ ascii key)
    (hcolon : 58 ∉ ascii key) (hzero : 0 ∉ ascii key) :
    ∃ run, (∀ c ∈ run, isDigit c) ∧ Scanf.ofDigits run = n ∧
      meminfoValues key text = [run ++ [32]] := by
  obtain ⟨pre, line, post, hlines, ⟨blanks, run, rest, hblanks, hne, hrun, hn, rfl⟩, hother⟩ := h
  refine ⟨run, hrun, hn, ?_⟩
  -- the other lines have no value for the key
  have hnone : ∀ others ⊆ pre ++ post,
      others.filterMap (lineValue [32] [107, 10] key) = [] := by
    intro others hsub
    refine List.filterMap_eq_nil_iff.mpr fun other hmem => lineValue_of_not_prefix ?_
    rw [List.isPrefixOf_iff_prefix]
    exact hother other (hsub hmem)
  rw [AgentResources.meminfoValues_eq hshort hnewline, hlines, List.filterMap_append,
    List.filterMap_cons_some (lineValue_size hcolon hzero hblanks hne hrun),
    hnone pre (List.subset_append_left _ _), hnone post (List.subset_append_right _ _),
    List.nil_append]

/-- A value is no longer than a chunk. -/
theorem length_le_of_mem_meminfoValues {value : List UInt8} (h : value ∈ meminfoValues key text) :
    value.length ≤ buffSmall := by
  obtain ⟨chunk, hchunk, hvalue⟩ := List.mem_filterMap.mp h
  refine (length_lineValue_le hvalue).trans ((Stream.length_le_of_mem_chunks hchunk).trans ?_)
  exact Nat.sub_le _ _

/-- One line for either size gives one value for either key: the scratch arena has room for both,
and they are the sizes. -/
theorem OnlySizeLine.ramOf_eq {total free : ℕ} (htotal : OnlySizeLine "MemTotal" total text)
    (hfree : OnlySizeLine "MemFree" free text) (hshort : Stream.ShortLines buffSmall text) :
    (meminfoValues "MemTotal" text ≠ [] ∧ meminfoValues "MemFree" text ≠ [] ∧
      totalLength (meminfoValues "MemTotal" text) +
        totalLength (meminfoValues "MemFree" text) ≤ 8192) ∧
    ramOf text = ⟨UInt64.ofNat total, UInt64.ofNat free⟩ := by
  obtain ⟨runT, hrunT, rfl, hvaluesT⟩ :=
    htotal.meminfoValues_eq hshort (by decide) (by decide) (by decide)
  obtain ⟨runF, hrunF, rfl, hvaluesF⟩ :=
    hfree.meminfoValues_eq hshort (by decide) (by decide) (by decide)
  have hlenT : (runT ++ [32]).length ≤ buffSmall :=
    length_le_of_mem_meminfoValues (hvaluesT ▸ List.mem_singleton_self _)
  have hlenF : (runF ++ [32]).length ≤ buffSmall :=
    length_le_of_mem_meminfoValues (hvaluesF ▸ List.mem_singleton_self _)
  rw [ramOf, lastNumber, lastNumber, hvaluesT, hvaluesF, totalLength_singleton,
    totalLength_singleton]
  refine ⟨⟨List.cons_ne_nil _ _, List.cons_ne_nil _ _, ?_⟩, ?_⟩
  · -- there is room for two chunks
    exact (Nat.add_le_add hlenT hlenF).trans (by decide)
  · exact congrArg₂ SysMemory.mk (parseU64_run hrunT) (parseU64_run hrunF)

/-- A text with exactly one line for either size is read as it says. -/
theorem sysRamRead_sizes (h : Host) (out : ℕ) (s : Proc) (text : List UInt8) (total free : ℕ)
    (hne : out ≠ NULL) (hmaps : s.WellMapped) (hout : ∃ r ∈ s.maps, r.lo ≤ out ∧ out + 16 ≤ r.hi)
    (hfile : h.file .procMeminfo = some text)
    (hgrant : (h.mmap s.maps (mappingLen (KiB 8))).isSome)
    (hshort : Stream.ShortLines buffSmall text) (htotal : OnlySizeLine "MemTotal" total text)
    (hfree : OnlySizeLine "MemFree" free text) (htotalLt : total < 2 ^ 64)
    (hfreeLt : free < 2 ^ 64) :
    ∃ s', sysRamRead h out s = .ok (errOk, s') ∧
      (s'.mem.loadAs SysMemory out).total.toNat = total ∧
      (s'.mem.loadAs SysMemory out).free.toNat = free := by
  obtain ⟨hvalues, hram⟩ := htotal.ramOf_eq hfree hshort
  obtain ⟨hreturns, hresult⟩ := sysRamRead_returns hne hmaps hout (h := h)
  obtain ⟨⟨code, s'⟩, hread⟩ := hreturns.mpr ⟨text, hfile, hgrant, hvalues⟩
  obtain ⟨hcode, -, hload⟩ := hresult _ hread
  obtain rfl : code = errOk := hcode
  refine ⟨s', hread, ?_⟩
  rw [show s'.mem.loadAs SysMemory out = ramOf text from hload text hfile, hram]
  exact ⟨UInt64.toNat_ofNat_of_lt' htotalLt, UInt64.toNat_ofNat_of_lt' hfreeLt⟩

/-- Memory for the struct, and nothing else. -/
def structProc : Proc where
  mem := Proc.fresh.mem
  maps := [⟨64, 80⟩]

theorem wellMapped_struct : structProc.WellMapped := by
  intro r hr
  obtain rfl := List.mem_singleton.mp hr
  decide

/-- The two lines in the other order, among others. -/
def sampleMeminfo : List UInt8 :=
  ascii "Buffers: 7 kB\nMemFree:    8192 kB\nMemAvailable: 9000 kB\nMemTotal:   16384 kB\n"

theorem lines_sampleMeminfo : Stream.lines sampleMeminfo =
    [ascii "Buffers: 7 kB\n", ascii "MemFree:    8192 kB\n", ascii "MemAvailable: 9000 kB\n",
      ascii "MemTotal:   16384 kB\n"] := by
  decide +kernel

theorem sysRamRead_sizes_sample :
    ∃ s', sysRamRead (hostOf sampleMeminfo) 64 structProc = .ok (errOk, s') ∧
      (s'.mem.loadAs SysMemory 64).total.toNat = 16384 ∧
      (s'.mem.loadAs SysMemory 64).free.toNat = 8192 := by
  refine sysRamRead_sizes (hostOf sampleMeminfo) 64 structProc sampleMeminfo 16384 8192 (by decide)
    wellMapped_struct ⟨_, List.mem_singleton_self _, by decide, by decide⟩ rfl (by decide +kernel)
    ?_ ?_ ?_ (by decide) (by decide)
  · unfold Stream.ShortLines
    decide +kernel
  · refine ⟨[ascii "Buffers: 7 kB\n", ascii "MemFree:    8192 kB\n",
      ascii "MemAvailable: 9000 kB\n"], _, [], lines_sampleMeminfo,
      ⟨ascii "   ", ascii "16384", [10], ?_⟩, ?_⟩
    · decide +kernel
    · decide +kernel
  · refine ⟨[ascii "Buffers: 7 kB\n"], _, [ascii "MemAvailable: 9000 kB\n",
      ascii "MemTotal:   16384 kB\n"], lines_sampleMeminfo,
      ⟨ascii "    ", ascii "8192", [10], ?_⟩, ?_⟩
    · decide +kernel
    · decide +kernel

/-! ## Texts that miss a size -/

/-- A number that was found: the one of a chunk that begins with the key and has a colon. -/
def FoundIn (key : String) (text : List UInt8) (n : UInt64) : Prop :=
  ∃ chunk ∈ Stream.chunks buffSmall text, ∃ value,
    lineValue [32] [107, 10] key chunk = some value ∧ n = parseU64 value value.length

/-- The reader returns an error or takes both numbers from lines it found. -/
def RamDefined (h : Host) (out : ℕ) (s : Proc) : Prop :=
  sysRamRead h out s = .error .assertFailed ∨
    ∃ text s', h.file .procMeminfo = some text ∧ sysRamRead h out s = .ok (errOk, s') ∧
      FoundIn "MemTotal" text (s'.mem.loadAs SysMemory out).total ∧
      FoundIn "MemFree" text (s'.mem.loadAs SysMemory out).free

variable {h : Host} {out arena : ℕ} {s : Proc}

/-- The last number for a key was found, if any was. -/
theorem foundIn_lastNumber (hne : meminfoValues key text ≠ []) :
    FoundIn key text (lastNumber key text) := by
  have hlast := List.getLast?_eq_some_getLast hne
  obtain ⟨chunk, hchunk, hvalue⟩ := List.mem_filterMap.mp (List.getLast_mem hne)
  refine ⟨chunk, hchunk, _, hvalue, ?_⟩
  rw [lastNumber, hlast, Option.getD_some]

/-- Copying a value fails no assertion. -/
theorem copyToScratch_eq_error {value : List UInt8} {e : Halt}
    (he : copyToScratch arena value s = .error e) : e ≠ .assertFailed := by
  rw [copyToScratch, pushArray] at he
  rcases Except.bind_eq_error.mp he with halloc | ⟨r, -, he⟩
  · rw [arenaAlloc_eq_error halloc]
    decide
  · -- the block is the null pointer
    dsimp only at he
    split at he
    · rw [← Except.error.inj he]
      decide
    · cases he

theorem meminfoLine_eq_error {l : RamLocals} {chunk : List UInt8} {e : Halt}
    (he : meminfoLine arena l chunk = .error e) : e ≠ .assertFailed := by
  rw [meminfoLine_eq] at he
  -- either of the two copies may have failed
  rcases Except.bind_eq_error.mp he with he | ⟨l', -, he⟩
  · cases hvalue : lineValue [32] [107, 10] "MemTotal" chunk with
    | none =>
      rw [hvalue] at he
      cases he
    | some value =>
      rw [hvalue, Option.elim_some, setTotal] at he
      rcases Except.bind_eq_error.mp he with he | ⟨_, -, he⟩
      · exact copyToScratch_eq_error he
      · cases he
  · cases hvalue : lineValue [32] [107, 10] "MemFree" chunk with
    | none =>
      rw [hvalue] at he
      cases he
    | some value =>
      rw [hvalue, Option.elim_some, setFree] at he
      rcases Except.bind_eq_error.mp he with he | ⟨_, -, he⟩
      · exact copyToScratch_eq_error he
      · cases he

/-- Once the file is open no error is returned any more. -/
theorem sysRamRead_ne_assertFailed (hne : out ≠ NULL) (hfile : h.file .procMeminfo = some text) :
    sysRamRead h out s ≠ .error .assertFailed := by
  intro he
  rw [sysRamRead_of_file hne hfile] at he
  -- in the loop a copy fails, at its end a local was never set
  rcases Except.bind_eq_error.mp he with he | ⟨l, -, he⟩
  · have hbad : Halt.assertFailed ≠ .assertFailed :=
      Except.of_foldlM_eq_error (fun _ _ _ => meminfoLine_eq_error) he
    exact hbad rfl
  · unfold ramFinish at he
    split at he
    · cases he
    · cases he

/-- With the file open, the reader is defined iff the file is readable. -/
theorem ramDefined_iff_of_file (hne : out ≠ NULL) (hmaps : s.WellMapped)
    (hout : ∃ r ∈ s.maps, r.lo ≤ out ∧ out + 16 ≤ r.hi)
    (hfile : h.file .procMeminfo = some text) : RamDefined h out s ↔ RamReadable h s.maps := by
  obtain ⟨hreturns, hresult⟩ := sysRamRead_returns hne hmaps hout (h := h)
  constructor
  · rintro (herror | ⟨_, s', -, hread, -⟩)
    · exact absurd herror (sysRamRead_ne_assertFailed hne hfile)
    · exact hreturns.mp ⟨_, hread⟩
  · intro hreadable
    obtain ⟨⟨code, s'⟩, hread⟩ := hreturns.mpr hreadable
    obtain ⟨hcode, -, hload⟩ := hresult _ hread
    obtain rfl : code = errOk := hcode
    obtain ⟨text', hfile', -, htotal, hfree, -⟩ := hreadable
    obtain rfl : text = text' := Option.some.inj (hfile.symm.trans hfile')
    have hram : s'.mem.loadAs SysMemory out = ramOf text := hload text hfile
    refine .inr ⟨text, s', hfile, hread, ?_, ?_⟩
    · rw [hram]
      exact foundIn_lastNumber htotal
    · rw [hram]
      exact foundIn_lastNumber hfree

/-- The reader is defined iff it has no struct to fill or no file to read, or the file is readable:
it has a value for either key, and the scratch arena is granted and has room for all of them. -/
theorem sysRamRead_defined_iff (h : Host) (out : ℕ) (s : Proc) (hmaps : s.WellMapped)
    (hout : out ≠ NULL → ∃ r ∈ s.maps, r.lo ≤ out ∧ out + 16 ≤ r.hi) :
    RamDefined h out s ↔ out = NULL ∨ h.file .procMeminfo = none ∨ RamReadable h s.maps := by
  by_cases hne : out = NULL
  · refine iff_of_true (.inl ?_) (.inl hne)
    rw [sysRamRead, if_pos hne]
  · rw [or_iff_right hne]
    cases hfile : h.file .procMeminfo with
    | none =>
      refine iff_of_true (.inl ?_) (.inl rfl)
      rw [sysRamRead, if_neg hne, hfile]
    | some text =>
      rw [ramDefined_iff_of_file hne hmaps (hout hne) hfile]
      exact (or_iff_right (Option.some_ne_none text)).symm

theorem sysRamRead_defined_iff_sample :
    RamDefined (hostOf sampleMeminfo) 64 structProc ↔ 64 = NULL ∨
      (hostOf sampleMeminfo).file .procMeminfo = none ∨
        RamReadable (hostOf sampleMeminfo) structProc.maps :=
  sysRamRead_defined_iff (hostOf sampleMeminfo) 64 structProc wellMapped_struct
    fun _ => ⟨_, List.mem_singleton_self _, by decide, by decide⟩

/-- Without a line for the free memory its buffer and length are parsed as they happen to be. -/
theorem not_sysRamRead_defined : ¬ ∀ (h : Host) (out : ℕ) (s : Proc), s.WellMapped →
    (out ≠ NULL → ∃ r ∈ s.maps, r.lo ≤ out ∧ out + 16 ≤ r.hi) → RamDefined h out s := by
  intro hall
  have hout : ∃ r ∈ structProc.maps, r.lo ≤ 64 ∧ 64 + 16 ≤ r.hi :=
    ⟨_, List.mem_singleton_self _, by decide, by decide⟩
  have hdefined := hall (hostOf (ascii "MemTotal:   16384 kB\n")) 64 structProc wellMapped_struct
    fun _ => hout
  obtain ⟨text, hfile, -, -, hfree, -⟩ :=
    (ramDefined_iff_of_file (by decide) wellMapped_struct hout rfl).mp hdefined
  obtain rfl : ascii "MemTotal:   16384 kB\n" = text := Option.some.inj hfile
  exact hfree (by decide +kernel)

end AgentResources
