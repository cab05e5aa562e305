import AgentResources.Base.ListGrowth
import AgentResources.Foundations.LineScan
import AgentResources.Libres.ListReads

/-!
# The table of partitions

The kernel writes a table of its partitions: a header, an empty line, and a line for each partition
(`Partition.Renders`). Reading such a table into an empty list gives back the partitions
(`diskRead_table`), whatever other lines are in between (`ForeignLine`). The arrays of the list take
less than four entries of the arena for each partition (`diskPushPartition_grown`).
-/

namespace AgentResources

open Scanf (digits)

/-- A partition the kernel knows. The bounds are those of the fields it is read into. -/
structure Partition where
  major : ℕ
  minor : ℕ
  blocks : ℕ
  name : List UInt8
  major_lt : major < 2 ^ 31
  minor_lt : minor < 2 ^ 31
  blocks_lt : blocks < 2 ^ 64
  name_ne_nil : name ≠ []
  length_name_le : name.length ≤ 31
  not_isSpace : ∀ c ∈ name, ¬ Scanf.isSpace c
  zero_notMem : 0 ∉ name

/-- A line that begins, after white space, with neither a digit nor a sign. -/
def ForeignLine (line : List UInt8) : Prop :=
  ∀ c ∈ (line.dropWhile Scanf.isSpace).head?, ¬ isDigit c ∧ c ≠ 45 ∧ c ≠ 43

namespace Partition

variable {p : Partition} {line : List UInt8}

/-- The record of a partition: the bytes after its name are zero. -/
def toSys (p : Partition) : SysPartition where
  blocks := UInt64.ofNat p.blocks
  major := UInt32.ofNat p.major
  minor := UInt32.ofNat p.minor
  name := Vector.ofFn fun i => p.name.getD i 0

/-- The line of a partition: its numbers and its name, with white space between them. There may be
some before and after them too. -/
def Renders (p : Partition) (line : List UInt8) : Prop :=
  ∃ pad gap₁ gap₂ gap₃ tail : List UInt8,
    (∀ c ∈ pad ++ gap₁ ++ gap₂ ++ gap₃ ++ tail, Scanf.isSpace c) ∧
    gap₁ ≠ [] ∧ gap₂ ≠ [] ∧ gap₃ ≠ [] ∧
    line = pad ++ digits p.major ++ (gap₁ ++ digits p.minor ++ (gap₂ ++ digits p.blocks ++
      (gap₃ ++ p.name ++ tail)))

/-- The name is stored as it is, with room for its end. -/
theorem overlay_name (p : Partition) :
    overlay (Vector.replicate 32 0) (p.name ++ [0]) = p.toSys.name := by
  ext i hi
  rw [getElem_overlay, toSys, Vector.getElem_ofFn, Vector.getElem_replicate]
  -- a byte of the name, its terminator, or a byte behind it
  rcases Nat.lt_trichotomy i p.name.length with hlt | rfl | hgt
  · rw [List.getD_append _ _ _ _ hlt]
  · rw [List.getD_append_right _ _ _ _ le_rfl, Nat.sub_self,
      List.getD_eq_default _ _ le_rfl]
    rfl
  · rw [List.getD_eq_default _ _ (by simpa using hgt), List.getD_eq_default _ _ hgt.le]

theorem Renders.zero_notMem (h : p.Renders line) : 0 ∉ line := by
  obtain ⟨pad, gap₁, gap₂, gap₃, tail, hspace, -, -, -, rfl⟩ := h
  -- neither digits nor white space are zero, and the name is as the kernel has it
  have hdigits : ∀ n : ℕ, (0 : UInt8) ∉ digits n := fun n => Scanf.notMem_digits (by decide)
  have hblank : (0 : UInt8) ∉ pad ++ gap₁ ++ gap₂ ++ gap₃ ++ tail :=
    fun h => absurd (hspace 0 h) (by decide)
  have hname := p.zero_notMem
  simp only [List.mem_append, not_or] at hblank ⊢
  simp_all

/-- A chunk in which all four conversions succeed. -/
theorem partitionLine_of_scan {chunk text₁ text₂ text₃ rest name : List UInt8}
    {major minor : UInt32} {blocks : UInt64}
    (hmajor : Scanf.scanD (cstr chunk) = some (major, text₁))
    (hminor : Scanf.scanD text₁ = some (minor, text₂))
    (hblocks : Scanf.scanLu text₂ = some (blocks, text₃))
    (hname : Scanf.scanWord 255 text₃ = some (name, rest)) :
    partitionLine chunk =
      some ⟨blocks, major, minor, overlay (Vector.replicate 32 0) (name.take 31 ++ [0])⟩ := by
  simp [partitionLine, hmajor, hminor, hblocks, hname]

/-- The line of a partition is read as the partition. -/
theorem Renders.partitionLine_eq (h : p.Renders line) : partitionLine line = some p.toSys := by
  have hcstr : cstr line = line := cstr_of_notMem h.zero_notMem
  obtain ⟨pad, gap₁, gap₂, gap₃, tail, hspace, hne₁, hne₂, hne₃, hline⟩ := h
  simp only [List.forall_mem_append] at hspace
  obtain ⟨⟨⟨⟨hpad, hgap₁⟩, hgap₂⟩, hgap₃⟩, htail⟩ := hspace
  -- each conversion leaves the text from the white space on
  obtain ⟨text₃, htext₃⟩ : ∃ t, t = gap₃ ++ p.name ++ tail := ⟨_, rfl⟩
  obtain ⟨text₂, htext₂⟩ : ∃ t, t = gap₂ ++ digits p.blocks ++ text₃ := ⟨_, rfl⟩
  obtain ⟨text₁, htext₁⟩ : ∃ t, t = gap₁ ++ digits p.minor ++ text₂ := ⟨_, rfl⟩
  have hstop₁ : ∀ c ∈ text₁.head?, ¬ isDigit c := by
    rw [htext₁, List.append_assoc]
    exact Scanf.not_isDigit_of_gap hne₁ hgap₁
  have hstop₂ : ∀ c ∈ text₂.head?, ¬ isDigit c := by
    rw [htext₂, List.append_assoc]
    exact Scanf.not_isDigit_of_gap hne₂ hgap₂
  have hstop₃ : ∀ c ∈ text₃.head?, ¬ isDigit c := by
    rw [htext₃, List.append_assoc]
    exact Scanf.not_isDigit_of_gap hne₃ hgap₃
  have hmajor : Scanf.scanD (cstr line) = some (UInt32.ofNat p.major, text₁) := by
    rw [hcstr, hline, ← htext₃, ← htext₂, ← htext₁]
    exact Scanf.scanD_digits hpad hstop₁ p.major_lt
  have hminor : Scanf.scanD text₁ = some (UInt32.ofNat p.minor, text₂) := by
    rw [htext₁]
    exact Scanf.scanD_digits hgap₁ hstop₂ p.minor_lt
  have hblocks : Scanf.scanLu text₂ = some (UInt64.ofNat p.blocks, text₃) := by
    rw [htext₂]
    exact Scanf.scanLu_digits hgap₂ hstop₃ p.blocks_lt
  have hname : Scanf.scanWord 255 text₃ = some (p.name, tail) := by
    rw [htext₃]
    exact Scanf.scanWord_append hgap₃ p.name_ne_nil p.not_isSpace
      (p.length_name_le.trans (by decide)) fun c hc => htail c (List.mem_of_mem_head? hc)
  rw [partitionLine_of_scan hmajor hminor hblocks hname,
    List.take_of_length_le p.length_name_le, overlay_name]
  rfl

/-- The newline of a line is behind the name of the partition. -/
theorem Renders.of_newline {content : List UInt8} (h : p.Renders (content ++ [Stream.newline])) :
    p.Renders content := by
  obtain ⟨pad, gap₁, gap₂, gap₃, tail, hspace, hne₁, hne₂, hne₃, hline⟩ := h
  rcases List.eq_nil_or_concat' tail with rfl | ⟨tail, b, rfl⟩
  · -- without white space behind it the line would end in a byte of the name
    obtain ⟨name, b, hname⟩ := (List.eq_nil_or_concat' p.name).resolve_left p.name_ne_nil
    rw [hname, List.append_nil] at hline
    simp only [← List.append_assoc] at hline
    obtain rfl : Stream.newline = b := by
      simpa using (List.append_inj' hline rfl).2
    have hmem : Stream.newline ∈ p.name := by
      rw [hname]
      exact List.mem_append_right _ List.mem_cons_self
    exact absurd (by decide) (p.not_isSpace Stream.newline hmem)
  · -- the newline is the last of the white space
    refine ⟨pad, gap₁, gap₂, gap₃, tail, fun c hc => hspace c ?_, hne₁, hne₂, hne₃, ?_⟩
    · rw [← List.append_assoc]
      exact List.mem_append_left _ hc
    · simp only [← List.append_assoc] at hline ⊢
      exact (List.append_inj' hline rfl).1

end Partition

/-! ## Reading the table -/

/-- The lines of a table: one for each partition, in order, and any others in between from which no
partition can be read. -/
inductive Tabulates : List (List UInt8) → List Partition → Prop
  | nil : Tabulates [] []
  | partition {line lines ps} {p : Partition} : p.Renders line → Tabulates lines ps →
      Tabulates (line :: lines) (p :: ps)
  | foreign {line lines ps} : ForeignLine line → Tabulates lines ps → Tabulates (line :: lines) ps

variable {line : List UInt8} {lines : List (List UInt8)} {ps : List Partition}

theorem ForeignLine.of_prefix {pre : List UInt8} (h : ForeignLine line) (hpre : pre <+: line) :
    ForeignLine pre := by
  obtain ⟨rest, rfl⟩ := hpre
  intro c hc
  apply h c
  cases hstart : pre.dropWhile Scanf.isSpace with
  | nil =>
    -- nothing but white space, so no byte is asked about
    rw [hstart] at hc
    exact absurd hc (Option.not_mem_none c)
  | cons b start =>
    rw [List.dropWhile_append, hstart]
    rwa [hstart] at hc

/-- No partition is read from such a line. -/
theorem ForeignLine.partitionLine_eq (h : ForeignLine line) : partitionLine line = none := by
  have hnumber : Scanf.number (cstr line) = none :=
    Scanf.number_eq_none (h.of_prefix (List.takeWhile_prefix _))
  rw [partitionLine, Scanf.scanD, hnumber]
  rfl

theorem foreignLine_newline : ForeignLine [Stream.newline] := by
  intro c hc
  exact absurd hc (Option.not_mem_none c)

/-- The header of the table. -/
theorem foreignLine_header : ForeignLine (ascii "major minor  #blocks  name\n") := by
  intro c hc
  obtain rfl : 109 = c := Option.some.inj hc
  decide

/-- The lines of a table are read as its partitions. -/
theorem Tabulates.filterMap_eq (h : Tabulates lines ps) :
    lines.filterMap partitionLine = ps.map Partition.toSys := by
  induction h with
  | nil => rfl
  | partition hline _ ih =>
    rw [List.filterMap_cons_some hline.partitionLine_eq, List.map_cons, ih]
  | foreign hline _ ih => rw [List.filterMap_cons_none hline.partitionLine_eq, ih]

theorem Tabulates.of_mem (h : Tabulates lines ps) (hmem : line ∈ lines) :
    (∃ p : Partition, p.Renders line) ∨ ForeignLine line := by
  induction h with
  | nil => exact absurd hmem (List.not_mem_nil)
  | @partition _ _ _ p hline _ ih =>
    rcases List.mem_cons.mp hmem with rfl | hmem
    · exact .inl ⟨p, hline⟩
    · exact ih hmem
  | foreign hline _ ih =>
    rcases List.mem_cons.mp hmem with rfl | hmem
    · exact .inr hline
    · exact ih hmem

/-- The chunks that are read hold the partitions of the table. -/
theorem Tabulates.partitionChunks_eq {text : List UInt8} (h : Tabulates (Stream.lines text) ps)
    (hshort : Stream.ShortLines buffDefault text) :
    partitionChunks text = ps.map Partition.toSys := by
  rw [partitionChunks, Stream.filterMap_chunks_of_short (by decide) hshort
    foreignLine_newline.partitionLine_eq, h.filterMap_eq]
  -- a line cut off before its newline is read as the line
  intro content hcontent
  rcases h.of_mem hcontent with ⟨p, hline⟩ | hline
  · rw [hline.partitionLine_eq, hline.of_newline.partitionLine_eq]
  · rw [hline.partitionLine_eq, (hline.of_prefix (List.prefix_append _ _)).partitionLine_eq]

/-! ## Reading into an empty list -/

variable {arena d : ℕ} {capacity : UInt64} {s : Proc}

/-- An empty list has taken nothing from its arena yet. -/
theorem ListRun.Zeroed.grown {α : Type} [Layout α]
    (h : ListRun.Zeroed arena d capacity (⟨s, [], []⟩ : ListRun α)) :
    Grown α arena d (position arena s) 0 0 s := by
  have hhead : listHead d s.mem = ⟨0, 0, 0⟩ := h.listHead_eq
  refine ⟨?_, ?_, ?_⟩
  · rw [hhead]
    rfl
  · rw [hhead]
    rfl
  · show position arena s = position arena s + Layout.size α * 0
    rw [Nat.mul_zero, Nat.add_zero]

/-- Partitions that are pushed to an empty list, with room for its arrays, are all there. -/
theorem ListRun.Zeroed.foldlM_diskPush
    (hzero : ListRun.Zeroed arena d capacity (⟨s, [], []⟩ : ListRun SysPartition))
    (ps : List SysPartition)
    (hroom : position arena s + sizeofSysPartition.toNat * spaceFor ps.length ≤ capacity.toNat) :
    ∃ s', ps.foldlM (fun s p => diskPush.push arena d p s) s = .ok s' ∧
      entries SysPartition d s'.mem = ps ∧
      Grown SysPartition arena d (position arena s) 0 ps.length s' := by
  obtain ⟨hinv, hempty⟩ := hzero.listInv
  rw [← Nat.max_zero ps.length] at hroom
  obtain ⟨s', hfold, -, -, hentries, hgrown⟩ :=
    diskPush.foldlM_grown hzero.place hinv trivial hzero.grown (Nat.zero_le 1) ps hroom
  refine ⟨s', hfold, ?_, hgrown⟩
  rw [hentries, hempty, List.nil_append, diskPush_item, List.map_id]

/-- Reading a table of partitions into an empty list gives back the partitions. -/
theorem diskRead_table (h : Host) (out arena : ℕ) (capacity : UInt64) (s : Proc)
    (text : List UInt8) (ps : List Partition) (hne : out ≠ NULL)
    (hfile : h.file .procPartitions = some text) (htable : Tabulates (Stream.lines text) ps)
    (hshort : Stream.ShortLines buffDefault text)
    (hzero : ListRun.Zeroed arena out capacity (⟨s, [], []⟩ : ListRun SysPartition))
    (hroom : position arena s + sizeofSysPartition.toNat * spaceFor ps.length ≤ capacity.toNat) :
    ∃ s', diskRead h out arena s = .ok (errOk, s') ∧
      entries SysPartition out s'.mem = ps.map Partition.toSys := by
  have htext : partitionsText h = text := by rw [partitionsText, hfile, Option.getD_some]
  have hchunks : partitionChunks (partitionsText h) = ps.map Partition.toSys := by
    rw [htext]
    exact htable.partitionChunks_eq hshort
  -- the chunks are the partitions, so the pushes are theirs
  rw [← List.length_map (f := Partition.toSys)] at hroom
  obtain ⟨s', hfold, hentries, -⟩ := hzero.foldlM_diskPush (ps.map Partition.toSys) hroom
  refine ⟨s', ?_, hentries⟩
  rw [diskRead_eq hne (hfile ▸ Option.some_ne_none text), hchunks, hfold]
  rfl

/-- A partition for each of two lines. -/
def samplePartitions : List Partition :=
  [{ major := 8, minor := 0, blocks := 1024, name := ascii "sda"
     major_lt := by decide, minor_lt := by decide, blocks_lt := by decide
     name_ne_nil := by decide, length_name_le := by decide
     not_isSpace := by decide +kernel, zero_notMem := by decide },
   { major := 8, minor := 1, blocks := 512, name := ascii "sda1"
     major_lt := by decide, minor_lt := by decide, blocks_lt := by decide
     name_ne_nil := by decide, length_name_le := by decide
     not_isSpace := by decide +kernel, zero_notMem := by decide }]

/-- The table of the two partitions, with a line in between that is none. -/
def sampleTable : List UInt8 :=
  ascii "major minor  #blocks  name\n\n   8        0 1024 sda\n# 8 2 1 x\n   8        1 512 sda1\n"

theorem tabulates_sample : Tabulates (Stream.lines sampleTable) samplePartitions := by
  have hlines : Stream.lines sampleTable =
      [ascii "major minor  #blocks  name\n", ascii "\n", ascii "   8        0 1024 sda\n",
        ascii "# 8 2 1 x\n", ascii "   8        1 512 sda1\n"] := by decide +kernel
  have hcomment : ForeignLine (ascii "# 8 2 1 x\n") := by
    intro c hc
    obtain rfl : 35 = c := Option.some.inj hc
    decide
  rw [hlines]
  refine .foreign foreignLine_header (.foreign foreignLine_newline
    (.partition ?_ (.foreign hcomment (.partition ?_ .nil))))
  · exact ⟨ascii "   ", ascii "        ", ascii " ", ascii " ", ascii "\n", by decide +kernel,
      by decide, by decide, by decide, by decide +kernel⟩
  · exact ⟨ascii "   ", ascii "        ", ascii " ", ascii " ", ascii "\n", by decide +kernel,
      by decide, by decide, by decide, by decide +kernel⟩

theorem diskRead_table_sample :
    ∃ s', diskRead (hostOf sampleTable) 64 4096 ListRun.sampleProc = .ok (errOk, s') ∧
      entries SysPartition 64 s'.mem = samplePartitions.map Partition.toSys := by
  refine diskRead_table (hostOf sampleTable) 64 4096 1024 ListRun.sampleProc sampleTable
    samplePartitions (by decide) rfl tabulates_sample ?_ ListRun.zeroed_sample ?_
  · unfold Stream.ShortLines
    decide +kernel
  · decide +kernel

/-- After `n` pushes to an empty list its capacity is the least number 8, 16, 32 and so on that is
not below `n`. All the arrays it had are then in the arena, and nothing else is behind `p`. -/
theorem diskPushPartition_grown (arena d : ℕ) (capacity : UInt64) (s : Proc)
    (ps : List SysPartition) (c : ℕ) (hne : ps ≠ [])
    (hzero : ListRun.Zeroed arena d capacity (⟨s, [], []⟩ : ListRun SysPartition))
    (hleast : IsLeast {m | (∃ k, m = 8 * 2 ^ k) ∧ ps.length ≤ m} c)
    (hroom : position arena s + sizeofSysPartition.toNat * (2 * c - 8) ≤ capacity.toNat) :
    ∃ s', ps.foldlM (fun s p => diskPushPartition d p arena s) s = .ok s' ∧
      (s'.mem.loadAs SysDisk d).partCount.toNat = ps.length ∧
      (s'.mem.loadAs SysDisk d).partCapacity.toNat = c ∧
      position arena s' = position arena s + sizeofSysPartition.toNat * (2 * c - 8) ∧
      (8 < ps.length →
        position arena s' - position arena s < sizeofSysPartition.toNat * (4 * ps.length)) := by
  -- there is only one least capacity
  have hpos : 0 < ps.length := List.length_pos_of_ne_nil hne
  obtain rfl : c = capacityFor ps.length := hleast.unique (capacityFor_isLeast hpos)
  obtain ⟨s', hfold, -, hcount, hcap, hposition⟩ := hzero.foldlM_diskPush ps hroom
  rw [Nat.max_zero] at hcap hposition
  have hsize : Layout.size SysPartition = sizeofSysPartition.toNat := rfl
  rw [hsize] at hposition
  refine ⟨s', ?_, hcount, hcap, hposition, fun hn => ?_⟩
  · rw [← hfold]
    simp only [diskPush_push]
  · rw [hposition, Nat.add_sub_cancel_left]
    exact Nat.mul_lt_mul_of_pos_left (spaceFor_lt hn) (by decide)

/-- An arena of 4096 bytes at 4096, and nothing else. -/
def wideProc : Proc := (arenaCreate Kernel.above 4096 Proc.fresh).2

theorem zeroed_wide : ListRun.Zeroed 4096 64 4096 (⟨wideProc, [], []⟩ : ListRun SysPartition) :=
  ListRun.zeroed_create (by decide +kernel) (by decide) (by decide)

/-- Nine partitions take an array of eight entries and one of sixteen. -/
theorem diskPushPartition_grown_nine :
    ∃ s', (List.replicate 9 (⟨1024, 8, 0, .replicate 32 0⟩ : SysPartition)).foldlM
        (fun s p => diskPushPartition 64 p 4096 s) wideProc = .ok s' ∧
      (s'.mem.loadAs SysDisk 64).partCount.toNat = 9 ∧
      (s'.mem.loadAs SysDisk 64).partCapacity.toNat = 16 ∧
      position 4096 s' = position 4096 wideProc + sizeofSysPartition.toNat * (2 * 16 - 8) ∧
      (8 < 9 → position 4096 s' - position 4096 wideProc < sizeofSysPartition.toNat * (4 * 9)) := by
  have hleast : IsLeast {m | (∃ k, m = 8 * 2 ^ k) ∧ 9 ≤ m} 16 :=
    capacityFor_isLeast (n := 9) (by decide)
  refine diskPushPartition_grown 4096 64 4096 wideProc (.replicate 9 ⟨1024, 8, 0, .replicate 32 0⟩)
    16 (by decide) zeroed_wide ?_ (by decide +kernel)
  exact hleast

end AgentResources
