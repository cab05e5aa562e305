import AgentResources.Foundations.LineScan
import AgentResources.Libres.CpuReadable

/-!
# The use of the processor

`cpu_read_usage` takes eight counters out of the line `cpu` of `/proc/stat` and adds them up. When
no counter has gone back between two reads, the idle time has grown by no more than the total time,
so that their quotient is a use between 0 and 1 (`cpuReadUsage_utilisation`).
-/

namespace AgentResources

open Scanf (ofDigits)

/-- The first eight counters of a line. -/
structure Counters where
  user : ℕ
  nice : ℕ
  system : ℕ
  idle : ℕ
  iowait : ℕ
  irq : ℕ
  softirq : ℕ
  steal : ℕ

namespace Counters

/-- The counters in the order of the line. -/
def toList (c : Counters) : List ℕ :=
  [c.user, c.nice, c.system, c.idle, c.iowait, c.irq, c.softirq, c.steal]

/-- The time without work. -/
def idleAll (c : Counters) : ℕ := c.idle + c.iowait

/-- All the time. -/
def total (c : Counters) : ℕ := c.toList.sum

/-- No counter is below that of `a`. -/
def Since (b a : Counters) : Prop := List.Forall₂ (· ≤ ·) a.toList b.toList

end Counters

/-- A line that begins with `cpu ` and the counters: a run of digits for each of them, with white
space in between. What follows does not go on with a digit. -/
def CpuLine (c : Counters) (line : List UInt8) : Prop :=
  ∃ (fields : List (List UInt8 × List UInt8)) (rest : List UInt8),
    line = ascii "cpu " ++ (fields.flatMap (fun f => f.1 ++ f.2) ++ rest) ∧
    fields.map (fun f => ofDigits f.2) = c.toList ∧
    (∀ f ∈ fields, (∀ b ∈ f.1, Scanf.isSpace b) ∧ f.2 ≠ [] ∧ ∀ b ∈ f.2, isDigit b) ∧
    (∀ f ∈ fields.tail, f.1 ≠ []) ∧ ∀ b ∈ rest.head?, ¬ isDigit b

/-- The first line of a text has the counters and is shorter than the buffer. -/
def StartsWithCpu (c : Counters) (text : List UInt8) : Prop :=
  ∃ line, (Stream.lines text).head? = some line ∧ CpuLine c line ∧
    (line.takeWhile (· ≠ Stream.newline)).length < buffLarge

/-! ## Reading a line -/

variable {c : Counters} {line text rest : List UInt8} {fields : List (List UInt8 × List UInt8)}

/-- What the loop of `cpu_read_usage` takes from a chunk. -/
def usageCounters (chunk : List UInt8) : Option (List UInt64) :=
  if (ascii "cpu ").isPrefixOf (cstr chunk) then statCounters ((cstr chunk).drop 4) else none

/-- As many numbers are read as there are fields. -/
theorem go_fields
    (hfields : ∀ f ∈ fields, (∀ b ∈ f.1, Scanf.isSpace b) ∧ f.2 ≠ [] ∧ ∀ b ∈ f.2, isDigit b)
    (hgaps : ∀ f ∈ fields.tail, f.1 ≠ []) (hrest : ∀ b ∈ rest.head?, ¬ isDigit b)
    (hlt : ∀ f ∈ fields, ofDigits f.2 < 2 ^ 64) :
    statCounters.go fields.length (fields.flatMap (fun f => f.1 ++ f.2) ++ rest) =
      some (fields.map fun f => UInt64.ofNat (ofDigits f.2)) := by
  induction fields with
  | nil => rfl
  | cons f fields ih =>
    obtain ⟨⟨hblanks, hne, hrun⟩, hfields⟩ := List.forall_mem_cons.mp hfields
    obtain ⟨hltf, hlt⟩ := List.forall_mem_cons.mp hlt
    -- the white space of the next field ends the number
    have hstop : ∀ b ∈ (fields.flatMap (fun f => f.1 ++ f.2) ++ rest).head?, ¬ isDigit b := by
      cases fields with
      | nil => exact hrest
      | cons g fields =>
        rw [List.flatMap_cons, List.append_assoc, List.append_assoc]
        exact Scanf.not_isDigit_of_gap (hgaps g List.mem_cons_self)
          (hfields g List.mem_cons_self).1
    have hscan := Scanf.scanLu_run hblanks hne hrun hstop hltf
    have hnext := ih hfields (fun g hg => hgaps g (List.mem_of_mem_tail hg)) hlt
    rw [List.flatMap_cons, List.append_assoc, List.length_cons, statCounters.go, hscan]
    show (statCounters.go fields.length _ >>= fun vs => some (_ :: vs)) = _
    rw [hnext]
    rfl

/-- The end of a string is as little a digit as the end of its bytes. -/
theorem not_isDigit_cstr (hrest : ∀ b ∈ rest.head?, ¬ isDigit b) :
    ∀ b ∈ (cstr rest).head?, ¬ isDigit b := by
  intro b hb
  obtain ⟨tail, htail⟩ := List.takeWhile_prefix (l := rest) (· ≠ 0)
  refine hrest b ?_
  obtain ⟨start, hstart⟩ := List.head?_eq_some_iff.mp hb
  rw [← htail, show rest.takeWhile (· ≠ 0) = b :: start from hstart]
  rfl

theorem Counters.mem_le_total {n : ℕ} (hn : n ∈ c.toList) : n ≤ c.total :=
  List.le_sum_of_mem hn

/-- The counters of a line are read. -/
theorem CpuLine.usageCounters_eq (h : CpuLine c line) (hlt : c.total < 2 ^ 64) :
    usageCounters line = some (c.toList.map UInt64.ofNat) := by
  obtain ⟨fields, rest, rfl, hcounters, hfields, hgaps, hrest⟩ := h
  -- the string goes on at least to the end of the counters
  have hzero : (0 : UInt8) ∉ ascii "cpu " ++ fields.flatMap (fun f => f.1 ++ f.2) := by
    intro h0
    rcases List.mem_append.mp h0 with h0 | h0
    · exact absurd h0 (by decide)
    · obtain ⟨f, hf, h0⟩ := List.mem_flatMap.mp h0
      obtain ⟨hblanks, -, hrun⟩ := hfields f hf
      rcases List.mem_append.mp h0 with h0 | h0
      · exact absurd (hblanks 0 h0) (by decide)
      · exact absurd (hrun 0 h0) (by decide)
  have hcstr : cstr (ascii "cpu " ++ (fields.flatMap (fun f => f.1 ++ f.2) ++ rest)) =
      ascii "cpu " ++ (fields.flatMap (fun f => f.1 ++ f.2) ++ cstr rest) := by
    rw [← List.append_assoc, cstr_append hzero, List.append_assoc]
  have hlength : fields.length = 8 := by
    rw [← List.length_map (fun f => ofDigits f.2), hcounters]
    rfl
  -- a counter is in the range of a word as their sum is
  have hltField : ∀ f ∈ fields, ofDigits f.2 < 2 ^ 64 := by
    intro f hf
    refine (Counters.mem_le_total ?_).trans_lt hlt
    rw [← hcounters]
    exact List.mem_map_of_mem hf
  have hprefix : (ascii "cpu ").isPrefixOf
      (ascii "cpu " ++ (fields.flatMap (fun f => f.1 ++ f.2) ++ cstr rest)) := by simp
  have hscan := go_fields hfields hgaps (not_isDigit_cstr hrest) hltField
  rw [hlength] at hscan
  rw [usageCounters, hcstr, if_pos hprefix, statCounters, ← hcounters, List.map_map]
  exact hscan

/-- The newline of a line is behind its counters. -/
theorem CpuLine.of_newline {content : List UInt8} (h : CpuLine c (content ++ [Stream.newline])) :
    CpuLine c content := by
  obtain ⟨fields, rest, hline, hcounters, hfields, hgaps, hrest⟩ := h
  rcases List.eq_nil_or_concat' rest with rfl | ⟨rest, b, rfl⟩
  · -- the last counter would end in the newline
    obtain ⟨init, f, rfl⟩ := (List.eq_nil_or_concat' fields).resolve_left fun hnil => by
      rw [hnil] at hcounters
      exact absurd hcounters (List.cons_ne_nil _ _).symm
    obtain ⟨-, hne, hrun⟩ := hfields f (List.mem_append_right _ List.mem_cons_self)
    obtain ⟨run, b, hb⟩ := (List.eq_nil_or_concat' f.2).resolve_left hne
    rw [List.flatMap_append, List.flatMap_singleton, hb, List.append_nil] at hline
    simp only [← List.append_assoc] at hline
    obtain rfl : Stream.newline = b := by
      simpa using (List.append_inj' hline rfl).2
    have hdigit : isDigit Stream.newline := by
      refine hrun Stream.newline ?_
      rw [hb]
      exact List.mem_append_right _ List.mem_cons_self
    exact absurd hdigit (by decide)
  · refine ⟨fields, rest, ?_, hcounters, hfields, hgaps, fun d hd => hrest d ?_⟩
    · simp only [← List.append_assoc] at hline ⊢
      exact (List.append_inj' hline rfl).1
    · rw [List.head?_append, show rest.head? = some d from hd]
      rfl

/-! ## Reading a text -/

variable {h : Host} (out : SysCpu)

/-- The first counters that are read are those of the first line. -/
theorem StartsWithCpu.head?_counters (hstart : StartsWithCpu c text) (hlt : c.total < 2 ^ 64) :
    ((Stream.chunks buffLarge text).filterMap usageCounters).head? =
      some (c.toList.map UInt64.ofNat) := by
  obtain ⟨line, hline, hcpu, hshort⟩ := hstart
  obtain ⟨lines, hlines⟩ := List.head?_eq_some_iff.mp hline
  have hmem : line ∈ Stream.lines text := by
    rw [hlines]
    exact List.mem_cons_self
  obtain ⟨hisLine, hne⟩ := Stream.isLine_of_mem_lines hmem
  rw [Stream.chunks_eq_flatMap (by decide), hlines, List.flatMap_cons, List.filterMap_append]
  -- the counters are in the first chunk, with the newline or without it
  rcases hisLine.chunks_of_short hne (by decide) hshort with hone | ⟨content, rfl, htwo⟩
  · rw [hone, List.filterMap_cons_some (hcpu.usageCounters_eq hlt)]
    rfl
  · rw [htwo, List.filterMap_cons_some (hcpu.of_newline.usageCounters_eq hlt)]
    rfl

/-- Reading a text that begins with the counters stores their sums. -/
theorem cpuReadUsage_of_counters (hfile : h.file .procStat = some text)
    (hstart : StartsWithCpu c text) (hlt : c.total < 2 ^ 64) :
    ∃ out', cpuReadUsage h out = .ok (errOk, out') ∧ out'.idleTime.toNat = c.idleAll ∧
      out'.totalTime.toNat = c.total := by
  have hhead : ((Stream.chunks buffLarge text).filterMap fun chunk =>
      if (ascii "cpu ").isPrefixOf (cstr chunk) then statCounters ((cstr chunk).drop 4)
      else none).head? = some (c.toList.map UInt64.ofNat) := hstart.head?_counters hlt
  have hread : cpuReadUsage h out = .ok (errOk, { out with
      idleTime := UInt64.ofNat c.idle + UInt64.ofNat c.iowait
      totalTime := UInt64.ofNat c.user + UInt64.ofNat c.nice + UInt64.ofNat c.system +
        UInt64.ofNat c.idle + UInt64.ofNat c.iowait + UInt64.ofNat c.irq +
        UInt64.ofNat c.softirq + UInt64.ofNat c.steal }) := by
    simp only [cpuReadUsage, hfile]
    rw [hhead]
    rfl
  -- the sum the source writes out is the one of the list
  have htotal : c.user + c.nice + c.system + c.idle + c.iowait + c.irq + c.softirq + c.steal =
      c.total := by
    simp only [Counters.total, Counters.toList, List.sum_cons, List.sum_nil]
    ring
  have hidle : c.idleAll < 2 ^ 64 := by
    unfold Counters.idleAll
    omega
  refine ⟨_, hread, ?_, ?_⟩
  · show (UInt64.ofNat c.idle + UInt64.ofNat c.iowait).toNat = c.idleAll
    rw [← UInt64.ofNat_add]
    exact UInt64.toNat_ofNat_of_lt' hidle
  · show (UInt64.ofNat c.user + UInt64.ofNat c.nice + UInt64.ofNat c.system +
      UInt64.ofNat c.idle + UInt64.ofNat c.iowait + UInt64.ofNat c.irq +
      UInt64.ofNat c.softirq + UInt64.ofNat c.steal).toNat = c.total
    simp only [← UInt64.ofNat_add]
    rw [htotal]
    exact UInt64.toNat_ofNat_of_lt' hlt

/-- Without a line `cpu` nothing is stored. -/
theorem cpuReadUsage_of_none (hfile : h.file .procStat = some text)
    (hshort : Stream.ShortLines buffLarge text)
    (hnone : ∀ line ∈ Stream.lines text, ¬ ascii "cpu " <+: line) :
    cpuReadUsage h out = .ok (errOk, out) := by
  -- the key would begin the bytes if it began the string
  have hskip : ∀ chunk, ¬ ascii "cpu " <+: chunk → usageCounters chunk = none := by
    intro chunk hchunk
    refine if_neg fun hpre => hchunk ?_
    rw [List.isPrefixOf_iff_prefix] at hpre
    exact hpre.trans (List.takeWhile_prefix _)
  have hchunks : (Stream.chunks buffLarge text).filterMap usageCounters = [] := by
    rw [Stream.filterMap_chunks_of_short (by decide) hshort (hskip _ (by decide))]
    · exact List.filterMap_eq_nil_iff.mpr fun line hline => hskip line (hnone line hline)
    · intro content hcontent
      have hline := hnone _ hcontent
      rw [hskip _ hline, hskip content fun hpre => hline (hpre.trans (List.prefix_append _ _))]
  have hhead : ((Stream.chunks buffLarge text).filterMap fun chunk =>
      if (ascii "cpu ").isPrefixOf (cstr chunk) then statCounters ((cstr chunk).drop 4)
      else none).head? = none := congrArg List.head? hchunks
  simp only [cpuReadUsage, hfile]
  rw [hhead]

theorem Counters.idleAll_le_total (c : Counters) : c.idleAll ≤ c.total := by
  simp only [idleAll, total, toList, List.sum_cons, List.sum_nil]
  omega

/-- Since an earlier read the idle time has grown, but by no more than the total time. -/
theorem Counters.Since.growth_le {a b : Counters} (h : b.Since a) :
    a.idleAll ≤ b.idleAll ∧ b.idleAll - a.idleAll ≤ b.total - a.total ∧ a.total ≤ b.total := by
  simp only [Since, toList, List.forall₂_cons] at h
  obtain ⟨huser, hnice, hsystem, hidle, hiowait, hirq, hsoftirq, hsteal, -⟩ := h
  simp only [idleAll, total, toList, List.sum_cons, List.sum_nil]
  omega

/-- The idle time is no more than the total time, and between two reads it grows by no more, when no
counter goes back. A text without a line `cpu` changes neither. -/
theorem cpuReadUsage_utilisation :
    (∀ (hA hB : Host) (out : SysCpu) (textA textB : List UInt8) (a b : Counters),
      hA.file .procStat = some textA → hB.file .procStat = some textB →
      StartsWithCpu a textA → StartsWithCpu b textB → a.total < 2 ^ 64 → b.total < 2 ^ 64 →
      b.Since a → ∃ outA outB, cpuReadUsage hA out = .ok (errOk, outA) ∧
        cpuReadUsage hB outA = .ok (errOk, outB) ∧
        outA.idleTime ≤ outA.totalTime ∧ outB.idleTime ≤ outB.totalTime ∧
        (0 : ℤ) ≤ outB.idleTime.toNat - outA.idleTime.toNat ∧
        (outB.idleTime.toNat - outA.idleTime.toNat : ℤ) ≤
          outB.totalTime.toNat - outA.totalTime.toNat) ∧
    ∀ (h : Host) (out : SysCpu) (text : List UInt8), h.file .procStat = some text →
      Stream.ShortLines buffLarge text → (∀ line ∈ Stream.lines text, ¬ ascii "cpu " <+: line) →
        ∃ out', cpuReadUsage h out = .ok (errOk, out') ∧ out'.totalTime = out.totalTime ∧
          out'.idleTime = out.idleTime := by
  constructor
  · intro hA hB out textA textB a b hfileA hfileB hstartA hstartB hltA hltB hsince
    obtain ⟨outA, hreadA, hidleA, htotalA⟩ := cpuReadUsage_of_counters out hfileA hstartA hltA
    obtain ⟨outB, hreadB, hidleB, htotalB⟩ := cpuReadUsage_of_counters outA hfileB hstartB hltB
    have hleA := a.idleAll_le_total
    have hleB := b.idleAll_le_total
    obtain ⟨hidle, hgrowth, htotal⟩ := hsince.growth_le
    -- no sum wraps, so the words are compared as the numbers are
    refine ⟨outA, outB, hreadA, hreadB, ?_, ?_, ?_, ?_⟩
    · rw [UInt64.le_iff_toNat_le, hidleA, htotalA]
      exact hleA
    · rw [UInt64.le_iff_toNat_le, hidleB, htotalB]
      exact hleB
    · rw [hidleA, hidleB]
      omega
    · rw [hidleA, hidleB, htotalA, htotalB]
      omega
  · intro h out text hfile hshort hnone
    exact ⟨out, cpuReadUsage_of_none out hfile hshort hnone, rfl, rfl⟩

/-- The counters of a first read. -/
def firstCounters : Counters := ⟨100, 0, 50, 800, 20, 0, 5, 0⟩

/-- The counters of a second read. -/
def secondCounters : Counters := ⟨110, 0, 55, 870, 21, 0, 5, 0⟩

theorem startsWithCpu_first :
    StartsWithCpu firstCounters (ascii "cpu  100 0 50 800 20 0 5 0 0 0\ncpu0 1 2\n") := by
  refine ⟨ascii "cpu  100 0 50 800 20 0 5 0 0 0\n", by decide +kernel,
    ⟨["100", "0", "50", "800", "20", "0", "5", "0"].map fun run => ([32], ascii run),
      ascii " 0 0\n", ?_⟩, by decide +kernel⟩
  decide +kernel

theorem startsWithCpu_second :
    StartsWithCpu secondCounters (ascii "cpu  110 0 55 870 21 0 5 0 0 0\ncpu0 1 2\n") := by
  refine ⟨ascii "cpu  110 0 55 870 21 0 5 0 0 0\n", by decide +kernel,
    ⟨["110", "0", "55", "870", "21", "0", "5", "0"].map fun run => ([32], ascii run),
      ascii " 0 0\n", ?_⟩, by decide +kernel⟩
  decide +kernel

theorem cpuReadUsage_utilisation_sample :
    (∃ outA outB,
      cpuReadUsage (hostOf (ascii "cpu  100 0 50 800 20 0 5 0 0 0\ncpu0 1 2\n")) SysCpu.zero =
        .ok (errOk, outA) ∧
      cpuReadUsage (hostOf (ascii "cpu  110 0 55 870 21 0 5 0 0 0\ncpu0 1 2\n")) outA =
        .ok (errOk, outB) ∧
      outA.idleTime ≤ outA.totalTime ∧ outB.idleTime ≤ outB.totalTime ∧
      (0 : ℤ) ≤ outB.idleTime.toNat - outA.idleTime.toNat ∧
      (outB.idleTime.toNat - outA.idleTime.toNat : ℤ) ≤
        outB.totalTime.toNat - outA.totalTime.toNat) ∧
    ∃ out', cpuReadUsage (hostOf (ascii "cpu0 1 2\n")) SysCpu.zero = .ok (errOk, out') ∧
      out'.totalTime = SysCpu.zero.totalTime ∧ out'.idleTime = SysCpu.zero.idleTime := by
  obtain ⟨htwo, hnone⟩ := cpuReadUsage_utilisation
  constructor
  · refine htwo _ _ SysCpu.zero _ _ firstCounters secondCounters rfl rfl startsWithCpu_first
      startsWithCpu_second (by decide) (by decide) ?_
    unfold Counters.Since
    decide
  · refine hnone _ SysCpu.zero (ascii "cpu0 1 2\n") rfl ?_ ?_
    · unfold Stream.ShortLines
      decide +kernel
    · decide +kernel

end AgentResources
