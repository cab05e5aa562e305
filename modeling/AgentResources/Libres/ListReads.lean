import AgentResources.Libres.ListRun
import AgentResources.Libres.TrueLines

/-!
# Reading into a list again

What reading the partitions and collecting the processes leaves in a list: the entries from before,
then those of the file or the directory for which the arena has room (`diskRead_outcome`,
`processListCollect_outcome`). Neither empties the list first, so repeated reads add up
(`listReads_last_iff`), and neither tells its caller when the arena is full
(`listReads_complete_iff`).
-/

namespace AgentResources

/-- The partitions `disk_read` finds in a file: those of the chunks `fgets` delivers. -/
def partitionChunks (text : List UInt8) : List SysPartition :=
  (Stream.chunks buffDefault text).filterMap partitionLine

/-- The well-formed lines of a file. -/
def partitionLines (text : List UInt8) : List SysPartition :=
  (Stream.lines text).filterMap partitionLine

/-- The chunks are the lines when these fit the buffer. -/
theorem partitionChunks_eq_partitionLines {text : List UInt8}
    (h : ∀ line ∈ Stream.lines text, line.length < buffDefault) :
    partitionChunks text = partitionLines text := by
  have hsize : 2 ≤ buffDefault := by decide
  rw [partitionChunks, partitionLines,
    Stream.chunks_eq_lines hsize fun line hline => Nat.le_pred_of_lt (h line hline)]

/-- The numeric names of a directory. -/
def numericNames (names : List (List UInt8)) : List (List UInt8) := names.filter isNumeric

/-- What the file of the partitions holds. -/
def partitionsText (h : Host) : List UInt8 := (h.file .procPartitions).getD []

variable {h : Host} {arena out list lo : ℕ} {capacity : UInt64} {s : Proc} {text : List UInt8}

/-! ## Single reads -/

theorem diskRead_eq (hne : out ≠ NULL) (hfile : h.file .procPartitions ≠ none) :
    diskRead h out arena s = (do
      let s ← (partitionChunks (partitionsText h)).foldlM
        (fun s p => diskPush.push arena out p s) s
      return (errOk, s)) := by
  obtain ⟨text, htext⟩ := Option.ne_none_iff_exists'.mp hfile
  simp only [diskRead, if_neg hne, htext, partitionsText, Option.getD_some, partitionChunks,
    diskPush_push]

/-- The reader always succeeds, and stores the partitions before the arena is full. -/
theorem diskRead_outcome (hne : out ≠ NULL) (hfile : h.file .procPartitions ≠ none)
    (hplace : ListPlace arena out lo capacity) (hinv : ListInv SysPartition arena out lo capacity s)
    (hexact : capacity.toNat ≤ 2 ^ 62 ∨ storedOf SysPartition arena out capacity s
      (partitionChunks (partitionsText h)).length = (partitionChunks (partitionsText h)).length) :
    ∃ s', diskRead h out arena s = .ok (errOk, s') ∧
      entries SysPartition out s'.mem = entries SysPartition out s.mem ++
        (partitionChunks (partitionsText h)).take (storedOf SysPartition arena out capacity s
          (partitionChunks (partitionsText h)).length) := by
  obtain ⟨s', n, hfold, hkept, -⟩ := diskPush.foldlM_push hplace hinv trivial
    (partitionChunks (partitionsText h)) (hexact.imp_left fun hcap => ⟨by decide, hcap⟩)
  refine ⟨s', ?_, ?_⟩
  · rw [diskRead_eq hne hfile, hfold]
    rfl
  · rw [hkept.entries_eq, diskPush_item, List.map_id]

/-- A list of processes: it has no array yet, or it is well formed and has one. -/
structure ProcessListAt (arena list lo : ℕ) (capacity : UInt64) (s : Proc) : Prop where
  arenaAt : ArenaAt arena capacity s
  lo_le : lo ≤ arenaBase arena + position arena s
  list : (listHead list s.mem).data = 0 ∨
    ListInv SysProc arena list lo capacity s ∧ (listHead list s.mem).capacity ≠ 0

/-- The processes of a list: none when it has no array. -/
def processes (list : ℕ) (m : Memory) : List SysProc :=
  if (listHead list m).data = 0 then [] else entries SysProc list m

/-- The number of processes a list stores of the next `n`: a list without an array takes its first
one before it stores any. -/
def collected (arena list : ℕ) (capacity : UInt64) (s : Proc) (n : ℕ) : ℕ :=
  if (listHead list s.mem).data = 0 then
    stored (Layout.size SysProc) n (capacity.toNat - (position arena s + firstArray)) 0 8
  else storedOf SysProc arena list capacity s n

/-- The arena has room for `n` processes, and for the first array if the list has none. -/
def CollectRoom (arena list : ℕ) (capacity : UInt64) (s : Proc) (n : ℕ) : Prop :=
  ((listHead list s.mem).data = 0 → position arena s + firstArray ≤ capacity.toNat) ∧
    collected arena list capacity s n = n

theorem processListCollect_eq (hne : list ≠ NULL) (names : List (List UInt8)) :
    processListCollect (some names) list arena s = (do
      let s ← if (listHead list s.mem).data = 0 then initItems list arena s else .ok s
      let s ← (numericNames names).foldlM (fun s name => processPush.push arena list name s) s
      return (errOk, s)) := by
  simp only [processListCollect, if_neg hne, collectLoop_eq, numericNames, processPush_push]
  rfl

theorem ListInv.data_ne_zero {α : Type} [Layout α] {d : ℕ} (hinv : ListInv α arena d lo capacity s)
    (hplace : ListPlace arena d lo capacity) (hne : (listHead d s.mem).capacity ≠ 0) :
    (listHead d s.mem).data ≠ 0 := by
  obtain ⟨hlo, -⟩ := hinv.array_mem.resolve_left hne
  exact hplace.ne_zero hlo

/-- Collecting from a list that has an array: the processes before the arena is full are stored. -/
theorem collect_outcome (hplace : ListPlace arena list lo capacity)
    (hinv : ListInv SysProc arena list lo capacity s) (hcap : (listHead list s.mem).capacity ≠ 0)
    (names : List (List UInt8)) (hexact : capacity.toNat ≤ 2 ^ 62 ∨
      storedOf SysProc arena list capacity s (numericNames names).length =
        (numericNames names).length) :
    ∃ s', (numericNames names).foldlM (fun s name => processPush.push arena list name s) s = .ok s' ∧
      ListInv SysProc arena list lo capacity s' ∧ (listHead list s'.mem).capacity ≠ 0 ∧
      entries SysProc list s'.mem = entries SysProc list s.mem ++
        ((numericNames names).map newProcess).take
          (storedOf SysProc arena list capacity s (numericNames names).length) ∧
      ∀ m, storedOf SysProc arena list capacity s ((numericNames names).length + m) =
        (numericNames names).length + m → storedOf SysProc arena list capacity s' m = m := by
  obtain ⟨s', n, hfold, hkept, hle, hrest⟩ := processPush.foldlM_push hplace hinv hcap
    (numericNames names) (hexact.imp_left fun h => ⟨by decide, h⟩)
  refine ⟨s', hfold, hkept.inv, fun h0 => hcap (UInt64.toNat_inj.mp ?_), ?_, hrest⟩
  · rw [h0, UInt64.toNat_zero] at hle
    exact Nat.le_zero.mp hle
  · rw [hkept.entries_eq, processPush_item]

/-- A list that has an array is one a call can find. -/
theorem ListInv.processListAt (hinv : ListInv SysProc arena list lo capacity s)
    (hcap : (listHead list s.mem).capacity ≠ 0) : ProcessListAt arena list lo capacity s :=
  ⟨hinv.arenaAt, hinv.lo_le, .inr ⟨hinv, hcap⟩⟩

/-- The sum checked for the first array does not wrap. -/
theorem ProcessListAt.firstArray_lt (hlist : ProcessListAt arena list lo capacity s) {n : ℕ}
    (hexact : capacity.toNat ≤ 2 ^ 62 ∨ CollectRoom arena list capacity s n)
    (hdata : (listHead list s.mem).data = 0) : position arena s + firstArray < 2 ^ 64 := by
  have hpos := hlist.arenaAt.position_le_toNat
  rcases hexact with hcap | hroom
  · unfold firstArray
    omega
  · exact (hroom.1 hdata).trans_lt capacity.toNat_lt

/-- A call fails an assertion when there is no room for the first array. Else it succeeds, and
stores the processes before the arena is full. -/
theorem processListCollect_outcome (hplace : ListPlace arena list lo capacity)
    (hlist : ProcessListAt arena list lo capacity s) (hne : list ≠ NULL)
    (names : List (List UInt8)) (hexact : capacity.toNat ≤ 2 ^ 62 ∨
      CollectRoom arena list capacity s (numericNames names).length) :
    ((listHead list s.mem).data = 0 ∧ capacity.toNat < position arena s + firstArray ∧
      processListCollect (some names) list arena s = .error .assertFailed) ∨
    (((listHead list s.mem).data = 0 → position arena s + firstArray ≤ capacity.toNat) ∧
      ∃ s', processListCollect (some names) list arena s = .ok (errOk, s') ∧
        ListInv SysProc arena list lo capacity s' ∧ (listHead list s'.mem).capacity ≠ 0 ∧
        processes list s'.mem = processes list s.mem ++ ((numericNames names).map newProcess).take
          (collected arena list capacity s (numericNames names).length) ∧
        ∀ m, collected arena list capacity s ((numericNames names).length + m) =
          (numericNames names).length + m → collected arena list capacity s' m = m) := by
  -- the loop, from a list that has an array
  have hloop : ∀ s₁ : Proc, ListInv SysProc arena list lo capacity s₁ →
      (listHead list s₁.mem).capacity ≠ 0 →
      (∀ n, storedOf SysProc arena list capacity s₁ n = collected arena list capacity s n) →
      entries SysProc list s₁.mem = processes list s.mem →
      ∃ s', (numericNames names).foldlM
          (fun s name => processPush.push arena list name s) s₁ = .ok s' ∧
        ListInv SysProc arena list lo capacity s' ∧ (listHead list s'.mem).capacity ≠ 0 ∧
        processes list s'.mem = processes list s.mem ++ ((numericNames names).map newProcess).take
          (collected arena list capacity s (numericNames names).length) ∧
        ∀ m, collected arena list capacity s ((numericNames names).length + m) =
          (numericNames names).length + m → collected arena list capacity s' m = m := by
    intro s₁ hinv hcap hstored hentries
    obtain ⟨s', hfold, hinv', hcap', hentries', hrest⟩ := collect_outcome hplace hinv hcap names
      (hexact.imp_right fun hroom => (hstored _).trans hroom.2)
    have hdata' := hinv'.data_ne_zero hplace hcap'
    rw [hstored, hentries] at hentries'
    refine ⟨s', hfold, hinv', hcap', ?_, fun m hm => ?_⟩
    · rw [processes, if_neg hdata', hentries']
    · rw [collected, if_neg hdata']
      exact hrest m ((hstored _).trans hm)
  rw [processListCollect_eq hne]
  by_cases hdata : (listHead list s.mem).data = 0
  · rw [if_pos hdata]
    obtain ⟨hlt, hinit⟩ | ⟨hle, s₁, hinit, hinv, hpos, -, hcount, hcap⟩ :=
      initItems_outcome hplace hlist.arenaAt hlist.lo_le (hlist.firstArray_lt hexact hdata)
    · refine .inl ⟨hdata, hlt, ?_⟩
      rw [hinit]
      rfl
    · -- the loop starts from the new list, which is empty
      have hcap₁ : (listHead list s₁.mem).capacity ≠ 0 := by
        rw [hcap]
        decide
      have hentries : entries SysProc list s₁.mem = processes list s.mem := by
        rw [processes, if_pos hdata, entries, hcount]
        exact Memory.array_zero _ _
      have hstored : ∀ n, storedOf SysProc arena list capacity s₁ n =
          collected arena list capacity s n := by
        intro n
        rw [storedOf, collected, if_pos hdata, hpos, hcount, hcap]
        rfl
      obtain ⟨s', hfold, hrest⟩ := hloop s₁ hinv hcap₁ hstored hentries
      refine .inr ⟨fun _ => hle, s', ?_, hrest⟩
      rw [hinit]
      exact congrArg (fun x : Except Halt Proc => x >>= fun s => pure (errOk, s)) hfold
  · obtain ⟨hinv, hcap⟩ := hlist.list.resolve_left hdata
    obtain ⟨s', hfold, hrest⟩ := hloop s hinv hcap
      (fun n => by rw [collected, if_neg hdata]) (by rw [processes, if_neg hdata])
    refine .inr ⟨fun h0 => absurd h0 hdata, s', ?_, hrest⟩
    rw [if_neg hdata]
    exact congrArg (fun x : Except Halt Proc => x >>= fun s => pure (errOk, s)) hfold

/-! ## Repeated reads -/

/-- Reads of the partitions into one struct, each with what it finds of the host. -/
def diskReads (hs : List Host) (out arena : ℕ) (s : Proc) : Except Halt Proc :=
  hs.foldlM (fun s h => do
    let (_, s) ← diskRead h out arena s
    return s) s

/-- Collections of the processes into one list, each with the names it finds. -/
def processReads (dirs : List (List (List UInt8))) (list arena : ℕ) (s : Proc) :
    Except Halt Proc :=
  dirs.foldlM (fun s names => do
    let (_, s) ← processListCollect (some names) list arena s
    return s) s

/-- The partitions that reads find. -/
def foundPartitions (hs : List Host) : List SysPartition :=
  hs.flatMap fun h => partitionChunks (partitionsText h)

/-- The names that collections find. -/
def foundNames (dirs : List (List (List UInt8))) : List (List UInt8) := dirs.flatMap numericNames

/-- The arena has room for `n` more partitions. -/
def ReadRoom (arena out : ℕ) (capacity : UInt64) (s : Proc) (n : ℕ) : Prop :=
  storedOf SysPartition arena out capacity s n = n

/-- Reads one after the other push what they find one after the other. -/
theorem diskReads_eq (hne : out ≠ NULL) {hs : List Host}
    (hfiles : ∀ h ∈ hs, h.file .procPartitions ≠ none) (s : Proc) :
    diskReads hs out arena s =
      (foundPartitions hs).foldlM (fun s p => diskPush.push arena out p s) s := by
  induction hs generalizing s with
  | nil => rfl
  | cons h hs ih =>
    obtain ⟨hfile, hfiles⟩ := List.forall_mem_cons.mp hfiles
    rw [diskReads, List.foldlM_cons, diskRead_eq hne hfile, foundPartitions, List.flatMap_cons,
      List.foldlM_append]
    simp only [bind_assoc, pure_bind]
    exact bind_congr fun s' => ih hfiles s'

/-- With room for what they find, reads append all of it. -/
theorem diskReads_outcome (hne : out ≠ NULL) {hs : List Host}
    (hfiles : ∀ h ∈ hs, h.file .procPartitions ≠ none) (hplace : ListPlace arena out lo capacity)
    (hinv : ListInv SysPartition arena out lo capacity s)
    (hroom : ReadRoom arena out capacity s (foundPartitions hs).length) :
    ∃ s', diskReads hs out arena s = .ok s' ∧
      entries SysPartition out s'.mem = entries SysPartition out s.mem ++ foundPartitions hs := by
  obtain ⟨s', n, hfold, hkept, -⟩ :=
    diskPush.foldlM_push hplace hinv trivial (foundPartitions hs) (.inr hroom)
  refine ⟨s', (diskReads_eq hne hfiles s).trans hfold, ?_⟩
  rw [hkept.entries_eq, diskPush_item, List.map_id, hroom, List.take_length]

theorem collected_of_add {a b : ℕ} (h : collected arena list capacity s (a + b) = a + b) :
    collected arena list capacity s a = a := by
  unfold collected at h ⊢
  split
  · next hdata =>
    rw [if_pos hdata] at h
    exact stored_of_add h
  · next hdata =>
    rw [if_neg hdata] at h
    exact stored_of_add h

/-- With room for what they find, collections append all of it. -/
theorem processReads_outcome (hplace : ListPlace arena list lo capacity) (hne : list ≠ NULL)
    {dirs : List (List (List UInt8))} (hlist : ProcessListAt arena list lo capacity s)
    (hroom : CollectRoom arena list capacity s (foundNames dirs).length) :
    ∃ s', processReads dirs list arena s = .ok s' ∧
      processes list s'.mem = processes list s.mem ++ (foundNames dirs).map newProcess := by
  induction dirs generalizing s with
  | nil => exact ⟨s, rfl, (List.append_nil _).symm⟩
  | cons names dirs ih =>
    obtain ⟨hfirst, hall⟩ := hroom
    rw [foundNames, List.flatMap_cons, List.length_append] at hall
    -- room for all names is room for those of the first directory
    have hnow := collected_of_add hall
    obtain ⟨hdata, hlt, -⟩ | ⟨-, s₁, hcollect, hinv, hcap, hentries, hrest⟩ :=
      processListCollect_outcome hplace hlist hne names (.inr ⟨hfirst, hnow⟩)
    · exact absurd (hfirst hdata) (Nat.not_le.mpr hlt)
    · have hdata := hinv.data_ne_zero hplace hcap
      obtain ⟨s₂, hreads, hentries₂⟩ :=
        ih (hinv.processListAt hcap) ⟨fun h0 => absurd h0 hdata, hrest _ hall⟩
      refine ⟨s₂, ?_, ?_⟩
      · rw [processReads, List.foldlM_cons, hcollect]
        exact hreads
      · rw [hentries₂, hentries, hnow, ← List.length_map newProcess, List.take_length,
          List.append_assoc, foundNames, foundNames, List.flatMap_cons, List.map_append]

/-- A zeroed struct has no processes. -/
theorem processes_of_zeroed
    (h : ListRun.Zeroed arena list capacity (⟨s, [], []⟩ : ListRun SysProc)) :
    ProcessListAt arena list (arenaBase arena + position arena s) capacity s ∧
      processes list s.mem = [] := by
  have hdata : (listHead list s.mem).data = 0 := congrArg ListHead.data h.listHead_eq
  exact ⟨⟨h.arenaAt, le_rfl, .inl hdata⟩, if_pos hdata⟩

/-- Reading again leaves the partitions of the last file iff they are all that the reads found, that
is, when its lines fit the buffer, iff no earlier file had any. The processes of the last directory
are what is left iff no earlier one had any. -/
theorem listReads_last_iff (arena d : ℕ) (capacity : UInt64) (s : Proc) (hne : d ≠ NULL) :
    (∀ (earlier : List Host) (last : Host),
      ListRun.Zeroed arena d capacity (⟨s, [], []⟩ : ListRun SysPartition) →
      (∀ h ∈ earlier ++ [last], h.file .procPartitions ≠ none) →
      ReadRoom arena d capacity s (foundPartitions (earlier ++ [last])).length →
        ∃ s', diskReads (earlier ++ [last]) d arena s = .ok s' ∧
          (entries SysPartition d s'.mem = partitionLines (partitionsText last) ↔
            foundPartitions (earlier ++ [last]) = partitionLines (partitionsText last)) ∧
          ((∀ line ∈ Stream.lines (partitionsText last), line.length < buffDefault) →
            (entries SysPartition d s'.mem = partitionLines (partitionsText last) ↔
              foundPartitions earlier = []))) ∧
    ∀ (earlier : List (List (List UInt8))) (last : List (List UInt8)),
      ListRun.Zeroed arena d capacity (⟨s, [], []⟩ : ListRun SysProc) →
      CollectRoom arena d capacity s (foundNames (earlier ++ [last])).length →
        ∃ s', processReads (earlier ++ [last]) d arena s = .ok s' ∧
          ((processes d s'.mem).map SysProc.pid = (numericNames last).map pidOf ↔
            foundNames earlier = []) := by
  constructor
  · intro earlier last hzero hfiles hroom
    obtain ⟨hinv, hempty⟩ := hzero.listInv
    obtain ⟨s', hreads, hentries⟩ := diskReads_outcome hne hfiles hzero.place hinv hroom
    have hall : entries SysPartition d s'.mem = foundPartitions (earlier ++ [last]) := by
      rw [hentries, hempty, List.nil_append]
    refine ⟨s', hreads, by rw [hall], fun hfits => ?_⟩
    -- the last file is read by its lines, so only the earlier ones can add to it
    have hlast : foundPartitions (earlier ++ [last]) =
        foundPartitions earlier ++ partitionLines (partitionsText last) := by
      rw [foundPartitions, foundPartitions, List.flatMap_append, List.flatMap_singleton,
        partitionChunks_eq_partitionLines hfits]
    rw [hall, hlast]
    exact List.append_left_eq_self
  · intro earlier last hzero hroom
    obtain ⟨hlist, hempty⟩ := processes_of_zeroed hzero
    obtain ⟨s', hreads, hentries⟩ := processReads_outcome hzero.place hne hlist hroom
    refine ⟨s', hreads, ?_⟩
    have hpids : (processes d s'.mem).map SysProc.pid =
        (foundNames earlier).map pidOf ++ (numericNames last).map pidOf := by
      rw [hentries, hempty, List.nil_append, foundNames, List.flatMap_append,
        List.flatMap_singleton, List.map_map, List.map_append]
      rfl
    rw [hpids, List.append_left_eq_self, List.map_eq_nil_iff]

/-- A file with one partition. -/
def onePartition : List UInt8 := ascii "8 0 1024 sda\n"

theorem listReads_last_iff_twice :
    (∃ s', diskReads ([hostOf []] ++ [hostOf onePartition]) 64 4096 ListRun.sampleProc = .ok s' ∧
      (entries SysPartition 64 s'.mem = partitionLines onePartition ↔
        foundPartitions ([hostOf []] ++ [hostOf onePartition]) = partitionLines onePartition) ∧
      ((∀ line ∈ Stream.lines onePartition, line.length < buffDefault) →
        (entries SysPartition 64 s'.mem = partitionLines onePartition ↔
          foundPartitions [hostOf []] = []))) ∧
    ∃ s', processReads ([[ascii "self"]] ++ [[ascii "1"]]) 64 4096 ListRun.sampleProc = .ok s' ∧
      ((processes 64 s'.mem).map SysProc.pid = (numericNames [ascii "1"]).map pidOf ↔
        foundNames [[ascii "self"]] = []) := by
  obtain ⟨hdisk, hprocess⟩ :=
    listReads_last_iff 4096 64 1024 ListRun.sampleProc (by decide)
  constructor
  · refine hdisk _ (hostOf onePartition) ListRun.zeroed_sample (fun h hh => ?_) ?_
    · rcases List.mem_append.mp hh with hh | hh <;>
        rw [List.mem_singleton.mp hh] <;> exact Option.some_ne_none _
    · unfold ReadRoom
      decide +kernel
  · refine hprocess _ [ascii "1"] ListRun.zeroed_sample ?_
    unfold CollectRoom
    decide +kernel

/-- A second read finds the partitions and the processes of the first in the list. -/
theorem not_listReads_last :
    (¬ ∀ (arena out : ℕ) (capacity : UInt64) (s : Proc) (earlier : List Host) (last : Host),
      ListRun.Zeroed arena out capacity (⟨s, [], []⟩ : ListRun SysPartition) → out ≠ NULL →
      (∀ h ∈ earlier ++ [last], h.file .procPartitions ≠ none) →
      ReadRoom arena out capacity s (foundPartitions (earlier ++ [last])).length →
        ∃ s', diskReads (earlier ++ [last]) out arena s = .ok s' ∧
          entries SysPartition out s'.mem = partitionLines (partitionsText last)) ∧
    ¬ ∀ (arena list : ℕ) (capacity : UInt64) (s : Proc) (earlier : List (List (List UInt8)))
        (last : List (List UInt8)),
      ListRun.Zeroed arena list capacity (⟨s, [], []⟩ : ListRun SysProc) → list ≠ NULL →
      CollectRoom arena list capacity s (foundNames (earlier ++ [last])).length →
        ∃ s', processReads (earlier ++ [last]) list arena s = .ok s' ∧
          (processes list s'.mem).map SysProc.pid = (numericNames last).map pidOf := by
  constructor
  · intro hall
    have hfiles : ∀ h ∈ [hostOf onePartition] ++ [hostOf onePartition],
        h.file .procPartitions ≠ none := by
      intro h hh
      rcases List.mem_append.mp hh with hh | hh <;>
        rw [List.mem_singleton.mp hh] <;> exact Option.some_ne_none _
    have hroom : ReadRoom 4096 64 1024 ListRun.sampleProc
        (foundPartitions ([hostOf onePartition] ++ [hostOf onePartition])).length := by
      unfold ReadRoom
      decide +kernel
    have hzero : ListRun.Zeroed 4096 64 1024
        (⟨ListRun.sampleProc, [], []⟩ : ListRun SysPartition) :=
      ListRun.zeroed_sample
    obtain ⟨hinv, hempty⟩ := hzero.listInv
    obtain ⟨s₁, hreads₁, hentries⟩ :=
      diskReads_outcome (by decide) hfiles hzero.place hinv hroom
    obtain ⟨s₂, hreads₂, hlast⟩ := hall 4096 64 1024 ListRun.sampleProc [hostOf onePartition]
      (hostOf onePartition) hzero (by decide) hfiles hroom
    obtain rfl : s₁ = s₂ := Except.ok.inj (hreads₁.symm.trans hreads₂)
    -- the list has two entries, the file one
    have hlength := congrArg List.length (hentries.symm.trans hlast)
    rw [hempty, List.nil_append] at hlength
    exact absurd hlength (by decide +kernel)
  · intro hall
    have hroom : CollectRoom 4096 64 1024 ListRun.sampleProc
        (foundNames ([[ascii "1"]] ++ [[ascii "1"]])).length := by
      unfold CollectRoom
      decide +kernel
    have hzero : ListRun.Zeroed 4096 64 1024 (⟨ListRun.sampleProc, [], []⟩ : ListRun SysProc) :=
      ListRun.zeroed_sample
    obtain ⟨hlist, hempty⟩ := processes_of_zeroed hzero
    obtain ⟨s₁, hreads₁, hentries⟩ := processReads_outcome hzero.place (by decide) hlist hroom
    obtain ⟨s₂, hreads₂, hlast⟩ := hall 4096 64 1024 ListRun.sampleProc [[ascii "1"]]
      [ascii "1"] hzero (by decide) hroom
    obtain rfl : s₁ = s₂ := Except.ok.inj (hreads₁.symm.trans hreads₂)
    rw [hentries, hempty, List.nil_append] at hlast
    exact absurd (congrArg List.length hlast) (by decide +kernel)

/-! ## Reads that run out of arena -/

/-- What success of a read promises: behind the entries of before there is one for everything
`expected`, and none of those that were `found` was dropped. -/
def Complete {α : Type} (expected : List α) (found : ℕ) (before after : List α) : Prop :=
  ∃ added, after = before ++ added ∧ expected.Sublist added ∧ added.length = found

/-- A read that stores the first of what it finds is complete iff it stores all of it. -/
theorem complete_take_iff {α : Type} (expected : List α) {found before after : List α} {n : ℕ}
    (hafter : after = before ++ found.take n) (hn : n ≤ found.length) :
    Complete expected found.length before after ↔ n = found.length ∧ expected.Sublist found := by
  constructor
  · rintro ⟨added, hadded, hexpected, hlength⟩
    obtain rfl : found.take n = added := List.append_cancel_left (hafter.symm.trans hadded)
    rw [List.length_take, min_eq_left hn] at hlength
    rw [hlength, List.take_length] at hexpected
    exact ⟨hlength, hexpected⟩
  · rintro ⟨rfl, hexpected⟩
    rw [List.take_length] at hafter
    exact ⟨found, hafter, hexpected, rfl⟩

/-- If `disk_read` returns success, there is a partition for each well-formed line. -/
def DiskComplete (h : Host) (out arena : ℕ) (s : Proc) : Prop :=
  ∀ s', diskRead h out arena s = .ok (errOk, s') →
    Complete (partitionLines (partitionsText h)) (partitionChunks (partitionsText h)).length
      (entries SysPartition out s.mem) (entries SysPartition out s'.mem)

/-- If `process_list_collect` returns success, there is a process for each numeric name. -/
def CollectComplete (names : List (List UInt8)) (list arena : ℕ) (s : Proc) : Prop :=
  ∀ s', processListCollect (some names) list arena s = .ok (errOk, s') →
    Complete ((numericNames names).map newProcess) (numericNames names).length
      (processes list s.mem) (processes list s'.mem)

theorem DiskComplete.iff_of_room (hne : out ≠ NULL) (hfile : h.file .procPartitions ≠ none)
    (hplace : ListPlace arena out lo capacity) (hinv : ListInv SysPartition arena out lo capacity s)
    (hexact : capacity.toNat ≤ 2 ^ 62 ∨
      ReadRoom arena out capacity s (partitionChunks (partitionsText h)).length) :
    DiskComplete h out arena s ↔
      ReadRoom arena out capacity s (partitionChunks (partitionsText h)).length ∧
        (partitionLines (partitionsText h)).Sublist (partitionChunks (partitionsText h)) := by
  obtain ⟨s', hread, hentries⟩ := diskRead_outcome hne hfile hplace hinv hexact
  have hiff := complete_take_iff (partitionLines (partitionsText h)) hentries
    (stored_le _ _ _ _ _)
  refine Iff.trans ⟨fun hall => hall s' hread, fun hcomplete s'' hread' => ?_⟩ hiff
  obtain rfl : s' = s'' := congrArg Prod.snd (Except.ok.inj (hread.symm.trans hread'))
  exact hcomplete

theorem collected_le (n : ℕ) : collected arena list capacity s n ≤ n := by
  unfold collected
  split
  · exact stored_le _ _ _ _ _
  · exact stored_le _ _ _ _ _

theorem CollectComplete.iff_of_room (hplace : ListPlace arena list lo capacity)
    (hlist : ProcessListAt arena list lo capacity s) (hne : list ≠ NULL)
    (names : List (List UInt8)) (hexact : capacity.toNat ≤ 2 ^ 62 ∨
      CollectRoom arena list capacity s (numericNames names).length) :
    CollectComplete names list arena s ↔
      ((listHead list s.mem).data = 0 ∧ capacity.toNat < position arena s + firstArray) ∨
        CollectRoom arena list capacity s (numericNames names).length := by
  obtain ⟨hdata, hlt, hcollect⟩ | ⟨hfirst, s', hcollect, -, -, hentries, -⟩ :=
    processListCollect_outcome hplace hlist hne names hexact
  · -- the assertion is no success
    refine iff_of_true (fun s' hok => ?_) (.inl ⟨hdata, hlt⟩)
    rw [hcollect] at hok
    cases hok
  · have hn : collected arena list capacity s (numericNames names).length ≤
        (numericNames names).length := collected_le _
    have hiff := complete_take_iff ((numericNames names).map newProcess) hentries
      (by rwa [List.length_map])
    rw [List.length_map] at hiff
    have hcomplete : CollectComplete names list arena s ↔
        collected arena list capacity s (numericNames names).length =
          (numericNames names).length := by
      refine Iff.trans ⟨fun hall => hall s' hcollect, fun hcomplete s'' hcollect' => ?_⟩
        (hiff.trans (and_iff_left (List.Sublist.refl _)))
      obtain rfl : s' = s'' := congrArg Prod.snd (Except.ok.inj (hcollect.symm.trans hcollect'))
      exact hcomplete
    rw [hcomplete]
    refine ⟨fun hall => .inr ⟨hfirst, hall⟩, fun h => ?_⟩
    rcases h with ⟨hdata, hlt⟩ | hroom
    · exact absurd (hfirst hdata) (Nat.not_le.mpr hlt)
    · exact hroom.2

/-- Where the lines fit the buffer, every well-formed one is found. -/
theorem partitionLines_sublist {text : List UInt8}
    (h : ∀ line ∈ Stream.lines text, line.length < buffDefault) :
    (partitionLines text).Sublist (partitionChunks text) := by
  rw [partitionChunks_eq_partitionLines h]

/-- Success is what it promises iff there is room for all that was found, and among the partitions
that were found are those of the lines. The processes have no such condition, but a list without an
array fails an assertion instead when there is no room for its first one. -/
theorem listReads_complete_iff (arena d lo : ℕ) (capacity : UInt64) (s : Proc)
    (hplace : ListPlace arena d lo capacity) (hne : d ≠ NULL) :
    (∀ h : Host, ListInv SysPartition arena d lo capacity s → h.file .procPartitions ≠ none →
      (ReadRoom arena d capacity s (partitionChunks (partitionsText h)).length ∧
          (partitionLines (partitionsText h)).Sublist (partitionChunks (partitionsText h)) →
        DiskComplete h d arena s) ∧
      (capacity.toNat ≤ 2 ^ 62 → (DiskComplete h d arena s ↔
        ReadRoom arena d capacity s (partitionChunks (partitionsText h)).length ∧
          (partitionLines (partitionsText h)).Sublist (partitionChunks (partitionsText h)))) ∧
      (capacity.toNat ≤ 2 ^ 62 →
        (∀ line ∈ Stream.lines (partitionsText h), line.length < buffDefault) →
          (DiskComplete h d arena s ↔
            ReadRoom arena d capacity s (partitionChunks (partitionsText h)).length))) ∧
    ∀ names : List (List UInt8), ProcessListAt arena d lo capacity s →
      (CollectRoom arena d capacity s (numericNames names).length →
        CollectComplete names d arena s) ∧
      (capacity.toNat ≤ 2 ^ 62 → (CollectComplete names d arena s ↔
        ((listHead d s.mem).data = 0 ∧ capacity.toNat < position arena s + firstArray) ∨
          CollectRoom arena d capacity s (numericNames names).length)) := by
  constructor
  · intro h hinv hfile
    exact ⟨fun hroom => (DiskComplete.iff_of_room hne hfile hplace hinv (.inr hroom.1)).mpr hroom,
      fun hcap => DiskComplete.iff_of_room hne hfile hplace hinv (.inl hcap),
      fun hcap hfits => (DiskComplete.iff_of_room hne hfile hplace hinv (.inl hcap)).trans
        (and_iff_left (partitionLines_sublist hfits))⟩
  · intro names hlist
    exact ⟨fun hroom =>
        (CollectComplete.iff_of_room hplace hlist hne names (.inr hroom)).mpr (.inr hroom),
      fun hcap => CollectComplete.iff_of_room hplace hlist hne names (.inl hcap)⟩

/-- A file with nine partitions. -/
def ninePartitions : List UInt8 :=
  ascii "8 0 9 a\n8 1 1 b\n8 2 1 c\n8 3 1 d\n8 4 1 e\n8 5 1 f\n8 6 1 g\n8 7 1 h\n8 8 1 i\n"

/-- A directory with nine processes. -/
def nineNames : List (List UInt8) :=
  ["1", "2", "3", "4", "5", "6", "7", "8", "9"].map ascii

/-- An arena that holds an array of eight entries and one of sixteen behind it. -/
def roomyProc : Proc := (arenaCreate Kernel.above 2048 Proc.fresh).2

theorem zeroed_roomy {α : Type} [Layout α] :
    ListRun.Zeroed 4096 64 2048 (⟨roomyProc, [], []⟩ : ListRun α) :=
  ListRun.zeroed_create (by decide +kernel) (by decide) (by decide)

/-- Nine entries are stored, for which the list grows twice. -/
theorem listReads_complete_iff_nine :
    (DiskComplete (hostOf ninePartitions) 64 4096 roomyProc ∧
      (DiskComplete (hostOf ninePartitions) 64 4096 roomyProc ↔
        ReadRoom 4096 64 2048 roomyProc (partitionChunks ninePartitions).length)) ∧
    CollectComplete nineNames 64 4096 roomyProc ∧
      (CollectComplete nineNames 64 4096 roomyProc ↔
        ((listHead 64 roomyProc.mem).data = 0 ∧
            (2048 : UInt64).toNat < position 4096 roomyProc + firstArray) ∨
          CollectRoom 4096 64 2048 roomyProc (numericNames nineNames).length) := by
  constructor
  · have hzero : ListRun.Zeroed 4096 64 2048 (⟨roomyProc, [], []⟩ : ListRun SysPartition) :=
      zeroed_roomy
    obtain ⟨hall, -, hfits⟩ := (listReads_complete_iff 4096 64 _ 2048 roomyProc
      hzero.place (by decide)).1 (hostOf ninePartitions) hzero.listInv.1 (Option.some_ne_none _)
    refine ⟨hall ⟨?_, ?_⟩, hfits (by decide) (by decide +kernel)⟩
    · unfold ReadRoom
      decide +kernel
    · decide +kernel
  · have hzero : ListRun.Zeroed 4096 64 2048 (⟨roomyProc, [], []⟩ : ListRun SysProc) :=
      zeroed_roomy
    obtain ⟨hall, hiff⟩ := (listReads_complete_iff 4096 64 _ 2048 roomyProc
      hzero.place (by decide)).2 nineNames (processes_of_zeroed hzero).1
    refine ⟨hall ?_, hiff (by decide)⟩
    unfold CollectRoom
    decide +kernel

/-- An arena of 1024 bytes holds an array of eight entries, but not one of sixteen behind it: the
ninth entry is dropped, and success is returned. -/
theorem not_listReads_complete :
    (¬ ∀ (arena out : ℕ) (capacity : UInt64) (s : Proc) (h : Host),
      ListRun.Zeroed arena out capacity (⟨s, [], []⟩ : ListRun SysPartition) → out ≠ NULL →
      h.file .procPartitions ≠ none → DiskComplete h out arena s) ∧
    ¬ ∀ (arena list : ℕ) (capacity : UInt64) (s : Proc) (names : List (List UInt8)),
      ListRun.Zeroed arena list capacity (⟨s, [], []⟩ : ListRun SysProc) → list ≠ NULL →
        CollectComplete names list arena s := by
  constructor
  · intro hall
    have hzero : ListRun.Zeroed 4096 64 1024
        (⟨ListRun.sampleProc, [], []⟩ : ListRun SysPartition) :=
      ListRun.zeroed_sample
    have hcomplete := hall 4096 64 1024 _ (hostOf ninePartitions) hzero (by decide)
      (Option.some_ne_none _)
    obtain ⟨hroom, -⟩ := (DiskComplete.iff_of_room (by decide) (Option.some_ne_none _) hzero.place
      hzero.listInv.1 (.inl (by decide))).mp hcomplete
    unfold ReadRoom at hroom
    exact absurd hroom (by decide +kernel)
  · intro hall
    have hzero : ListRun.Zeroed 4096 64 1024 (⟨ListRun.sampleProc, [], []⟩ : ListRun SysProc) :=
      ListRun.zeroed_sample
    have hcomplete := hall 4096 64 1024 _ nineNames hzero (by decide)
    have hiff := CollectComplete.iff_of_room hzero.place (processes_of_zeroed hzero).1 (by decide)
      nineNames (.inl (by decide))
    rcases hiff.mp hcomplete with ⟨-, hlt⟩ | hroom
    · exact absurd hlt (by decide +kernel)
    · exact absurd hroom.2 (by decide +kernel)

end AgentResources
