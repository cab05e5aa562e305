import AgentResources.Base.TextScan
import AgentResources.Libres.PartitionTable

/-!
# The names of the processes

`is_numeric` decides by the terminator of a name whether it has only digits, and `parse_u64` by the
size of its array where the number ends. On the array that `readdir` fills both look at the name
and at nothing behind it (`isNumericLoop_name`, `parseU64Loop_name`). So collecting into an empty
list stores one process for each name that is a number, with the number as its id
(`processListCollect_numbers`).
-/

namespace AgentResources

/-! ## The two scanners -/

/-- The loop of `is_numeric`, from the byte that `s` points to on. -/
def isNumericLoop : List UInt8 → Except Halt Bool
  | [] => .error (.undefined .overread)
  | c :: s =>
    if c = 0 then .ok true
    else if c < 48 ∨ 57 < c then .ok false
    else isNumericLoop s

variable {name rest : List UInt8} {len : ℕ}

/-- The loop stops at the terminator at the latest. -/
theorem isNumericLoop_name (hname : 0 ∉ name) (rest : List UInt8) :
    isNumericLoop (name ++ 0 :: rest) = .ok (isNumeric name) := by
  induction name with
  | nil => rfl
  | cons c name ih =>
    -- no byte of the name is the terminator
    obtain ⟨hc, hname⟩ := not_or.mp (mt List.mem_cons.mpr hname)
    rw [List.cons_append, isNumericLoop, if_neg (Ne.symm hc), isNumeric, List.all_cons]
    by_cases hdigit : isDigit c
    · rw [if_neg (isDigit_iff.mp hdigit), ih hname, hdigit, Bool.true_and, isNumeric]
    · rw [if_pos (not_not.mp (mt isDigit_iff.mpr hdigit)), Bool.eq_false_iff.mpr hdigit,
        Bool.false_and]

/-- The terminator ends the digits, if nothing before it does. -/
theorem digitRun_name (hlen : name.length ≤ len) (rest : List UInt8) :
    digitRun (name ++ 0 :: rest) len = name.takeWhile isDigit := by
  -- the terminator, if it is within the length at all, is no digit
  have hstop : ((0 :: rest).take (len - name.length)).takeWhile isDigit = [] := by
    cases len - name.length with
    | zero => rfl
    | succ k => exact List.takeWhile_cons_of_neg (by decide)
  rw [digitRun, List.take_append, List.take_of_length_le hlen, List.takeWhile_append, hstop,
    List.append_nil]
  split
  · next hall => exact (List.takeWhile_prefix _).eq_of_length hall |>.symm
  · rfl

theorem parseU64_name (hlen : name.length ≤ len) (rest : List UInt8) :
    parseU64 (name ++ 0 :: rest) len =
      UInt64.ofNat (Scanf.ofDigits (name.takeWhile isDigit)) := by
  rw [parseU64_eq_ofDigits, digitRun_name hlen]

/-- The loop reads the digits at the start of the name. -/
theorem parseU64Loop_name (hlen : name.length ≤ len) (rest : List UInt8) :
    parseU64Loop (name ++ 0 :: rest) len =
      .ok (UInt64.ofNat (Scanf.ofDigits (name.takeWhile isDigit))) := by
  have hholds : HoldsNumber (name ++ 0 :: rest) len :=
    .inr ⟨0, List.mem_append_right _ List.mem_cons_self, by decide⟩
  rw [parseU64Loop_eq hholds, parseU64_name hlen]

/-- The id of a process is the number its name is. -/
theorem toInt_pidOf (hlen : name.length ≤ 255) (hnumeric : isNumeric name)
    (hlt : Scanf.ofDigits name < 2 ^ 31) : (pidOf name).toInt = Scanf.ofDigits name := by
  have hall : name.takeWhile isDigit = name := by
    rw [List.takeWhile_eq_self_iff]
    exact List.all_eq_true.mp hnumeric
  rw [pidOf, parseU64_name (hlen.trans (by decide)), hall, UInt64.toUInt32_ofNat',
    UInt32.toInt32_ofNat']
  exact Int32.toInt_ofNat_of_lt hlt

/-! ## Collecting into an empty list -/

/-- A process as it is collected under a name: its id is the number, and all else is reset. -/
structure CollectedAs (name : List UInt8) (p : SysProc) : Prop where
  pid_eq : p.pid.toInt = Scanf.ofDigits name
  state_eq : p.state = .undefined
  utime_eq : p.utime = 0
  stime_eq : p.stime = 0
  numThreads_eq : p.numThreads = 0
  name_eq : p.name[0] = 0

theorem collectedAs_newProcess (hlen : name.length ≤ 255) (hnumeric : isNumeric name)
    (hlt : Scanf.ofDigits name < 2 ^ 31) : CollectedAs name (newProcess name) where
  pid_eq := toInt_pidOf hlen hnumeric hlt
  state_eq := rfl
  utime_eq := rfl
  stime_eq := rfl
  numThreads_eq := rfl
  name_eq := by rw [newProcess, Vector.getElem_replicate]

variable {arena list : ℕ} {capacity : UInt64} {s : Proc}

/-- The first array of an empty list. -/
theorem ListRun.Zeroed.initItems
    (hzero : ListRun.Zeroed arena list capacity (⟨s, [], []⟩ : ListRun SysProc))
    (hroom : position arena s + firstArray ≤ capacity.toNat) :
    ∃ s', AgentResources.initItems list arena s = .ok s' ∧
      ListInv SysProc arena list (arenaBase arena + position arena s) capacity s' ∧
      (listHead list s'.mem).capacity ≠ 0 ∧ entries SysProc list s'.mem = [] ∧
      Grown SysProc arena list (position arena s) 1 0 s' := by
  have hexact : position arena s + firstArray < 2 ^ 64 := hroom.trans_lt capacity.toNat_lt
  -- with room for it the first array is not refused
  obtain ⟨hlt, -⟩ | ⟨-, s', hinit, hinv, hpos, -, hcount, hcap⟩ :=
    initItems_outcome hzero.place hzero.arenaAt le_rfl hexact
  · exact absurd hroom (Nat.not_le.mpr hlt)
  · refine ⟨s', hinit, hinv, ?_, ?_, ?_, ?_, ?_⟩
    · rw [hcap]
      decide
    · rw [entries, hcount]
      exact Memory.array_zero _ _
    · rw [hcount]
      rfl
    · rw [hcap]
      rfl
    · rw [hpos]
      rfl

/-- Collecting into an empty list, with room for its arrays, stores a process for each name that is
a number. -/
theorem ListRun.Zeroed.processListCollect
    (hzero : ListRun.Zeroed arena list capacity (⟨s, [], []⟩ : ListRun SysProc))
    (hne : list ≠ NULL) (names : List (List UInt8))
    (hroom : position arena s +
      sizeofSysProc.toNat * spaceFor (max (numericNames names).length 1) ≤ capacity.toNat) :
    ∃ s', AgentResources.processListCollect (some names) list arena s = .ok (errOk, s') ∧
      entries SysProc list s'.mem = (numericNames names).map newProcess := by
  have hdata : (listHead list s.mem).data = 0 := congrArg ListHead.data hzero.listHead_eq
  -- room for all arrays is room for the first
  have hfirst : position arena s + firstArray ≤ capacity.toNat := by
    have hmono : spaceFor 1 ≤ spaceFor (max (numericNames names).length 1) :=
      spaceFor_mono (le_max_right _ _)
    refine le_trans (Nat.add_le_add_left ?_ _) hroom
    exact Nat.mul_le_mul_left sizeofSysProc.toNat hmono
  obtain ⟨s₁, hinit, hinv₁, hcap₁, hempty, hgrown₁⟩ := hzero.initItems hfirst
  obtain ⟨s', hfold, -, -, hentries, -⟩ := processPush.foldlM_grown hzero.place hinv₁ hcap₁
    hgrown₁ le_rfl (numericNames names) hroom
  refine ⟨s', ?_, ?_⟩
  · rw [processListCollect_eq hne, if_pos hdata, hinit, Except.ok_bind]
    show (do
      let s ← (numericNames names).foldlM (fun s name => processPush.push arena list name s) s₁
      return (errOk, s)) = _
    rw [hfold]
    rfl
  · rw [hentries, hempty, List.nil_append, processPush_item]

/-- Collecting into an empty list stores one process for each name with only digits, in the order of
the listing. The id of each is the value of its name. -/
theorem processListCollect_numbers (names : List (List UInt8)) (list arena : ℕ)
    (capacity : UInt64) (s : Proc) (hne : list ≠ NULL)
    (hlen : ∀ name ∈ names, name.length ≤ 255)
    (hpids : ∀ name ∈ names, name.all isDigit → Scanf.ofDigits name < 2 ^ 31)
    (hzero : ListRun.Zeroed arena list capacity (⟨s, [], []⟩ : ListRun SysProc))
    (hroom : position arena s + sizeofSysProc.toNat *
      spaceFor (max (names.filter fun name => name.all isDigit).length 1) ≤ capacity.toNat) :
    ∃ s', processListCollect (some names) list arena s = .ok (errOk, s') ∧
      List.Forall₂ CollectedAs (names.filter fun name => name.all isDigit)
        (entries SysProc list s'.mem) := by
  obtain ⟨s', hcollect, hentries⟩ := hzero.processListCollect hne names hroom
  refine ⟨s', hcollect, ?_⟩
  rw [hentries, numericNames, List.forall₂_map_right_iff]
  refine List.forall₂_same.mpr ?_
  intro name hname
  obtain ⟨hmem, hnumeric⟩ := List.mem_filter.mp hname
  -- the test of `is_numeric` is that of the digits
  exact collectedAs_newProcess (hlen name hmem) hnumeric (hpids name hmem hnumeric)

/-- Two processes among other names, one of them with a zero in front. -/
theorem processListCollect_numbers_two :
    ∃ s', processListCollect (some ([".", "..", "1", "self", "0042"].map ascii)) 64 4096
        ListRun.sampleProc = .ok (errOk, s') ∧
      List.Forall₂ CollectedAs (([".", "..", "1", "self", "0042"].map ascii).filter
        fun name => name.all isDigit) (entries SysProc 64 s'.mem) := by
  refine processListCollect_numbers ([".", "..", "1", "self", "0042"].map ascii) 64 4096 1024
    ListRun.sampleProc (by decide) ?_ ?_ ListRun.zeroed_sample ?_
  · decide +kernel
  · decide +kernel
  · decide +kernel

end AgentResources
