import AgentResources.Libres.FieldBounds

/-!
# The fields of a status file

A status file gives a name, a state letter and a number of threads, each on one line anywhere in
the file. The reader fills a field from the lines that begin with its key (`statusNext_eq`), so
from a file with one such line it has what that line gives. Two of the three values are not stored
as they are: a stopped process is stored as sleeping, and the number of threads is cut to eight
bits.

## Main results

* `processRead_of_statusText`: what the reader returns for a status file;
* `processRead_status_iff`: when that is what the file says.
-/

namespace AgentResources

/-! ## Status files -/

/-- The state that a letter of the kernel stands for. -/
def kernelState (letter : UInt8) : Option SysProcState :=
  match letter with
  | 82 => some .running
  | 83 => some .sleeping
  | 68 => some .diskSleeping
  | 84 => some .stopped
  | 116 => some .tracingStopped
  | 90 => some .zombie
  | 88 => some .dead
  | 73 => some .idle
  | _ => none

/-- Exactly one line begins with the key and a colon; blanks and `rest` follow. -/
def OnlyLine (key : String) (rest : List UInt8) (text : List UInt8) : Prop :=
  ∃ blanks, (∀ b ∈ blanks, b = 32 ∨ b = 9) ∧
    (Stream.lines text).filter ((ascii key ++ [58]).isPrefixOf ·) =
      [ascii key ++ 58 :: (blanks ++ rest)]

/-- The end of a line: a newline, or nothing at the end of the file. -/
def IsEol (eol : List UInt8) : Prop := eol = [] ∨ eol = [Stream.newline]

/-- A status file with this name, this state letter and this number of threads. -/
structure StatusText (value : List UInt8) (letter : UInt8) (n : ℕ) (text : List UInt8) : Prop where
  lines_lt : ∀ line ∈ Stream.lines text, line.length < buffLarge
  /-- The name is a string on one line, and blanks before it are not part of it. -/
  name : ∃ eol, IsEol eol ∧ OnlyLine "Name" (value ++ eol) text
  name_le : value.length ≤ 15
  name_bytes : ∀ b ∈ value, b ≠ 0 ∧ b ≠ Stream.newline
  name_head : ∀ b ∈ value.head?, b ≠ 32 ∧ b ≠ 9
  state : ∃ description, OnlyLine "State" (letter :: description) text
  threads : ∃ eol, IsEol eol ∧ OnlyLine "Threads" (Scanf.digits n ++ eol) text

/-- The struct has this name, this state and this number of threads. -/
def SysProc.Reads (out : SysProc) (value : List UInt8) (state : SysProcState) (n : ℕ) : Prop :=
  fieldString out.name = some value ∧ out.state = state ∧ out.numThreads.toInt = n

variable {h : Host} {pid : Int32} {out : SysProc} {value text rest : List UInt8} {letter : UInt8}
  {n : ℕ} {state : SysProcState}

/-! ## Fields and keys -/

/-- What follows the colon and the blanks of a chunk, if it has a colon. -/
def statusValue (chunk : List UInt8) : List UInt8 := (afterColon [32, 9] (cstr chunk)).getD []

/-- The chunk begins with the key and a colon. -/
def hasKey (key : String) (chunk : List UInt8) : Bool := (ascii key ++ [58]).isPrefixOf chunk

theorem isPrefixOf_cstr_eq_hasKey {key : String} (hkey : 0 ∉ ascii key ++ [58])
    (chunk : List UInt8) : (ascii key ++ [58]).isPrefixOf (cstr chunk) = hasKey key chunk :=
  isPrefixOf_cstr hkey chunk

/-- A chunk for a key has a colon. -/
theorem hasKey_of_none {key : String} (hkey : 0 ∉ ascii key ++ [58]) {chunk : List UInt8}
    (hval : afterColon [32, 9] (cstr chunk) = none) : hasKey key chunk = false := by
  rw [← isPrefixOf_cstr_eq_hasKey hkey, Bool.eq_false_iff]
  intro hpre
  have hcolon : 58 ∈ cstr chunk :=
    (List.isPrefixOf_iff_prefix.mp hpre).subset (List.mem_append_right _ List.mem_cons_self)
  have hsome : (afterColon [32, 9] (cstr chunk)).isSome := afterColon_isSome.mpr hcolon
  rw [hval] at hsome
  cases hsome

theorem nextName_eq (name : Vector UInt8 16) (chunk : List UInt8) :
    nextName name chunk = if hasKey "Name" chunk
      then overlay name (spanUntil [10] (statusValue chunk) ++ [0]) else name := by
  have hkey : ascii "Name:" = ascii "Name" ++ [58] := by decide
  have hzero : 0 ∉ ascii "Name" ++ [58] := by decide
  unfold nextName
  cases hval : afterColon [32, 9] (cstr chunk) with
  | none => rw [lineValue_of_afterColon_eq_none hval, hasKey_of_none hzero hval]; rfl
  | some val =>
    rw [lineValue, hval, hkey, isPrefixOf_cstr_eq_hasKey hzero, statusValue, hval]
    cases hasKey "Name" chunk <;> rfl

/-- A chunk changes the field of its key. -/
theorem statusNext_eq (out : SysProc) (chunk : List UInt8) :
    statusNext out chunk =
      { out with
        name := nextName out.name chunk
        state := if hasKey "State" chunk then procState (statusValue chunk) else out.state
        numThreads := if hasKey "Threads" chunk
          then (parseU64 (statusValue chunk ++ [0]) 8).toUInt8.toInt8 else out.numThreads } := by
  have hstate : 0 ∉ ascii "State" ++ [58] := by decide
  have hthreads : 0 ∉ ascii "Threads" ++ [58] := by decide
  have hname := name_statusNext out chunk
  unfold statusNext at hname ⊢
  cases hval : afterColon [32, 9] (cstr chunk) with
  | none =>
    rw [hval] at hname
    rw [← hname, hasKey_of_none hstate hval, hasKey_of_none hthreads hval]
    rfl
  | some val =>
    -- the keys of the source are compared with the string in the buffer
    have hvalue : statusValue chunk = val := by rw [statusValue, hval, Option.getD_some]
    rw [hvalue, ← isPrefixOf_cstr_eq_hasKey hstate, ← isPrefixOf_cstr_eq_hasKey hthreads]
    rfl

/-- A field that only the elements with `p` change is what the only one of them makes it. -/
theorem get_foldl_of_filter {α σ β : Type*} (step : σ → α → σ) (get : σ → β) (next : β → α → β)
    {p : α → Bool} (hget : ∀ s a, get (step s a) = if p a then next (get s) a else get s)
    {l : List α} {a : α} (hl : l.filter p = [a]) (s : σ) :
    get (l.foldl step s) = next (get s) a := by
  calc get (l.foldl step s)
      = l.foldl (fun b a => if p a then next b a else b) (get s) :=
        (List.foldl_hom get fun s a => (hget s a).symm).symm
    _ = (l.filter p).foldl next (get s) := (List.foldl_filter).symm
    _ = next (get s) a := by rw [hl, List.foldl_cons, List.foldl_nil]

/-- The line of a key in a status file, with what it gives. -/
theorem OnlyLine.exists_line {key : String} (honly : OnlyLine key rest text)
    (hkey : 58 ∉ ascii key) (hzero : 0 ∉ ascii key)
    (hrest : ∀ b ∈ (cstr rest).head?, b ≠ 32 ∧ b ≠ 9) :
    ∃ line, (Stream.lines text).filter (hasKey key) = [line] ∧ statusValue line = cstr rest := by
  obtain ⟨blanks, hblanks, hfilter⟩ := honly
  refine ⟨_, hfilter, ?_⟩
  -- the string in the buffer may end within the rest, but not before it
  have hbefore : 0 ∉ ascii key ++ 58 :: blanks := by
    rw [List.mem_append, List.mem_cons]
    rintro (h0 | h0 | h0)
    · exact hzero h0
    · exact absurd h0 (by decide)
    · exact absurd (hblanks 0 h0) (by decide)
  have hcstr : cstr (ascii key ++ 58 :: (blanks ++ rest)) =
      ascii key ++ 58 :: (blanks ++ cstr rest) := by
    have h := cstr_append hbefore rest
    rwa [List.append_assoc, List.append_assoc] at h
  have hafter : afterColon [32, 9] (ascii key ++ 58 :: (blanks ++ cstr rest)) = some (cstr rest) :=
    afterColon_append hkey (fun b hb => by simpa using hblanks b hb)
      fun b hb => by simpa using hrest b hb
  rw [statusValue, hcstr, hafter, Option.getD_some]

/-- The state of a text that begins with a letter of the kernel; the one of `T` is another. -/
theorem procState_of_kernelState (hletter : kernelState letter = some state) (val : List UInt8) :
    procState (letter :: val) = if letter = 84 then .sleeping else state := by
  unfold kernelState at hletter
  split at hletter <;> cases hletter <;> rfl

/-- `T` stands for a stopped process. -/
theorem eq_stopped_of_kernelState (hletter : kernelState 84 = some state) : state = .stopped :=
  (Option.some.inj hletter).symm

theorem ne_of_kernelState (hletter : kernelState letter = some state) :
    letter ≠ 0 ∧ letter ≠ 32 ∧ letter ≠ 9 := by
  refine ⟨?_, ?_, ?_⟩ <;> rintro rfl <;> cases hletter

/-- The number of threads is kept iff it is at most 127. -/
theorem toInt_numThreads_iff {eol : List UInt8} (heol : IsEol eol) :
    (parseU64 (Scanf.digits n ++ eol ++ [0]) 8).toUInt8.toInt8.toInt = n ↔ n ≤ 127 := by
  constructor
  · -- no value of eight bits is greater
    intro heq
    have hlt := Int8.toInt_lt (parseU64 (Scanf.digits n ++ eol ++ [0]) 8).toUInt8.toInt8
    rw [heq] at hlt
    omega
  · intro hn
    -- three digits are well within the eight bytes that are read
    have hlen : (Scanf.digits n).length ≤ 8 :=
      (Scanf.length_digits_le (k := 3) (by decide) (by omega)).trans (by decide)
    have hrest : ∀ c ∈ (eol ++ [0]).head?, ¬ isDigit c := by
      intro c hc
      rcases heol with rfl | rfl <;> cases hc <;> decide
    rw [List.append_assoc, parseU64_digits hlen hrest, UInt64.toUInt8_ofNat', UInt8.toInt8_ofNat']
    exact Int8.toInt_ofNat_of_lt (by omega)

/-! ## What the reader returns -/

/-- A line that ends a string without zero bytes is the whole string. -/
theorem cstr_append_eol {s eol : List UInt8} (hs : 0 ∉ s) (heol : IsEol eol) :
    cstr (s ++ eol) = s ++ eol := by
  rw [cstr_append hs]
  rcases heol with rfl | rfl <;> rfl

/-- The name is what precedes the end of its line. -/
theorem spanUntil_append_eol {s eol : List UInt8} (hs : ∀ b ∈ s, b ≠ 10)
    (heol : IsEol eol) : spanUntil [10] (s ++ eol) = s := by
  rw [spanUntil_append fun b hb => by simpa using hs b hb]
  rcases heol with rfl | rfl <;> simp [spanUntil, Stream.newline]

namespace StatusText

variable (hstatus : StatusText value letter n text)
include hstatus

theorem chunks_eq_lines : Stream.chunks buffLarge text = Stream.lines text :=
  Stream.chunks_eq_lines (by decide) fun line hline =>
    Nat.le_sub_one_of_lt (hstatus.lines_lt line hline)

theorem zero_notMem : 0 ∉ value := fun h0 => (hstatus.name_bytes 0 h0).1 rfl

/-- The name's line, and the value it gives. -/
theorem exists_name : ∃ line eol, IsEol eol ∧
    (Stream.lines text).filter (hasKey "Name") = [line] ∧ statusValue line = value ++ eol := by
  obtain ⟨eol, heol, honly⟩ := hstatus.name
  have hcstr := cstr_append_eol hstatus.zero_notMem heol
  have hhead : ∀ b ∈ (cstr (value ++ eol)).head?, b ≠ 32 ∧ b ≠ 9 := by
    intro b hb
    rw [hcstr, List.head?_append, Option.mem_def, Option.or_eq_some_iff] at hb
    rcases hb with hb | ⟨-, hb⟩
    · exact hstatus.name_head b hb
    · rcases heol with rfl | rfl
      · cases hb
      · cases hb
        decide
  obtain ⟨line, hfilter, hvalue⟩ := honly.exists_line (by decide) (by decide) hhead
  exact ⟨line, eol, heol, hfilter, hvalue.trans hcstr⟩

theorem exists_threads : ∃ line eol, IsEol eol ∧
    (Stream.lines text).filter (hasKey "Threads") = [line] ∧
      statusValue line = Scanf.digits n ++ eol := by
  obtain ⟨eol, heol, honly⟩ := hstatus.threads
  have hcstr := cstr_append_eol (Scanf.notMem_digits (n := n) (by decide)) heol
  have hhead : ∀ b ∈ (cstr (Scanf.digits n ++ eol)).head?, b ≠ 32 ∧ b ≠ 9 := by
    intro b hb
    rw [hcstr] at hb
    have hdigit := Scanf.isDigit_of_mem_head? hb
    constructor <;> rintro rfl <;> exact absurd hdigit (by decide)
  obtain ⟨line, hfilter, hvalue⟩ := honly.exists_line (by decide) (by decide) hhead
  exact ⟨line, eol, heol, hfilter, hvalue.trans hcstr⟩

theorem exists_state (hletter : kernelState letter = some state) : ∃ line description,
    (Stream.lines text).filter (hasKey "State") = [line] ∧
      statusValue line = letter :: description := by
  obtain ⟨description, honly⟩ := hstatus.state
  obtain ⟨hzero, hblank⟩ := ne_of_kernelState hletter
  have hcstr : cstr (letter :: description) = letter :: cstr description := by
    simp [cstr, hzero]
  obtain ⟨line, hfilter, hvalue⟩ := honly.exists_line (by decide) (by decide)
    (by rw [hcstr]; rintro b ⟨⟩; exact hblank)
  exact ⟨line, cstr description, hfilter, hvalue.trans hcstr⟩

/-- The name fits the field. -/
theorem lineFits : ∀ chunk ∈ Stream.lines text, LineFits [32, 9] "Name:" 15 chunk := by
  obtain ⟨line, eol, heol, hfilter, hvalue⟩ := hstatus.exists_name
  intro chunk hchunk found hfound
  have hkey : ascii "Name:" = ascii "Name" ++ [58] := by decide
  unfold lineValue at hfound
  split at hfound
  · next hpre =>
    -- it is the only line with the key
    rw [hkey, isPrefixOf_cstr_eq_hasKey (by decide)] at hpre
    have hmem : chunk ∈ (Stream.lines text).filter (hasKey "Name") :=
      List.mem_filter.mpr ⟨hchunk, hpre⟩
    rw [hfilter, List.mem_singleton] at hmem
    subst hmem
    obtain ⟨val, hval, rfl⟩ := Option.map_eq_some_iff.mp hfound
    rw [statusValue, hval, Option.getD_some] at hvalue
    rw [hvalue, spanUntil_append_eol (fun b hb => (hstatus.name_bytes b hb).2) heol]
    exact hstatus.name_le
  · cases hfound

/-- What the reader makes of a status file. -/
theorem foldl_statusNext (hletter : kernelState letter = some state) (out : SysProc) :
    let final := (Stream.lines text).foldl statusNext out
    fieldString final.name = some value ∧
      final.state = (if letter = 84 then .sleeping else state) ∧
      (final.numThreads.toInt = n ↔ n ≤ 127) := by
  obtain ⟨nameLine, nameEol, hnameEol, hnames, hname⟩ := hstatus.exists_name
  obtain ⟨stateLine, description, hstates, hstate⟩ := hstatus.exists_state hletter
  obtain ⟨threadsLine, threadsEol, hthreadsEol, hthreadLines, hthreads⟩ := hstatus.exists_threads
  -- each field is changed by the one line of its key
  have hnameField := get_foldl_of_filter statusNext SysProc.name
    (fun name chunk => overlay name (spanUntil [10] (statusValue chunk) ++ [0]))
    (fun s a => by rw [statusNext_eq, nextName_eq]) hnames out
  have hstateField := get_foldl_of_filter statusNext SysProc.state
    (fun _ chunk => procState (statusValue chunk))
    (fun s a => by rw [statusNext_eq]) hstates out
  have hthreadsField := get_foldl_of_filter statusNext SysProc.numThreads
    (fun _ chunk => (parseU64 (statusValue chunk ++ [0]) 8).toUInt8.toInt8)
    (fun s a => by rw [statusNext_eq]) hthreadLines out
  refine ⟨?_, ?_, ?_⟩
  · rw [hnameField, hname,
      spanUntil_append_eol (fun b hb => (hstatus.name_bytes b hb).2) hnameEol]
    exact fieldString_overlay_concat_zero hstatus.zero_notMem (Nat.lt_succ_of_le hstatus.name_le)
  · rw [hstateField, hstate, procState_of_kernelState hletter]
  · rw [hthreadsField, hthreads]
    exact toInt_numThreads_iff hthreadsEol

end StatusText

/-- The reader returns for every status file; its code is that of closing the file. -/
theorem processRead_of_statusText (hfile : h.file (.procStatus pid) = some text)
    (hstatus : StatusText value letter n text) :
    processRead h pid out = .ok (if h.fclose (.procStatus pid) ≠ 0 then errIo else errOk,
      (Stream.lines text).foldl statusNext { out with pid }) := by
  have hfold : (Stream.lines text).foldlM statusLine { out with pid } =
      .ok ((Stream.lines text).foldl statusNext { out with pid }) :=
    (Except.foldlM_eq_ok statusLine_eq_ok).mpr ⟨hstatus.lineFits, rfl⟩
  rw [processRead_of_file hfile, hstatus.chunks_eq_lines, hfold]
  rfl

/-- The reader succeeds with what the status file says iff the process is not stopped, has at most
127 threads, and the file is closed. -/
theorem processRead_status_iff (h : Host) (pid : Int32) (out : SysProc) (text value : List UInt8)
    (letter : UInt8) (n : ℕ) (state : SysProcState) (hfile : h.file (.procStatus pid) = some text)
    (hstatus : StatusText value letter n text) (hletter : kernelState letter = some state) :
    (∃ out', processRead h pid out = .ok (errOk, out') ∧ out'.Reads value state n) ↔
      letter ≠ 84 ∧ n ≤ 127 ∧ h.fclose (.procStatus pid) = 0 := by
  obtain ⟨hname, hstate, hthreads⟩ := hstatus.foldl_statusNext hletter { out with pid }
  rw [processRead_of_statusText hfile hstatus]
  constructor
  · rintro ⟨out', hrun, hreads⟩
    obtain ⟨hcode, rfl⟩ := Prod.mk.inj (Except.ok.inj hrun)
    refine ⟨?_, hthreads.mp hreads.2.2, ?_⟩
    · -- the state would be both stopped and sleeping
      rintro rfl
      have hread := hreads.2.1
      rw [hstate, if_pos rfl, eq_stopped_of_kernelState hletter] at hread
      cases hread
    · by_contra hclose
      rw [if_pos hclose] at hcode
      cases hcode
  · rintro ⟨hne, hle, hclose⟩
    refine ⟨_, ?_, hname, ?_, hthreads.mpr hle⟩
    · rw [if_neg (not_not_intro hclose)]
    · rw [hstate, if_neg hne]

/-- A process before it is read. -/
def blankProc : SysProc := ⟨.replicate _ 0, 0, 0, 0, 0, .undefined⟩

/-- The status of a sleeping process with four threads. -/
def sleepingStatus : List UInt8 :=
  ascii "Name:\tinit\nUmask:\t0022\nState:\tS (sleeping)\nThreads:\t4\n"

theorem statusText_sleeping : StatusText (ascii "init") 83 4 sleepingStatus where
  lines_lt := by decide +kernel
  name := ⟨[10], .inr rfl, [9], by decide +kernel, by decide +kernel⟩
  name_le := by decide +kernel
  name_bytes := by decide +kernel
  name_head := by decide +kernel
  state := ⟨ascii " (sleeping)\n", [9], by decide +kernel, by decide +kernel⟩
  threads := ⟨[10], .inr rfl, [9], by decide +kernel, by decide +kernel⟩

/-- The sleeping process is read as it is. -/
theorem processRead_status_sleeping : ∃ out',
    processRead (hostOf sleepingStatus) 1 blankProc = .ok (errOk, out') ∧
      out'.Reads (ascii "init") .sleeping 4 :=
  (processRead_status_iff (hostOf sleepingStatus) 1 blankProc _ _ _ _ _ rfl statusText_sleeping
    rfl).mpr ⟨by decide, by decide, rfl⟩

/-- The status of a stopped process. -/
def stoppedStatus : List UInt8 := ascii "Name:\tcat\nState:\tT (stopped)\nThreads:\t1\n"

theorem statusText_stopped : StatusText (ascii "cat") 84 1 stoppedStatus where
  lines_lt := by decide +kernel
  name := ⟨[10], .inr rfl, [9], by decide +kernel, by decide +kernel⟩
  name_le := by decide +kernel
  name_bytes := by decide +kernel
  name_head := by decide +kernel
  state := ⟨ascii " (stopped)\n", [9], by decide +kernel, by decide +kernel⟩
  threads := ⟨[10], .inr rfl, [9], by decide +kernel, by decide +kernel⟩

/-- The stopped process is read as a sleeping one. -/
theorem not_processRead_status : ¬ ∀ (h : Host) (pid : Int32) (out : SysProc)
    (text value : List UInt8) (letter : UInt8) (n : ℕ) (state : SysProcState),
      h.file (.procStatus pid) = some text → h.fclose (.procStatus pid) = 0 →
      StatusText value letter n text → n < 2 ^ 31 → kernelState letter = some state →
        ∃ out', processRead h pid out = .ok (errOk, out') ∧ out'.Reads value state n := by
  intro hall
  obtain ⟨out', hrun, -, hstate, -⟩ := hall (hostOf stoppedStatus) 1 blankProc _ _ _ _ _ rfl rfl
    statusText_stopped (by decide) rfl
  have hsleeping : processRead (hostOf stoppedStatus) 1 blankProc =
      .ok (errOk, ⟨overlay (.replicate _ 0) (ascii "cat"), 1, 0, 0, 1, .sleeping⟩) := by
    decide +kernel
  rw [hsleeping] at hrun
  obtain ⟨-, rfl⟩ := Prod.mk.inj (Except.ok.inj hrun)
  cases hstate

end AgentResources
