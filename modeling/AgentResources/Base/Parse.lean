import AgentResources.Base.Arena
import AgentResources.Foundations.Scanf

/-!
# Parsing

`base_parse.c`. The functions read a buffer through an index; `byteAt` is such a read, and it
stops where nothing was read or stored. The scanner of `parse_proc_files` keeps a cursor for the
line's start, for its first colon and for the byte it is at. `scanFrom_eq` says what the cursors
add up to: the scan is a fold over the lines of the buffer that end in a newline.

## Main definitions

* `compareString`, `parseU64`, `isNumeric`, `parseProcFiles`: the functions of `base_parse.c`;
* `terminatedLines`, `lineEntry`: the lines of a buffer and the entry of a line.

## Main results

* `parseProcFiles_inBounds_iff`: when the parser stays within its buffer and its entries.
-/

namespace AgentResources

/-- `buffer[i]` -/
def byteAt (buffer : List UInt8) (i : ℕ) : Except Halt UInt8 :=
  match buffer[i]? with
  | none => .error (.undefined .overread)
  | some b => .ok b

/-- Compare the first `sizeof(*c1) + 1` bytes of two buffers: 0 if they agree, else `(b8)-1`. -/
def compareString (c1 c2 : List UInt8) : Except Halt UInt8 := go 2 0
where
  go : ℕ → ℕ → Except Halt UInt8
    | 0, _ => .ok 0
    | fuel + 1, i => do
      let b1 ← byteAt c1 i
      let b2 ← byteAt c2 i
      if b1 ≠ b2 then .ok 255 else go fuel (i + 1)

/-- The value of a digit. -/
def digitValue (c : UInt8) : UInt64 := (c - 48).toUInt64

/-- The number the leading digits among the first `len` bytes of `buf` form, modulo `2 ^ 64`. -/
def parseU64 (buf : List UInt8) (len : ℕ) : UInt64 :=
  ((buf.take len).takeWhile isDigit).foldl (fun value c => value * 10 + digitValue c) 0

theorem foldl_digitValue (n : ℕ) :
    (Scanf.digits n).foldl (fun value c => value * 10 + digitValue c) 0 = UInt64.ofNat n := by
  have hdigit : ∀ d < 10, digitValue (UInt8.ofNat (48 + d)) = UInt64.ofNat d := by decide
  refine Scanf.foldl_digits UInt64.ofNat (fun d hd => ?_) (fun m d hd => ?_) n
  · rw [hdigit d hd, UInt64.zero_mul, UInt64.zero_add]
  · rw [hdigit d hd, UInt64.ofNat_add, UInt64.ofNat_mul]
    rfl

/-- A number in decimal is read back when the bytes that are read have all of it. -/
theorem parseU64_digits {n len : ℕ} {rest : List UInt8} (hlen : (Scanf.digits n).length ≤ len)
    (hrest : ∀ c ∈ rest.head?, ¬ isDigit c) :
    parseU64 (Scanf.digits n ++ rest) len = UInt64.ofNat n := by
  have hspan : ((Scanf.digits n ++ rest).take len).takeWhile isDigit = Scanf.digits n := by
    rw [List.take_append, List.take_of_length_le hlen,
      List.takeWhile_append_of_pos fun c hc => Scanf.isDigit_of_mem_digits hc]
    -- what follows the digits is cut or does not begin with one
    rcases hcut : rest.take (len - (Scanf.digits n).length) with _ | ⟨c, cut⟩
    · simp
    · obtain ⟨rest', rfl⟩ : ∃ rest', rest = c :: rest' := by
        obtain ⟨tail, htail⟩ := hcut ▸ List.take_prefix _ rest
        exact ⟨cut ++ tail, htail.symm⟩
      simpa using hrest c rfl
  rw [parseU64, hspan, foldl_digitValue]

/-- The string has only digits. -/
def isNumeric (s : List UInt8) : Bool := s.all isDigit

/-! ## `parse_proc_files` -/

/-- An entry of a parsed file. -/
structure ProcEntry where
  value : Vector UInt8 16
  key : Vector UInt8 16
  deriving DecidableEq

/-- A parsed file: the entries that were filled, and how many they are. -/
structure ProcFile where
  count : ℤ
  entries : List ProcEntry
  deriving DecidableEq

/-- `sizeof(proc_file)` -/
def sizeofProcFile : UInt64 := 16

/-- `sizeof(proc_entry)` -/
def sizeofProcEntry : UInt64 := 32

/-- The number of entries there is room for. -/
def procFileEntries : ℕ := 256

/-- What `read` does with a request for at most `room` bytes. -/
inductive ReadResult (room : ℕ)
  /-- It returns -1. -/
  | failed
  /-- It delivers these bytes, none at the end of the file. -/
  | bytes (bs : List UInt8) (length_le : bs.length ≤ room)

/-- The bytes that were read. -/
def ReadResult.read {room : ℕ} : ReadResult room → List UInt8
  | .failed => []
  | .bytes bs _ => bs

/-- The value `read` returned, in a `u64`. -/
def ReadResult.count {room : ℕ} : ReadResult room → ℕ
  | .failed => 2 ^ 64 - 1
  | .bytes bs _ => bs.length

/-- The same `read` when the buffer is the null pointer: delivering anything fails. -/
def ReadResult.intoNull {room : ℕ} : ReadResult room → ReadResult room
  | .bytes [] h => .bytes [] h
  | _ => .failed

/-- `(u64)-1`, the value of `delim` while the line has no colon yet. -/
def noDelim : ℕ := 2 ^ 64 - 1

/-- The cursors of the scanner, besides the index. -/
structure Scan where
  lineStart : ℕ
  delim : ℕ
  entries : List ProcEntry

/-- `MemCpy(field, buffer + start, len)` -/
def copyRange {n : ℕ} (field : Vector UInt8 n) (buffer : List UInt8) (start len : ℕ) :
    Except Halt (Vector UInt8 n) :=
  if n < len then .error (.undefined .overrun)
  else if buffer.length < start + len then .error (.undefined .overread)
  else copyInto field ((buffer.drop start).take len)

/-- The first position from `v` on, up to `index`, without a blank or a tab. -/
def skipBlanks (buffer : List UInt8) (index : ℕ) : ℕ → ℕ → Except Halt ℕ
  | 0, v => .ok v
  | fuel + 1, v =>
    if v < index then do
      let c ← byteAt buffer v
      if c = 32 ∨ c = 9 then skipBlanks buffer index fuel (v + 1) else .ok v
    else .ok v

/-- `key_len - 1` in 64 bits. -/
def keyCopyLen (keyLen : ℕ) : ℕ := (keyLen + (2 ^ 64 - 1)) % 2 ^ 64

/-- Fill the `entryIndex`-th of the zeroed entries at `entries` from the line between `lineStart`
and `index` with its first colon at `delim`. The key is copied one byte short. -/
def fillEntry (buffer : List UInt8) (entries entryIndex lineStart delim index : ℕ) :
    Except Halt ProcEntry := do
  let keyLen := delim - lineStart
  let keyLen := if keyLen ≥ 16 then 15 else keyLen
  let valStart ← skipBlanks buffer index (index - (delim + 1)) (delim + 1)
  let valLen := index - valStart
  let valLen := if valLen ≥ 16 then 15 else valLen
  if entries = NULL then .error (.undefined .nullPointer)
  if procFileEntries ≤ entryIndex then .error (.undefined .overrun)
  let key ← copyRange (Vector.replicate 16 0) buffer lineStart (keyCopyLen keyLen)
  let value ← copyRange (Vector.replicate 16 0) buffer valStart valLen
  let key ← putNul key keyLen
  let value ← putNul value valLen
  return { value, key }

/-- The scanner at the byte `index`. -/
def scanByte (buffer : List UInt8) (entries : ℕ) (scan : Scan) (index : ℕ) :
    Except Halt Scan := do
  let c ← byteAt buffer index
  if c = 58 ∧ scan.delim = noDelim then
    return { scan with delim := index }
  else if c = 10 then
    if scan.delim ≠ noDelim then
      let entry ← fillEntry buffer entries scan.entries.length scan.lineStart scan.delim index
      return { lineStart := index + 1, delim := noDelim, entries := scan.entries ++ [entry] }
    else
      return { scan with lineStart := index + 1, delim := noDelim }
  else
    return scan

/-- The scanner from the byte `index` on, for the next `n` bytes. -/
def scanFrom (buffer : List UInt8) (entries : ℕ) : ℕ → ℕ → Scan → Except Halt Scan
  | 0, _, scan => .ok scan
  | n + 1, index, scan => do
    let scan ← scanByte buffer entries scan index
    scanFrom buffer entries n (index + 1) scan

/-- Parse a file of lines `key: value`. `file` is what opening the path and reading from it once
does. -/
def parseProcFiles (path arena : ℕ) (file : Option (ReadResult 4096)) (s : Proc) :
    Except Halt (Option ProcFile × Proc) :=
  if path = NULL ∨ arena = NULL then .ok (none, s)
  else
    match file with
    | none => .ok (none, s)
    | some r => do
      let (buffer, s) ← pushArray arena 1 (KiB 4) s
      let r := if buffer = NULL then r.intoNull else r
      if r.count = 0 then .ok (none, s)
      else
        let (pf, s) ← pushArray arena sizeofProcFile 1 s
        let (entries, s) ← pushArray arena sizeofProcEntry (UInt64.ofNat procFileEntries) s
        if pf = NULL then .error (.undefined .nullPointer)
        else
          let scan ← scanFrom r.read entries r.count 0 ⟨0, noDelim, []⟩
          return (some ⟨scan.entries.length, scan.entries⟩, s)

/-! ## The lines of a buffer -/

/-- The lines that end in a newline, when `cur` was read of the first one. -/
def linesFrom (cur : List UInt8) : List UInt8 → List (List UInt8)
  | [] => []
  | b :: rest => if b = 10 then cur :: linesFrom [] rest else linesFrom (cur ++ [b]) rest

/-- The lines of a buffer that end in a newline, without it. -/
def terminatedLines (buffer : List UInt8) : List (List UInt8) := linesFrom [] buffer

/-- The lines that end in a newline and have a colon. -/
def colonLines (buffer : List UInt8) : List (List UInt8) :=
  (terminatedLines buffer).filter (58 ∈ ·)

/-- The entry of a line: its key is what stands before the first colon, at most 15 bytes, less the
last of them; its value is what follows the colon and any blanks, at most 15 bytes. -/
def lineEntry (line : List UInt8) : ProcEntry where
  value := overlay (Vector.replicate 16 0)
    ((((line.drop (line.idxOf 58 + 1)).dropWhile fun b => b = 32 ∨ b = 9)).take 15)
  key := overlay (Vector.replicate 16 0) (line.take (min (line.idxOf 58) 15 - 1))

variable {pre cur rest line key val : List UInt8} {entries n : ℕ} {es : List ProcEntry}

theorem byteAt_append (pre rest : List UInt8) (b : UInt8) :
    byteAt (pre ++ b :: rest) pre.length = .ok b := by
  simp [byteAt]

/-- The blanks are skipped up to the end of the line at the latest. -/
theorem skipBlanks_eq (pre val rest : List UInt8) :
    skipBlanks (pre ++ val ++ rest) (pre.length + val.length) val.length pre.length =
      .ok (pre.length + (val.takeWhile fun b => b = 32 ∨ b = 9).length) := by
  induction val generalizing pre with
  | nil => rfl
  | cons b val ih =>
    have hbyte : byteAt (pre ++ b :: val ++ rest) pre.length = .ok b := by
      rw [List.append_assoc]
      exact byteAt_append pre (val ++ rest) b
    have hnext := ih (pre ++ [b])
    rw [show pre ++ [b] ++ val ++ rest = pre ++ b :: val ++ rest by simp, List.length_append,
      List.length_singleton] at hnext
    rw [List.length_cons, skipBlanks, if_pos (by omega), hbyte,
      show pre.length + (val.length + 1) = pre.length + 1 + val.length by omega]
    by_cases hb : b = 32 ∨ b = 9
    · simp only [bind, Except.bind, hb, if_true, hnext, List.takeWhile_cons, decide_true,
        List.length_cons]
      congr 1
      omega
    · simp [bind, Except.bind, hb]

/-- A copy of bytes that are there into an array they fit. -/
theorem copyRange_eq (field : Vector UInt8 n) (pre src rest : List UInt8) (h : src.length ≤ n) :
    copyRange field (pre ++ src ++ rest) pre.length src.length = .ok (overlay field src) := by
  have hover : ¬ n < src.length := by omega
  have hread : ¬ (pre ++ src ++ rest).length < pre.length + src.length := by simp
  rw [copyRange, if_neg hover, if_neg hread]
  have hcut : ((pre ++ src ++ rest).drop pre.length).take src.length = src := by simp
  rw [hcut, copyInto, if_pos h]

theorem copyRange_of_lt {field : Vector UInt8 n} {buffer : List UInt8} {start len : ℕ}
    (h : n < len) : copyRange field buffer start len = .error (.undefined .overrun) := by
  rw [copyRange, if_pos h]

/-- Terminating zeroed bytes after a copy changes nothing. -/
theorem putNul_overlay {src : List UInt8} {i : ℕ} (hi : i < n) (hsrc : src.length ≤ i) :
    putNul (overlay (Vector.replicate n 0) src) i = .ok (overlay (Vector.replicate n 0) src) := by
  rw [putNul, dif_pos hi]
  congr 1
  ext j hj
  rw [Vector.getElem_set]
  split
  · next h =>
    subst h
    rw [getElem_overlay, List.getD_eq_default _ _ hsrc]
    simp
  · rfl

theorem clamp_eq (k : ℕ) : (if k ≥ 16 then 15 else k) = min k 15 := by
  split <;> omega

theorem lt_keyCopyLen_zero : 16 < keyCopyLen 0 := by
  unfold keyCopyLen
  omega

theorem keyCopyLen_of_pos {k : ℕ} (hpos : 0 < k) (hk : k ≤ 15) : keyCopyLen k = k - 1 := by
  unfold keyCopyLen
  omega

/-- The key that is copied: one byte short of the key, or of its first 15 bytes. -/
theorem copyRange_key (pre key tail : List UInt8) (hkey : key ≠ []) :
    copyRange (Vector.replicate 16 0) (pre ++ (key ++ tail)) pre.length
        (keyCopyLen (min key.length 15)) =
      .ok (overlay (Vector.replicate 16 0) (key.take (min key.length 15 - 1))) := by
  have hpos := List.length_pos_of_ne_nil hkey
  have htake : (key.take (min key.length 15 - 1)).length = min key.length 15 - 1 := by
    rw [List.length_take]
    omega
  have hcopy := copyRange_eq (Vector.replicate 16 0) pre
    (key.take (min key.length 15 - 1)) (key.drop (min key.length 15 - 1) ++ tail) (by omega)
  rw [List.append_assoc, ← List.append_assoc (key.take _), List.take_append_drop, htake] at hcopy
  rw [keyCopyLen_of_pos (by omega) (by omega), hcopy]

/-- The value that is copied: its first 15 bytes. -/
theorem copyRange_value (pre text tail : List UInt8) :
    copyRange (Vector.replicate 16 0) (pre ++ (text ++ tail)) pre.length (min text.length 15) =
      .ok (overlay (Vector.replicate 16 0) (text.take 15)) := by
  have htake : (text.take 15).length = min text.length 15 := by
    rw [List.length_take, min_comm]
  have hcopy := copyRange_eq (Vector.replicate 16 0) pre (text.take 15)
    (text.drop 15 ++ tail) (by omega)
  rwa [List.append_assoc, ← List.append_assoc (text.take _), List.take_append_drop, htake] at hcopy

/-- The entry of a line is filled unless there is none to fill or the key is empty. -/
theorem fillEntry_eq (pre rest : List UInt8) (hkey : 58 ∉ key) :
    fillEntry (pre ++ (key ++ 58 :: val) ++ rest) entries n pre.length
        (pre.length + key.length) (pre.length + (key ++ 58 :: val).length) =
      if entries = NULL then .error (.undefined .nullPointer)
      else if procFileEntries ≤ n ∨ key = [] then .error (.undefined .overrun)
      else .ok (lineEntry (key ++ 58 :: val)) := by
  set blanks := val.takeWhile fun b => b = 32 ∨ b = 9 with hblanks
  set text := val.dropWhile fun b => b = 32 ∨ b = 9 with htext
  have hval : blanks ++ text = val := List.takeWhile_append_dropWhile
  have hvalLen : val.length = blanks.length + text.length := by rw [← hval, List.length_append]
  have hidx : (key ++ 58 :: val).idxOf 58 = key.length := by
    simp [List.idxOf_append_of_notMem hkey]
  -- the same buffer, cut where the blanks begin, where the key ends, and where the value begins
  have hskip := skipBlanks_eq (pre ++ key ++ [58]) val rest
  have hkeyCopy := copyRange_key pre key (58 :: val ++ rest)
  have hvalCopy := copyRange_value (pre ++ key ++ [58] ++ blanks) text rest
  have hcutKey : pre ++ (key ++ (58 :: val ++ rest)) = pre ++ (key ++ 58 :: val) ++ rest := by simp
  have hcutVal : pre ++ key ++ [58] ++ blanks ++ (text ++ rest) =
      pre ++ (key ++ 58 :: val) ++ rest := by simp [← hval]
  have hcutBlanks : pre ++ key ++ [58] ++ val ++ rest = pre ++ (key ++ 58 :: val) ++ rest := by simp
  rw [hcutKey] at hkeyCopy
  rw [hcutVal] at hvalCopy
  rw [hcutBlanks, ← hblanks] at hskip
  generalize pre ++ (key ++ 58 :: val) ++ rest = buffer at *
  simp only [List.length_append, List.length_cons, List.length_nil, Nat.zero_add] at *
  have hkeyLen : pre.length + key.length - pre.length = key.length := by omega
  have hfuel : pre.length + (key.length + (val.length + 1)) - (pre.length + key.length + 1) =
    val.length := by omega
  have hend : pre.length + (key.length + (val.length + 1)) =
    pre.length + key.length + 1 + val.length := by omega
  have htextLen : pre.length + key.length + 1 + val.length -
    (pre.length + key.length + 1 + blanks.length) = text.length := by omega
  simp only [fillEntry, hkeyLen, hfuel, clamp_eq]
  rw [hend, hskip]
  simp only [Except.ok_bind, Except.error_bind, htextLen]
  by_cases hnull : entries = NULL
  · rw [if_pos hnull, if_pos hnull]
  rw [if_neg hnull, if_neg hnull]
  by_cases hfull : procFileEntries ≤ n
  · rw [if_pos hfull, if_pos (.inl hfull)]
  rw [if_neg hfull]
  by_cases hempty : key = []
  · rw [if_pos (.inr hempty), hempty, List.length_nil, Nat.zero_min,
      copyRange_of_lt lt_keyCopyLen_zero, Except.error_bind]
  -- what is copied is short of the 16 bytes, so the terminators are in the fields
  have hpos := List.length_pos_of_ne_nil hempty
  have hkeyTake : (key.take (min key.length 15 - 1)).length ≤ min key.length 15 :=
    (List.length_take_le _ _).trans (Nat.sub_le _ _)
  have htextTake : (text.take 15).length ≤ min text.length 15 := by
    rw [List.length_take, min_comm]
  rw [hkeyCopy hempty, hvalCopy, if_neg (not_or.mpr ⟨hfull, hempty⟩), Except.ok_bind,
    Except.ok_bind, putNul_overlay (by omega) hkeyTake, putNul_overlay (by omega) htextTake,
    Except.ok_bind, Except.ok_bind]
  have hkeyCut : (key ++ 58 :: val).take (min key.length 15 - 1) =
      key.take (min key.length 15 - 1) := List.take_append_of_le_length (by omega)
  have hvalCut : (key ++ 58 :: val).drop (key.length + 1) = val := by
    rw [show key ++ 58 :: val = (key ++ [58]) ++ val by simp]
    exact List.drop_left' (by simp)
  rw [lineEntry, hidx, hkeyCut, hvalCut]
  rfl

/-- A line with a colon fills an entry unless there is none to fill or its key is empty. -/
theorem fillEntry_of_mem (pre rest : List UInt8) (hline : 58 ∈ line) :
    fillEntry (pre ++ line ++ rest) entries n pre.length (pre.length + line.idxOf 58)
        (pre.length + line.length) =
      if entries = NULL then .error (.undefined .nullPointer)
      else if procFileEntries ≤ n ∨ line.head? = some 58 then .error (.undefined .overrun)
      else .ok (lineEntry line) := by
  obtain ⟨key, val, rfl, hkey⟩ := List.eq_append_cons_of_mem hline
  have hidx : (key ++ 58 :: val).idxOf 58 = key.length := by
    simp [List.idxOf_append_of_notMem hkey]
  have hhead : (key ++ 58 :: val).head? = some 58 ↔ key = [] := by
    cases key with
    | nil => simp
    | cons b key => simpa using fun h : b = 58 => hkey (h ▸ List.mem_cons_self)
  rw [hidx, fillEntry_eq pre rest hkey]
  simp only [hhead]

/-! ## The scan as a fold over lines -/

/-- What the scanner does with a whole line. -/
def pushLine (entries : ℕ) (es : List ProcEntry) (line : List UInt8) :
    Except Halt (List ProcEntry) :=
  if 58 ∈ line then
    if entries = NULL then .error (.undefined .nullPointer)
    else if procFileEntries ≤ es.length ∨ line.head? = some 58 then .error (.undefined .overrun)
    else .ok (es ++ [lineEntry line])
  else .ok es

/-- The cursor for the colon after reading `cur` of a line that starts at `start`. -/
def delimOf (start : ℕ) (cur : List UInt8) : ℕ :=
  if 58 ∈ cur then start + cur.idxOf 58 else noDelim

theorem delimOf_append_of_mem {start : ℕ} (h : 58 ∈ cur) (tail : List UInt8) :
    delimOf start (cur ++ tail) = delimOf start cur := by
  rw [delimOf, delimOf, if_pos h, if_pos (List.mem_append_left _ h), List.idxOf_append_of_mem h]

theorem delimOf_append_colon {start : ℕ} (h : 58 ∉ cur) :
    delimOf start (cur ++ [58]) = start + cur.length := by
  rw [delimOf, if_pos (by simp), List.idxOf_append_of_notMem h]
  simp

theorem delimOf_eq_noDelim (cur : List UInt8) {start : ℕ} (hlen : start + cur.length < noDelim) :
    delimOf start cur = noDelim ↔ 58 ∉ cur := by
  unfold delimOf
  split
  · next h =>
    have hidx := List.idxOf_lt_length_iff.mpr h
    refine iff_of_false (fun heq => ?_) (fun hn => hn h)
    omega
  · next h => exact iff_of_true rfl h

/-- The scanner at one byte, where `cur` was read of the current line: a newline ends the line,
any other byte is added to it. -/
theorem scanByte_eq (pre rest : List UInt8) (b : UInt8)
    (hlen : pre.length + cur.length < noDelim) :
    scanByte (pre ++ cur ++ b :: rest) entries ⟨pre.length, delimOf pre.length cur, es⟩
        (pre.length + cur.length) =
      if b = 10 then do
        let es ← pushLine entries es cur
        return ⟨pre.length + cur.length + 1, noDelim, es⟩
      else .ok ⟨pre.length, delimOf pre.length (cur ++ [b]), es⟩ := by
  have hbyte : byteAt (pre ++ cur ++ b :: rest) (pre.length + cur.length) = .ok b := by
    rw [← List.length_append]
    exact byteAt_append _ _ _
  have hdelim := delimOf_eq_noDelim cur hlen
  rw [scanByte, hbyte, Except.ok_bind]
  dsimp only
  by_cases hcolon : b = 58 ∧ delimOf pre.length cur = noDelim
  · -- the first colon of the line moves the cursor for it here
    obtain ⟨rfl, hnone⟩ := hcolon
    rw [if_pos ⟨rfl, hnone⟩, if_neg (by decide), delimOf_append_colon (hdelim.mp hnone)]
    rfl
  rw [if_neg hcolon]
  by_cases hnewline : b = 10
  · rw [if_pos hnewline, if_pos hnewline]
    by_cases hmem : 58 ∈ cur
    · rw [if_pos (fun h => hdelim.mp h hmem), delimOf, if_pos hmem, fillEntry_of_mem _ _ hmem,
        pushLine, if_pos hmem]
      split
      · rfl
      · split <;> rfl
    · rw [if_neg (not_not_intro (hdelim.mpr hmem)), pushLine, if_neg hmem]
      rfl
  · -- neither a newline nor a first colon: the cursors stay
    rw [if_neg hnewline, if_neg hnewline]
    have hkeep : delimOf pre.length (cur ++ [b]) = delimOf pre.length cur := by
      by_cases hmem : 58 ∈ cur
      · exact delimOf_append_of_mem hmem [b]
      · have hb : b ≠ 58 := fun h => hcolon ⟨h, hdelim.mpr hmem⟩
        rw [delimOf, delimOf, if_neg hmem, if_neg (by simpa [hmem] using hb.symm)]
    rw [hkeep]
    rfl

/-- The scan of a buffer is a fold over its lines that end in a newline. The induction is on the
bytes to come, for any line begun before them. -/
theorem scanFrom_eq (es : List ProcEntry) (pre rest : List UInt8)
    (hlen : (pre ++ cur ++ rest).length < noDelim) :
    (·.entries) <$> scanFrom (pre ++ cur ++ rest) entries rest.length (pre.length + cur.length)
        ⟨pre.length, delimOf pre.length cur, es⟩ =
      (linesFrom cur rest).foldlM (pushLine entries) es := by
  induction rest generalizing pre cur es with
  | nil => rfl
  | cons b rest ih =>
    have hlt : pre.length + cur.length < noDelim := by
      simp only [List.length_append, List.length_cons] at hlen
      omega
    rw [List.length_cons, scanFrom, scanByte_eq pre rest b hlt, linesFrom]
    by_cases hb : b = 10
    · -- the next line starts behind the newline
      subst hb
      rw [if_pos rfl, if_pos rfl, List.foldlM_cons]
      have hnext := fun es => @ih [] es (pre ++ cur ++ [10]) (by simpa using hlen)
      simp only [List.append_nil, List.length_append, List.length_singleton, List.length_nil,
        Nat.add_zero, List.append_assoc, List.singleton_append] at hnext
      simp only [bind_assoc, pure_bind, map_bind, List.append_assoc]
      refine bind_congr fun es => ?_
      exact hnext es
    · rw [if_neg hb, if_neg hb, Except.ok_bind]
      have hnext := @ih (cur ++ [b]) es pre (by simpa using hlen)
      simp only [List.length_append, List.length_singleton, List.append_assoc,
        List.singleton_append] at hnext
      simpa only [List.append_assoc, Nat.add_assoc] using hnext

/-- The fold over lines goes through iff every line with a colon has a key and there are entries
for all of them. -/
theorem foldlM_pushLine_eq_ok {lines : List (List UInt8)} {es es' : List ProcEntry}
    (hes : es.length ≤ procFileEntries) :
    lines.foldlM (pushLine entries) es = .ok es' ↔
      (∀ line ∈ lines.filter (58 ∈ ·), entries ≠ NULL ∧ line.head? ≠ some 58) ∧
      es.length + (lines.filter (58 ∈ ·)).length ≤ procFileEntries ∧
      es' = es ++ (lines.filter (58 ∈ ·)).map lineEntry := by
  induction lines generalizing es with
  | nil => simp [pure, Except.pure, hes, eq_comm]
  | cons line lines ih =>
    rw [List.foldlM_cons, pushLine]
    by_cases hmem : 58 ∈ line
    · rw [if_pos hmem, List.filter_cons_of_pos (by simpa using hmem)]
      simp only [List.forall_mem_cons, List.length_cons, List.map_cons]
      -- storing an entry needs an array to store it in
      by_cases hnull : entries = NULL
      · rw [if_pos hnull, Except.error_bind]
        exact iff_of_false (by simp) fun h => h.1.1.1 hnull
      rw [if_neg hnull]
      by_cases hbad : procFileEntries ≤ es.length ∨ line.head? = some 58
      · -- the table is full, or the line has no key
        rw [if_pos hbad, Except.error_bind]
        refine iff_of_false (by simp) ?_
        rintro ⟨⟨⟨-, hhead⟩, -⟩, hroom, -⟩
        rcases hbad with hfull | hempty
        · omega
        · exact hhead hempty
      · obtain ⟨hroom, hhead⟩ := not_or.mp hbad
        have hnext := @ih (es ++ [lineEntry line]) (by
          rw [List.length_append, List.length_singleton]
          omega)
        rw [if_neg hbad, Except.ok_bind, hnext, List.length_append, List.length_singleton,
          List.append_assoc, List.singleton_append, Nat.add_assoc, Nat.add_comm 1]
        exact and_congr_left' (iff_and_self.mpr fun _ => ⟨hnull, hhead⟩)
    · -- a line without a colon is passed over
      rw [if_neg hmem, Except.ok_bind, List.filter_cons_of_neg (by simpa using hmem)]
      exact ih hes

/-! ## When the parser stays in bounds -/

variable {arena : ℕ} {capacity : UInt64} {s : Proc}

/-- A scan of bytes none of which were read stops at the first. -/
theorem scanFrom_nil {n : ℕ} (hn : n ≠ 0) (index : ℕ) (scan : Scan) :
    scanFrom [] entries n index scan = .error (.undefined .overread) := by
  obtain ⟨n, rfl⟩ := Nat.exists_eq_succ_of_ne_zero hn
  rfl

/-- The scan of what was read goes through iff something was read, every line with a colon has a
key and an entry, and there are entries if there is such a line. -/
theorem scanFrom_read_ok {r : ReadResult 4096} (hcount : r.count ≠ 0) :
    (∃ scan, scanFrom r.read entries r.count 0 ⟨0, noDelim, []⟩ = .ok scan) ↔
      r.read ≠ [] ∧ (colonLines r.read ≠ [] → entries ≠ NULL) ∧
      (colonLines r.read).length ≤ procFileEntries ∧
      ∀ line ∈ colonLines r.read, line.head? ≠ some 58 := by
  cases r with
  | failed =>
    -- the count is then the greatest word, and nothing was read
    refine iff_of_false ?_ (by simp [ReadResult.read])
    rintro ⟨scan, h⟩
    rw [ReadResult.read, scanFrom_nil hcount] at h
    cases h
  | bytes bs hle =>
    have hlen : ([] ++ [] ++ bs).length < noDelim := by
      simp only [List.nil_append, noDelim]
      omega
    have hfold := @scanFrom_eq [] entries [] [] bs hlen
    simp only [List.nil_append, List.length_nil, Nat.add_zero] at hfold
    simp only [ReadResult.read, ReadResult.count] at hcount ⊢
    have hread : bs ≠ [] := List.ne_nil_of_length_pos (Nat.pos_of_ne_zero hcount)
    -- the fold leaves the entries, and the cursors do not matter for whether the scan goes through
    have hmap : ∀ x : Except Halt Scan,
        (∃ scan, x = .ok scan) ↔ ∃ es', (·.entries) <$> x = .ok es' := by
      rintro (_ | scan) <;> simp
    have hstart : delimOf 0 [] = noDelim := if_neg (by simp)
    rw [hmap, ← hstart, hfold]
    have hpush := fun es' =>
      @foldlM_pushLine_eq_ok entries (bs |> linesFrom []) [] es' (Nat.zero_le _)
    simp only [hpush, exists_and_left, exists_eq,
      and_true, List.length_nil, Nat.zero_add]
    change (∀ line ∈ colonLines bs, entries ≠ NULL ∧ line.head? ≠ some 58) ∧
      (colonLines bs).length ≤ procFileEntries ↔ _
    constructor
    · rintro ⟨hlines, hroom⟩
      refine ⟨hread, fun hne => ?_, hroom, fun line hline => (hlines line hline).2⟩
      obtain ⟨line, hline⟩ := List.exists_mem_of_ne_nil _ hne
      exact (hlines line hline).1
    · rintro ⟨-, hentries, hroom, hkeys⟩
      exact ⟨fun line hline => ⟨hentries (List.ne_nil_of_mem hline), hkeys line hline⟩, hroom⟩

/-- The request for the buffer returns; and if bytes were read into it, there is room for the parsed
file, the request for its entries returns, there is room for them if a line needs one, and the lines
with a colon have a key and an entry each. -/
def ProcFileFits (arena : ℕ) (capacity : UInt64) (s : Proc) : ReadResult 4096 → Prop
  | .failed => False
  | .bytes bs _ => AllocReturns arena capacity s 4096 ∧ (bs ≠ [] →
      HasRoom arena capacity s 4112 ∧ AllocReturns arena capacity s 12304 ∧
      (colonLines bs ≠ [] → HasRoom arena capacity s 12304) ∧
      (colonLines bs).length ≤ procFileEntries ∧
      ∀ line ∈ colonLines bs, line.head? ≠ some 58)

/-- The parser once its buffer is there. -/
def parseRead (arena : ℕ) (r : ReadResult 4096) (s : Proc) :
    Except Halt (Option ProcFile × Proc) :=
  if r.count = 0 then .ok (none, s)
  else do
    let (pf, s) ← pushArray arena sizeofProcFile 1 s
    let (entries, s) ← pushArray arena sizeofProcEntry (UInt64.ofNat procFileEntries) s
    if pf = NULL then .error (.undefined .nullPointer)
    else
      let scan ← scanFrom r.read entries r.count 0 ⟨0, noDelim, []⟩
      return (some ⟨scan.entries.length, scan.entries⟩, s)

theorem parseProcFiles_eq {path : ℕ} (hpath : path ≠ NULL) (harena : arena ≠ NULL)
    (r : ReadResult 4096) (s : Proc) :
    parseProcFiles path arena (some r) s = (pushArray arena 1 (KiB 4) s >>= fun q =>
      parseRead arena (if q.1 = NULL then r.intoNull else r) q.2) := by
  rw [parseProcFiles, if_neg (not_or.mpr ⟨hpath, harena⟩)]
  rfl

/-- Where nothing was read, though the count says so, the parser does not return. -/
theorem parseRead_unread {r : ReadResult 4096} (hcount : r.count ≠ 0) (hread : r.read = [])
    {out : Option ProcFile × Proc} : parseRead arena r s ≠ .ok out := by
  intro h
  rw [parseRead, if_neg hcount, hread] at h
  obtain ⟨⟨pf, s₁⟩, -, h⟩ := Except.bind_eq_ok.mp h
  obtain ⟨⟨entries, s₂⟩, -, h⟩ := Except.bind_eq_ok.mp h
  dsimp only at h
  rw [scanFrom_nil hcount] at h
  split at h <;> cases h

/-- Once bytes were read into its buffer, the parser returns iff they fit. -/
theorem parseRead_ok_iff (ha : ArenaAt arena capacity s) {bs : List UInt8}
    (hle : bs.length ≤ 4096) (hbs : bs ≠ []) :
    (∃ out, parseRead arena (.bytes bs hle) s = .ok out) ↔
      HasRoom arena capacity s 16 ∧ AllocReturns arena capacity s 8208 ∧
        (colonLines bs ≠ [] → HasRoom arena capacity s 8208) ∧
        (colonLines bs).length ≤ procFileEntries ∧
        ∀ line ∈ colonLines bs, line.head? ≠ some 58 := by
  have hcount : (ReadResult.bytes bs hle).count ≠ 0 := by
    simpa [ReadResult.count] using hbs
  have hsize : (sizeofProcFile * 1).toNat = 16 := by decide
  have hsize' : (sizeofProcEntry * UInt64.ofNat procFileEntries).toNat = 8192 := by decide
  have hnull : arenaBase arena + position arena s ≠ NULL := arenaBase_add_ne_null _ _
  -- what the scan needs of the pointer to the entries
  have hscan : ∀ (entries : ℕ) (s₂ : Proc),
      (∃ out, (do
        let scan ← scanFrom (ReadResult.bytes bs hle).read entries (ReadResult.bytes bs hle).count 0
          ⟨0, noDelim, []⟩
        return (some ⟨scan.entries.length, scan.entries⟩, s₂) :
          Except Halt (Option ProcFile × Proc)) = .ok out) ↔
        (colonLines bs ≠ [] → entries ≠ NULL) ∧ (colonLines bs).length ≤ procFileEntries ∧
          ∀ line ∈ colonLines bs, line.head? ≠ some 58 := by
    intro entries s₂
    have hok : (∃ scan, scanFrom (ReadResult.bytes bs hle).read entries
        (ReadResult.bytes bs hle).count 0 ⟨0, noDelim, []⟩ = .ok scan) ↔ _ := scanFrom_read_ok hcount
    rw [and_iff_right (show (ReadResult.bytes bs hle).read ≠ [] from hbs)] at hok
    refine Iff.trans ?_ hok
    simp [Except.bind_eq_ok, pure, Except.pure]
  rw [parseRead, if_neg hcount, pushArray]
  obtain ⟨hfull, h⟩ | ⟨-, hunmapped, h⟩ | ⟨hroom, h⟩ := ha.alloc_cases (sizeofProcFile * 1)
  · -- no room for the parsed file: whatever the entries are, it is written to through null
    rw [hsize] at hfull
    refine iff_of_false ?_ fun hfits => not_hasRoom_of_lt hfull hfits.1
    rintro ⟨out, hout⟩
    rw [h, Except.ok_bind] at hout
    obtain ⟨⟨entries, s₂⟩, -, hout⟩ := Except.bind_eq_ok.mp hout
    dsimp only at hout
    rw [if_pos rfl] at hout
    cases hout
  · rw [hsize] at hunmapped
    refine iff_of_false ?_ fun hfits => hunmapped hfits.1.2
    rintro ⟨out, hout⟩
    rw [h] at hout
    cases hout
  have hroom16 : HasRoom arena capacity s 16 := hsize ▸ hroom
  have ha₁ := ha.of_allocMem hroom
  have hrest := ha.hasRoom_allocMem hroom 8192
  have hreturns := ha.allocReturns_allocMem hroom 8192
  rw [hsize] at hrest hreturns
  rw [h, Except.ok_bind, and_iff_right hroom16]
  dsimp only
  generalize s.withMem (allocMem arena (sizeofProcFile * 1) s.mem) = s₁ at *
  rw [pushArray, ← hrest, ← hreturns]
  have hcases := ha₁.alloc_cases (sizeofProcEntry * UInt64.ofNat procFileEntries)
  simp only [hsize'] at hcases
  obtain ⟨hfull, h⟩ | ⟨hle', hunmapped, h⟩ | ⟨hroom', h⟩ := hcases
  · -- no room for the entries
    rw [h, Except.ok_bind]
    dsimp only
    rw [if_neg hnull, hscan NULL s₁, and_iff_right (show AllocReturns _ _ _ _ from .inl hfull)]
    simp [not_hasRoom_of_lt hfull]
  · rw [h]
    refine iff_of_false (fun ⟨out, hout⟩ => by cases hout) ?_
    rintro ⟨hreturn | hroom', -⟩
    · omega
    · exact hunmapped hroom'.2
  · have hnull' : arenaBase arena + position arena s₁ ≠ NULL := arenaBase_add_ne_null _ _
    rw [h, Except.ok_bind]
    dsimp only
    rw [if_neg hnull, hscan, and_iff_right (show AllocReturns _ _ _ _ from .inr hroom')]
    simp [hnull', hroom']

/-- The parser stays within its buffer and its entries, and returns, iff it is given no path or no
arena, cannot open the file, or what it read fits. -/
theorem parseProcFiles_inBounds_iff (path arena : ℕ) (capacity : UInt64)
    (file : Option (ReadResult 4096)) (s : Proc)
    (harena : arena ≠ NULL → ArenaAt arena capacity s) :
    (∃ out, parseProcFiles path arena file s = .ok out) ↔
      path = NULL ∨ arena = NULL ∨ ∀ r, file = some r → ProcFileFits arena capacity s r := by
  by_cases hargs : path = NULL ∨ arena = NULL
  · have hrun : parseProcFiles path arena file s = .ok (none, s) := by
      unfold parseProcFiles
      rw [if_pos hargs]
    refine iff_of_true ⟨_, hrun⟩ ?_
    rcases hargs with h | h
    · exact .inl h
    · exact .inr (.inl h)
  obtain ⟨hpath, hne⟩ := not_or.mp hargs
  simp only [hpath, hne, false_or]
  cases file with
  | none => exact iff_of_true ⟨(none, s), by simp [parseProcFiles, hargs]⟩ (by simp)
  | some r =>
    have ha := harena hne
    have hsize : (1 * KiB 4).toNat = 4096 := by decide
    have hnull : arenaBase arena + position arena s ≠ NULL := arenaBase_add_ne_null _ _
    have hfailed : ∀ s' out, parseRead arena .failed s' ≠ .ok out := fun s' out =>
      parseRead_unread (by decide) rfl
    simp only [Option.some.injEq, forall_eq', parseProcFiles_eq hpath hne, pushArray]
    have hcases := ha.alloc_cases (1 * KiB 4)
    simp only [hsize] at hcases
    obtain ⟨hfull, h⟩ | ⟨hle, hunmapped, h⟩ | ⟨hroom, h⟩ := hcases
    · -- a read into the null pointer fails, unless there is nothing to read
      rw [h, Except.ok_bind, if_pos rfl]
      have hnone := not_hasRoom_of_lt hfull
      rcases r with _ | ⟨_ | ⟨b, bs⟩, hle⟩
      · exact iff_of_false (fun ⟨out, hout⟩ => hfailed _ out hout) id
      · exact iff_of_true ⟨_, rfl⟩ ⟨.inl hfull, fun h => absurd rfl h⟩
      · exact iff_of_false (fun ⟨out, hout⟩ => hfailed _ out hout)
          fun hfits => hnone ((hfits.2 (by simp)).1.mono (by decide))
    · rw [h]
      -- clearing the buffer faults, so nothing is parsed
      refine iff_of_false (fun ⟨out, hout⟩ => by cases hout) fun hfits => ?_
      rcases r with _ | ⟨bs, hlen⟩
      · exact hfits
      · rcases hfits.1 with hreturn | hroom
        · omega
        · exact hunmapped hroom.2
    · rw [h, Except.ok_bind, if_neg hnull]
      have hreturn : AllocReturns arena capacity s 4096 := .inr hroom
      rcases r with _ | ⟨_ | ⟨b, bs⟩, hlen⟩
      · exact iff_of_false (fun ⟨out, hout⟩ => hfailed _ out hout) id
      · exact iff_of_true ⟨_, rfl⟩ ⟨hreturn, fun h => absurd rfl h⟩
      · have hroom' : HasRoom arena capacity s (1 * KiB 4).toNat := hsize.symm ▸ hroom
        -- the room after the buffer is what `ProcFileFits` counts from the start
        refine (parseRead_ok_iff (ha.of_allocMem hroom') hlen (List.cons_ne_nil b bs)).trans ?_
        rw [ha.hasRoom_allocMem hroom', ha.hasRoom_allocMem hroom', ha.allocReturns_allocMem hroom',
          hsize, ProcFileFits, and_iff_right hreturn]
        exact ⟨fun h _ => h, fun h => h (List.cons_ne_nil b bs)⟩

theorem parseProcFiles_inBounds_iff_oneLine :
    let arena := arenaCreate Kernel.above (KiB 16) Proc.fresh
    let file := some (ReadResult.bytes (ascii "Threads: 4\n") (by decide))
    (∃ out, parseProcFiles 1 arena.1 file arena.2 = .ok out) ↔
      1 = NULL ∨ arena.1 = NULL ∨ ∀ r, file = some r → ProcFileFits arena.1 (KiB 16) arena.2 r :=
  parseProcFiles_inBounds_iff _ _ _ _ _ fun hne => (arenaAt_create hne).1

/-- A line that begins with its colon has a key of no bytes, of which one less is copied. -/
theorem not_parseProcFiles_inBounds :
    ¬ ∀ (path arena : ℕ) (capacity : UInt64) (file : Option (ReadResult 4096)) (s : Proc),
      (arena ≠ NULL → ArenaAt arena capacity s) →
      ∃ out, parseProcFiles path arena file s = .ok out := by
  intro h
  obtain ⟨out, hout⟩ := h 1 (arenaCreate Kernel.above (KiB 16) Proc.fresh).1 (KiB 16)
    (some (.bytes (ascii ":\n") (by decide))) (arenaCreate Kernel.above (KiB 16) Proc.fresh).2
    fun hne => (arenaAt_create hne).1
  have hstop : (parseProcFiles 1 (arenaCreate Kernel.above (KiB 16) Proc.fresh).1
    (some (.bytes (ascii ":\n") (by decide)))
    (arenaCreate Kernel.above (KiB 16) Proc.fresh).2).isOk = false := by decide +kernel
  rw [hout] at hstop
  cases hstop

end AgentResources
