import AgentResources.Foundations.Stream
import AgentResources.Libnet.Net

/-!
# How far the port readers read

The loop of `port_read_tcp4` and `port_read_tcp6` goes on while the byte it has just read is a
newline, since `compare_string` returns 0 for equal strings. `portReadLoopUnread` is that loop with
what it leaves of the file.

## Main results

* `portReadLoopUnread_eq`: where the loop stops;
* `portRead_line_iff`: the files of which it reads the first line and no more.
-/

namespace AgentResources

/-- The loop of `portRead`, with what it leaves of the file. -/
def portReadLoopUnread (buffer : ℕ) : List UInt8 → Proc → Except Halt (List UInt8 × Proc)
  | [], s => do
    if (← compareString (s.mem.load buffer buffSmall) [10, 0]) = 0 then .error .hang
    return ([], s)
  | b :: rest, s => do
    let s := s.withMem (s.mem.store buffer [b])
    if (← compareString (s.mem.load buffer buffSmall) [10, 0]) = 0 then
      portReadLoopUnread buffer rest s
    else return (rest, s)

/-- The body of the two functions, with what it leaves of the file it opened. -/
def portReadUnread (path : Path) (h : Host) (device : ℕ) (s : Proc) :
    Except Halt (ℤ × Option (List UInt8) × Proc) :=
  if device = NULL then .ok (errInvalid, none, s)
  else
    let (tempArena, s) := arenaCreate h.toKernel (KiB 8) s
    match h.file path with
    | none => .ok (errIo, none, s)
    | some text => do
      let (buffer, s) ← pushArray tempArena 1 (UInt64.ofNat buffSmall) s
      if buffer = NULL then .error (.undefined .nullPointer)
      let (rest, s) ← portReadLoopUnread buffer text s
      return (errOk, some rest, arenaDestroy tempArena s)

/-- What follows the first newline of a text: nothing if it has none. -/
def afterLine (text : List UInt8) : List UInt8 := text.drop (text.idxOf Stream.newline + 1)

variable {buffer device : ℕ} {text rest : List UInt8} {s : Proc} {h : Host} {path : Path}

/-- `portReadLoopUnread` is the loop. -/
theorem portReadLoop_eq_map (buffer : ℕ) (text : List UInt8) (s : Proc) :
    portReadLoop buffer text s = (portReadLoopUnread buffer text s).map Prod.snd := by
  induction text generalizing s with
  | nil =>
    rw [portReadLoop, portReadLoopUnread]
    cases compareString (s.mem.load buffer buffSmall) [10, 0] with
    | error e => rfl
    | ok r =>
      rw [Except.ok_bind, Except.ok_bind]
      split <;> rfl
  | cons b rest ih =>
    rw [portReadLoop, portReadLoopUnread]
    cases compareString ((s.withMem (s.mem.store buffer [b])).mem.load buffer buffSmall)
        [10, 0] with
    | error e => rfl
    | ok r =>
      rw [Except.ok_bind, Except.ok_bind]
      split
      · exact ih _
      · rfl

/-- `portReadUnread` is the body of the two functions. -/
theorem portRead_eq_map (path : Path) (h : Host) (device : ℕ) (s : Proc) :
    portRead path h device s =
      (portReadUnread path h device s).map fun (code, _, s) => (code, s) := by
  unfold portRead portReadUnread
  split
  · rfl
  · cases h.file path with
    | none => rfl
    | some text =>
      dsimp only
      cases pushArray (arenaCreate h.toKernel (KiB 8) s).1 1 (UInt64.ofNat buffSmall)
          (arenaCreate h.toKernel (KiB 8) s).2 with
      | error e => rfl
      | ok r =>
        rw [Except.ok_bind, Except.ok_bind]
        split
        · rfl
        · rw [portReadLoop_eq_map]
          cases portReadLoopUnread _ text _ <;> rfl

/-- The buffer is compared by its first byte when the second is zero. -/
theorem compareString_newline {m : Memory} (hnext : m.byte (buffer + 1) = 0) :
    compareString (m.load buffer buffSmall) [10, 0] =
      .ok (if m.byte buffer = Stream.newline then 0 else 255) := by
  have hbyte : ∀ i < buffSmall,
      byteAt (m.load buffer buffSmall) i = .ok (m.byte (buffer + i)) := by
    intro i hi
    have hlen : i < (m.load buffer buffSmall).length := by rwa [Memory.length_load]
    rw [byteAt, List.getElem?_eq_getElem hlen, Memory.getElem_load]
  have hfirst := hbyte 0 (by decide)
  have hsecond := hbyte 1 (by decide)
  rw [Nat.add_zero] at hfirst
  unfold compareString
  simp only [compareString.go, hfirst, hsecond, hnext, Except.ok_bind, Nat.zero_add]
  by_cases hb : m.byte buffer = 10 <;> simp [byteAt, hb, Stream.newline, bind, Except.bind]

/-- A byte read into the buffer leaves the one after it. -/
theorem byte_next_store {m : Memory} (hnext : m.byte (buffer + 1) = 0) (b : UInt8) :
    (m.store buffer [b]).byte (buffer + 1) = 0 := by
  rw [Memory.byte_store_of_notMem, hnext]
  simp [Set.mem_Ico]

/-- One round: a newline sends the loop to the next byte, and any other byte ends it. -/
theorem portReadLoopUnread_cons (hnext : s.mem.byte (buffer + 1) = 0) (b : UInt8) :
    portReadLoopUnread buffer (b :: rest) s =
      if b = Stream.newline then
        portReadLoopUnread buffer rest (s.withMem (s.mem.store buffer [b]))
      else .ok (rest, s.withMem (s.mem.store buffer [b])) := by
  rw [portReadLoopUnread, Proc.mem_withMem, compareString_newline (byte_next_store hnext b),
    Memory.byte_store_singleton, Except.ok_bind]
  by_cases hb : b = Stream.newline <;> simp [hb, pure, Except.pure]

/-- At the end of the file the loop ends iff the last byte it read was not a newline. -/
theorem portReadLoopUnread_nil (hnext : s.mem.byte (buffer + 1) = 0) :
    portReadLoopUnread buffer [] s =
      if s.mem.byte buffer = Stream.newline then .error .hang else .ok ([], s) := by
  rw [portReadLoopUnread, compareString_newline hnext, Except.ok_bind]
  by_cases hb : s.mem.byte buffer = Stream.newline <;> simp [hb, pure, Except.pure]

/-- Where the loop stops: after the first byte that is no newline, and never in a file that has
only newlines. -/
theorem portReadLoopUnread_eq (hnext : s.mem.byte (buffer + 1) = 0)
    (hfirst : text = [] → s.mem.byte buffer ≠ Stream.newline) :
    (portReadLoopUnread buffer text s).map Prod.fst =
      if text ≠ [] ∧ ∀ b ∈ text, b = Stream.newline then .error .hang
      else .ok ((text.dropWhile (· = Stream.newline)).drop 1) := by
  induction text generalizing s with
  | nil => simp [portReadLoopUnread_nil hnext, hfirst rfl, Except.map]
  | cons b rest ih =>
    rw [portReadLoopUnread_cons hnext]
    by_cases hb : b = Stream.newline
    · have hnext' := byte_next_store hnext b
      rw [if_pos hb]
      by_cases hrest : rest = []
      · -- the file ends in the newline that is still in the buffer
        subst hrest
        rw [portReadLoopUnread_nil hnext', Proc.mem_withMem, Memory.byte_store_singleton, if_pos hb]
        simp [hb, Except.map]
      · rw [ih hnext' fun hnil => absurd hnil hrest]
        simp [hb, hrest]
    · simp [hb, Except.map]

/-- A loop that reads through the newlines and one byte more stops at the end of the first line only
if there is nothing after that byte. -/
theorem stops_afterLine_iff (text : List UInt8) :
    (¬ (text ≠ [] ∧ ∀ b ∈ text, b = Stream.newline) ∧
      (text.dropWhile (· = Stream.newline)).drop 1 = afterLine text) ↔
        text = [] ∨ ∃ c, c ≠ Stream.newline ∧ text = [c] := by
  cases text with
  | nil => simp [afterLine]
  | cons b rest =>
    by_cases hb : b = Stream.newline
    · -- the first line is the first byte, and the loop is already past it
      have hafter : afterLine (b :: rest) = rest := by simp [afterLine, hb]
      have hlen := (List.dropWhile_sublist (l := rest) (decide <| · = Stream.newline)).length_le
      refine iff_of_false ?_ (by simp [hb])
      rintro ⟨hsome, hrest⟩
      rw [hafter, List.dropWhile_cons_of_pos (by simpa using hb)] at hrest
      have hlen' := congrArg List.length hrest
      rw [List.length_drop] at hlen'
      have hnil : rest = [] := List.length_eq_zero_iff.mp (by omega)
      exact hsome (by simp [hb, hnil])
    · have hafter : afterLine (b :: rest) = rest.drop (rest.idxOf Stream.newline + 1) := by
        simp [afterLine, List.idxOf_cons_ne _ hb]
      have hstop : rest = rest.drop (rest.idxOf Stream.newline + 1) ↔ rest = [] := by
        refine ⟨fun heq => ?_, fun hnil => by simp [hnil]⟩
        have hlen := congrArg List.length heq
        rw [List.length_drop] at hlen
        exact List.length_eq_zero_iff.mp (by omega)
      rw [hafter, List.dropWhile_cons_of_neg (by simpa using hb), List.drop_one, List.tail_cons,
        hstop]
      simp [hb]

/-- The buffer the two functions read into is granted and zeroed. -/
theorem portBuffer_zeroed {k : Kernel} {a : ℕ}
    (hgrant : k.mmap s.maps (mappingLen (KiB 8)) = some a) :
    ∃ b s', pushArray (arenaCreate k (KiB 8) s).1 1 (UInt64.ofNat buffSmall)
        (arenaCreate k (KiB 8) s).2 = .ok (b, s') ∧
      b ≠ NULL ∧ s'.mem.byte b = 0 ∧ s'.mem.byte (b + 1) = 0 := by
  obtain ⟨ha, -⟩ := arenaCreate_of_granted hgrant
  obtain ⟨hat, hpos⟩ := arenaAt_of_granted hgrant
  have hroom : HasRoom a (KiB 8) (arenaCreate k (KiB 8) s).2 (1 * UInt64.ofNat buffSmall).toNat :=
    hat.hasRoom (by decide) (by rw [hpos]; decide)
  obtain ⟨s₁, halloc, -, -, -, hzero, -⟩ := hat.alloc_of_room hroom
  have hbyte : ∀ i < 128,
      s₁.mem.byte (arenaBase a + position a (arenaCreate k (KiB 8) s).2 + i) = 0 := by
    intro i hi
    refine hzero _ ?_
    rw [Set.mem_Ico, show (1 * UInt64.ofNat buffSmall).toNat = 128 by decide]
    omega
  have hfirst := hbyte 0 (by decide)
  rw [Nat.add_zero] at hfirst
  refine ⟨_, s₁, ?_, arenaBase_add_ne_null a (position a (arenaCreate k (KiB 8) s).2), hfirst,
    hbyte 1 (by decide)⟩
  rw [pushArray, ha]
  exact halloc

/-- The loop of the two functions ends and has read the first line of the file, and no more, iff
the scratch arena is granted and the file is empty or one byte that is no newline. -/
theorem portRead_line_iff (hdevice : device ≠ NULL) (hfile : h.file path = some text) :
    (∃ s', portReadUnread path h device s = .ok (errOk, some (afterLine text), s')) ↔
      (h.mmap s.maps (mappingLen (KiB 8))).isSome ∧
        (text = [] ∨ ∃ c, c ≠ Stream.newline ∧ text = [c]) := by
  rw [← stops_afterLine_iff, portReadUnread, if_neg hdevice, hfile]
  cases hgrant : h.mmap s.maps (mappingLen (KiB 8)) with
  | none =>
    rw [arenaCreate_of_refused hgrant]
    simp [pushArray]
  | some a =>
    obtain ⟨b, s', hpush, hne, hfirst, hnext⟩ := portBuffer_zeroed (s := s) hgrant
    have hold : (0 : UInt8) ≠ Stream.newline := by decide
    rw [← hfirst] at hold
    have hloop : Except.map Prod.fst (portReadLoopUnread b text s') = _ :=
      portReadLoopUnread_eq hnext fun _ => hold
    dsimp only at hpush ⊢
    rw [hpush, Except.ok_bind, if_neg hne]
    simp only [Option.isSome_some, true_and]
    -- the loop's own result decides the rest
    split_ifs at hloop with hhang
    · cases hrun : portReadLoopUnread b text s' with
      | error e => exact iff_of_false (by simp) fun hstop => hstop.1 hhang
      | ok r => simp [hrun, Except.map] at hloop
    · cases hrun : portReadLoopUnread b text s' with
      | error e => simp [hrun, Except.map] at hloop
      | ok r =>
        rw [hrun] at hloop
        have hrest : r.1 = (text.dropWhile (· = Stream.newline)).drop 1 := Except.ok.inj hloop
        simp only [Except.ok_bind, hhang, not_false_eq_true, true_and, ← hrest]
        simp [pure, Except.pure]

/-- A file of one byte. -/
theorem portRead_line_byte :
    ∃ s', portReadUnread .etcTcp (hostOf [120]) 1 Proc.fresh =
      .ok (errOk, some (afterLine [120]), s') :=
  (portRead_line_iff (by decide) rfl).mpr ⟨by decide +kernel, .inr ⟨120, by decide, rfl⟩⟩

/-- Of a file that has only a newline the loops never come to the end. -/
theorem not_portRead_line :
    ¬ ∀ (path : Path) (h : Host) (device : ℕ) (s : Proc) (text : List UInt8), device ≠ NULL →
      h.file path = some text → (h.mmap s.maps (mappingLen (KiB 8))).isSome →
        ∃ s', portReadUnread path h device s = .ok (errOk, some (afterLine text), s') := by
  intro hall
  have hgrant : ((hostOf [10]).mmap Proc.fresh.maps (mappingLen (KiB 8))).isSome := by
    decide +kernel
  obtain ⟨s', hrun⟩ := hall .etcTcp6 (hostOf [10]) 1 Proc.fresh [10] (by decide) rfl hgrant
  have hhang : (portReadUnread .etcTcp6 (hostOf [10]) 1 Proc.fresh).isOk = false := by
    decide +kernel
  rw [hrun] at hhang
  cases hhang

end AgentResources
