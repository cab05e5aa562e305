import AgentResources.Base.Parse

/-!
# The entries of a parsed file

What `parse_proc_files` is for: one entry for each line with a colon, its key the text before the
first colon and its value the text behind it, both cut to the 15 bytes that fit a field with its
terminator. The key is copied one byte short, so an entry describes its line only if the byte that
is lost is the zero that takes its place (`parseProcFiles_entries_iff`).
-/

namespace AgentResources

/-- The key of a line: the text before its first colon, at most 15 bytes of it. -/
def keyText (line : List UInt8) : List UInt8 := (line.takeWhile (· ≠ 58)).take 15

/-- The value of a line: the text behind its first colon and any blanks and tabs, at most 15 bytes
of it. -/
def valueText (line : List UInt8) : List UInt8 :=
  (((line.dropWhile (· ≠ 58)).drop 1).dropWhile fun b => b = 32 ∨ b = 9).take 15

/-- An entry holds the key and the value of its line. -/
structure Describes (line : List UInt8) (entry : ProcEntry) : Prop where
  key : HoldsString entry.key (keyText line)
  value : HoldsString entry.value (valueText line)

variable {line bs : List UInt8} {path arena : ℕ} {capacity : UInt64} {s s' : Proc}

/-- The entry of a line has its value, and its key without the last byte. -/
theorem describes_lineEntry_iff (hmem : 58 ∈ line) (hhead : line.head? ≠ some 58) :
    Describes line (lineEntry line) ↔ (keyText line).getLast? = some 0 := by
  obtain ⟨key, val, rfl, hkey⟩ := List.eq_append_cons_of_mem hmem
  have hne : key ≠ [] := by
    rintro rfl
    exact hhead rfl
  have hpos := List.length_pos_of_ne_nil hne
  have hidx : (key ++ 58 :: val).idxOf 58 = key.length := by
    simp [List.idxOf_append_of_notMem hkey]
  have hbefore : ∀ b ∈ key, decide (b ≠ 58) = true := fun b hb => by
    rw [decide_eq_true_eq]
    exact fun h => hkey (h ▸ hb)
  have hkeyText : keyText (key ++ 58 :: val) = key.take 15 := by
    rw [keyText, List.takeWhile_append_of_pos hbefore]
    simp
  have hvalueText : valueText (key ++ 58 :: val) =
      (val.dropWhile fun b => b = 32 ∨ b = 9).take 15 := by
    rw [valueText, List.dropWhile_append_of_pos hbefore]
    simp
  -- what the parser copies: the key without its last byte, and the value
  have hkeyField : (lineEntry (key ++ 58 :: val)).key =
      overlay (Vector.replicate 16 0) (key.take 15).dropLast := by
    rw [lineEntry, hidx, List.take_append_of_le_length (by omega), List.dropLast_eq_take,
      List.take_take, List.length_take, show min key.length 15 - 1 =
        min (min 15 key.length - 1) 15 by omega]
  have hvalueField : (lineEntry (key ++ 58 :: val)).value =
      overlay (Vector.replicate 16 0) ((val.dropWhile fun b => b = 32 ∨ b = 9).take 15) := by
    rw [lineEntry, hidx, List.append_cons, List.drop_left' (by simp)]
  have hcut : ∀ t : List UInt8, (t.take 15).length < 16 := fun t =>
    (List.length_take_le 15 t).trans_lt (by decide)
  have htake : key.take 15 ≠ [] := by
    rw [ne_eq, List.take_eq_nil_iff, not_or]
    exact ⟨by decide, hne⟩
  have hkeyIff := holdsString_overlay_dropLast (hcut key) htake
  have hvalue := holdsString_overlay (hcut (val.dropWhile fun b => b = 32 ∨ b = 9))
  rw [← hkeyField, ← hkeyText] at hkeyIff
  rw [← hvalueField, ← hvalueText] at hvalue
  rw [← hkeyIff]
  exact ⟨fun h => h.key, fun h => ⟨h, hvalue⟩⟩

/-- Nothing but the null pointer is returned for no bytes. -/
theorem parseProcFiles_nil {out : Option ProcFile} {hle : [].length ≤ 4096} (hpath : path ≠ NULL)
    (harena : arena ≠ NULL)
    (h : parseProcFiles path arena (some (.bytes [] hle)) s = .ok (out, s')) : out = none := by
  rw [parseProcFiles_eq hpath harena] at h
  obtain ⟨⟨buffer, s₁⟩, -, h⟩ := Except.bind_eq_ok.mp h
  have hnothing : ∀ b : Prop, [Decidable b] →
      (if b then (ReadResult.bytes [] hle).intoNull else .bytes [] hle).count = 0 := by
    intro b _
    split <;> rfl
  rw [parseRead, if_pos (hnothing _)] at h
  exact (Prod.mk.inj (Except.ok.inj h)).1.symm

/-- What is returned for bytes that were read: an entry for each line with a colon, in order. -/
theorem eq_entries_of_parseProcFiles {hle : bs.length ≤ 4096} {out : Option ProcFile}
    (hpath : path ≠ NULL) (harena : arena ≠ NULL) (hbs : bs ≠ [])
    (h : parseProcFiles path arena (some (.bytes bs hle)) s = .ok (out, s')) :
    out = some ⟨(colonLines bs).length, (colonLines bs).map lineEntry⟩ := by
  have hcount : ∀ b : Prop, [Decidable b] →
      (if b then (ReadResult.bytes bs hle).intoNull else .bytes bs hle).count ≠ 0 := by
    intro b _
    cases bs with
    | nil => exact absurd rfl hbs
    | cons c cs =>
      split
      · simp [ReadResult.intoNull, ReadResult.count]
      · simp [ReadResult.count]
  rw [parseProcFiles_eq hpath harena] at h
  obtain ⟨⟨buffer, s₁⟩, -, h⟩ := Except.bind_eq_ok.mp h
  by_cases hbuffer : buffer = NULL
  · -- nothing can be read into the null pointer
    rw [if_pos hbuffer] at h
    have hread : (ReadResult.bytes bs hle).intoNull.read = [] := by
      cases bs <;> rfl
    have hcount' := hcount True
    rw [if_pos trivial] at hcount'
    exact absurd h (parseRead_unread hcount' hread)
  rw [if_neg hbuffer, parseRead, if_neg (by simpa using hcount False)] at h
  obtain ⟨⟨pf, s₂⟩, -, h⟩ := Except.bind_eq_ok.mp h
  obtain ⟨⟨entries, s₃⟩, -, h⟩ := Except.bind_eq_ok.mp h
  dsimp only at h
  split at h
  · cases h
  obtain ⟨scan, hscan, hreturn⟩ := Except.bind_eq_ok.mp h
  have hlen : ([] ++ [] ++ bs).length < noDelim := by
    simp only [List.nil_append, noDelim]
    omega
  -- the scan of the whole file is the fold over its lines
  have hfold := @scanFrom_eq [] entries [] [] bs hlen
  have hstart : delimOf 0 [] = noDelim := if_neg (by simp)
  simp only [List.nil_append, List.length_nil, Nat.add_zero, hstart] at hfold
  simp only [ReadResult.read, ReadResult.count] at hscan
  rw [hscan] at hfold
  obtain ⟨-, -, hentries⟩ := (foldlM_pushLine_eq_ok (Nat.zero_le _)).mp hfold.symm
  obtain ⟨rfl, -⟩ := Prod.mk.inj (Except.ok.inj hreturn)
  rw [List.nil_append] at hentries
  have hall : scan.entries = (colonLines bs).map lineEntry := hentries
  rw [hall, List.length_map]

/-- The parser returns an entry for each line with a colon, in file order, that describes it, iff
something was read, there is room for it, and the last byte of each key is zero. -/
theorem parseProcFiles_entries_iff (path arena : ℕ) (capacity : UInt64) (bs : List UInt8)
    (hle : bs.length ≤ 4096) (s : Proc) (hpath : path ≠ NULL) (harena : arena ≠ NULL)
    (ha : ArenaAt arena capacity s) (hlines : (colonLines bs).length ≤ 256)
    (hkeys : ∀ line ∈ colonLines bs, line.head? ≠ some 58) :
    (∃ pf s', parseProcFiles path arena (some (.bytes bs hle)) s = .ok (some pf, s') ∧
        pf.count = (colonLines bs).length ∧ List.Forall₂ Describes (colonLines bs) pf.entries) ↔
      bs ≠ [] ∧ HasRoom arena capacity s 4112 ∧ AllocReturns arena capacity s 12304 ∧
        (colonLines bs ≠ [] → HasRoom arena capacity s 12304) ∧
        ∀ line ∈ colonLines bs, (keyText line).getLast? = some 0 := by
  have hbounds :=
    parseProcFiles_inBounds_iff path arena capacity (some (.bytes bs hle)) s fun _ => ha
  simp only [hpath, harena, false_or, Option.some.injEq, forall_eq', ProcFileFits] at hbounds
  have hdescribes : List.Forall₂ Describes (colonLines bs) ((colonLines bs).map lineEntry) ↔
      ∀ line ∈ colonLines bs, (keyText line).getLast? = some 0 := by
    rw [List.forall₂_map_right_iff, List.forall₂_same]
    refine forall₂_congr fun line hline => describes_lineEntry_iff ?_ (hkeys line hline)
    simpa using List.of_mem_filter hline
  rw [← hdescribes]
  constructor
  · rintro ⟨pf, s', hrun, -, hall⟩
    -- for no bytes the null pointer is returned
    have hbs : bs ≠ [] := by
      rintro rfl
      cases parseProcFiles_nil hpath harena hrun
    obtain ⟨hpf, hreturns, hentries, -⟩ := (hbounds.mp ⟨_, hrun⟩).2 hbs
    obtain rfl := Option.some.inj (eq_entries_of_parseProcFiles hpath harena hbs hrun)
    exact ⟨hbs, hpf, hreturns, hentries, hall⟩
  · rintro ⟨hbs, hpf, hreturns, hentries, hall⟩
    have hbuffer : AllocReturns arena capacity s 4096 := .inr (hpf.mono (by decide))
    obtain ⟨⟨out, s'⟩, hrun⟩ :=
      hbounds.mpr ⟨hbuffer, fun _ => ⟨hpf, hreturns, hentries, hlines, hkeys⟩⟩
    obtain rfl := eq_entries_of_parseProcFiles hpath harena hbs hrun
    exact ⟨_, s', hrun, rfl, hall⟩

/-- A key whose eighth byte is the zero that ends it. -/
theorem parseProcFiles_entries_iff_zero :
    let arena := arenaCreate Kernel.above (KiB 16) Proc.fresh
    let bs := ascii "Threads" ++ 0 :: ascii ": 4\nnone\n"
    ∃ pf s', parseProcFiles 1 arena.1 (some (.bytes bs (by decide))) arena.2 = .ok (some pf, s') ∧
      pf.count = (colonLines bs).length ∧ List.Forall₂ Describes (colonLines bs) pf.entries := by
  intro arena bs
  have hcreate : arena.1 ≠ NULL := by decide +kernel
  refine (parseProcFiles_entries_iff 1 arena.1 (KiB 16) bs _ arena.2 (by decide) hcreate
    (arenaAt_create hcreate).1 (by decide) (by decide)).mpr
      ⟨by decide, ?_, .inr ?_, fun _ => ?_, by decide⟩
  all_goals
    unfold HasRoom
    decide +kernel

/-- The key of `Threads` is stored as `Thread`. -/
theorem not_parseProcFiles_entries :
    ¬ ∀ (path arena : ℕ) (capacity : UInt64) (bs : List UInt8) (hle : bs.length ≤ 4096) (s : Proc),
      path ≠ NULL → arena ≠ NULL → ArenaAt arena capacity s →
        HasRoom arena capacity s 12304 → bs ≠ [] →
        (colonLines bs).length ≤ 256 → (∀ line ∈ colonLines bs, line.head? ≠ some 58) →
        ∃ pf s', parseProcFiles path arena (some (.bytes bs hle)) s = .ok (some pf, s') ∧
          pf.count = (colonLines bs).length ∧
          List.Forall₂ Describes (colonLines bs) pf.entries := by
  intro hall
  have hcreate : (arenaCreate Kernel.above (KiB 16) Proc.fresh).1 ≠ NULL := by decide +kernel
  obtain ⟨pf, s', hrun, -, hentries⟩ := hall 1 (arenaCreate Kernel.above (KiB 16) Proc.fresh).1
    (KiB 16) (ascii "Threads: 4\n") (by decide) (arenaCreate Kernel.above (KiB 16) Proc.fresh).2
    (by decide) hcreate (arenaAt_create hcreate).1 (by unfold HasRoom; decide +kernel)
    (by decide) (by decide) (by decide)
  obtain rfl := Option.some.inj (eq_entries_of_parseProcFiles (by decide) hcreate (by decide) hrun)
  have hline : colonLines (ascii "Threads: 4\n") = [ascii "Threads: 4"] := by decide
  rw [hline, List.map_singleton, List.forall₂_cons, describes_lineEntry_iff (by decide) (by decide)]
    at hentries
  exact absurd hentries.1 (by decide)

end AgentResources
