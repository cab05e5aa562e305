import AgentResources.Base.Parse

/-!
# Numbers and strings

What `parse_u64` and `compare_string` decide, for every text. `parseU64Loop` is the loop of
`parse_u64` with its reads; where they stay in the buffer it returns what `parseU64` says.

## Main results

* `parseU64Loop_decimal`: the loop returns the value of the leading digits, whatever follows them;
* `compareString_decides_iff`: when `compare_string` decides whether two strings are equal.
-/

namespace AgentResources

/-! ## `parse_u64` -/

/-- The loop of `parse_u64`, from the byte `i` on, with `fuel` bytes to go. A `char` above 127 is
negative, so that it is below `'0'` as well. -/
def parseU64From (buf : List UInt8) : ℕ → ℕ → UInt64 → Except Halt UInt64
  | 0, _, value => .ok value
  | fuel + 1, i, value => do
    let c ← byteAt buf i
    if c < 48 ∨ 57 < c then .ok value
    else parseU64From buf fuel (i + 1) (value * 10 + digitValue c)

/-- `parse_u64`, read by read. -/
def parseU64Loop (buf : List UInt8) (len : ℕ) : Except Halt UInt64 := parseU64From buf len 0 0

/-- The digits at the start of the first `len` bytes. -/
def digitRun (buf : List UInt8) (len : ℕ) : List UInt8 := (buf.take len).takeWhile isDigit

/-- The buffer has `len` bytes, or a byte that is not a digit before its end. -/
def HoldsNumber (buf : List UInt8) (len : ℕ) : Prop := len ≤ buf.length ∨ ∃ c ∈ buf, ¬ isDigit c

variable {buf run rest : List UInt8} {len fuel n zeros : ℕ} {c : UInt8}

theorem isDigit_iff : isDigit c ↔ ¬ (c < 48 ∨ 57 < c) := by
  simp [isDigit]

theorem digitValue_eq (hc : isDigit c) : digitValue c = UInt64.ofNat (c.toNat - 48) := by
  have hle : 48 ≤ c := by
    rw [isDigit, Bool.and_eq_true, decide_eq_true_eq] at hc
    exact hc.1
  have hsub : (c - 48).toNat = c.toNat - 48 := UInt8.toNat_sub_of_le c 48 hle
  rw [← hsub]
  exact (UInt64.ofNat_uInt8ToNat _).symm

/-- The fold in the machine word is the fold in the numbers, modulo `2 ^ 64`. -/
theorem foldl_digitValue_ofNat (hrun : ∀ c ∈ run, isDigit c) (value : ℕ) :
    run.foldl (fun value c => value * 10 + digitValue c) (UInt64.ofNat value) =
      UInt64.ofNat (run.foldl (fun value c => value * 10 + (c.toNat - 48)) value) := by
  induction run generalizing value with
  | nil => rfl
  | cons c run ih =>
    obtain ⟨hc, hrun⟩ := List.forall_mem_cons.mp hrun
    have hstep : UInt64.ofNat value * 10 + digitValue c =
        UInt64.ofNat (value * 10 + (c.toNat - 48)) := by
      rw [digitValue_eq hc, UInt64.ofNat_add, UInt64.ofNat_mul]
      rfl
    rw [List.foldl_cons, List.foldl_cons, hstep, ih hrun]

theorem digitRun_cons (hc : isDigit c) :
    digitRun (c :: buf) (len + 1) = c :: digitRun buf len := by
  simp [digitRun, hc]

theorem isDigit_of_mem_digitRun (hc : c ∈ digitRun buf len) : isDigit c :=
  List.mem_takeWhile_imp hc

/-- The value of the leading digits, modulo `2 ^ 64`. -/
theorem parseU64_eq_ofDigits (buf : List UInt8) (len : ℕ) :
    parseU64 buf len = UInt64.ofNat (Scanf.ofDigits (digitRun buf len)) :=
  foldl_digitValue_ofNat (fun _ hc => isDigit_of_mem_digitRun hc) 0

theorem holdsNumber_cons (hc : isDigit c) :
    HoldsNumber (c :: buf) (len + 1) ↔ HoldsNumber buf len := by
  simp [HoldsNumber, hc]

/-- The digits from `i` on are folded into the value, when the loop stays in its buffer. -/
theorem parseU64From_eq {i : ℕ} (hbuf : HoldsNumber (buf.drop i) fuel) (value : UInt64) :
    parseU64From buf fuel i value =
      .ok ((digitRun (buf.drop i) fuel).foldl (fun value c => value * 10 + digitValue c) value) := by
  induction fuel generalizing i value with
  | zero => simp [parseU64From, digitRun]
  | succ fuel ih =>
    have hi : i < buf.length := by
      by_contra hi
      rw [List.drop_eq_nil_of_le (not_lt.mp hi)] at hbuf
      simp [HoldsNumber] at hbuf
    rw [parseU64From, byteAt, List.getElem?_eq_getElem hi, Except.ok_bind]
    rw [List.drop_eq_getElem_cons hi] at hbuf ⊢
    rw [digitRun, List.take_succ_cons, List.takeWhile_cons]
    by_cases hc : isDigit buf[i]
    · -- a digit: the bytes after it still hold what is left of the number
      rw [holdsNumber_cons hc] at hbuf
      rw [if_neg (isDigit_iff.mp hc), ih hbuf, if_pos hc, List.foldl_cons]
      rfl
    · rw [if_pos (not_not.mp (mt isDigit_iff.mpr hc)), if_neg hc]
      rfl

/-- The loop computes `parseU64`. -/
theorem parseU64Loop_eq (hbuf : HoldsNumber buf len) :
    parseU64Loop buf len = .ok (parseU64 buf len) := by
  have hloop : HoldsNumber (buf.drop 0) len := hbuf
  exact parseU64From_eq hloop 0

/-- Only the run and the byte after it count. -/
theorem digitRun_take_append (buf other : List UInt8) (hbuf : HoldsNumber buf len) :
    HoldsNumber (buf.take ((digitRun buf len).length + 1) ++ other) len ∧
      digitRun (buf.take ((digitRun buf len).length + 1) ++ other) len = digitRun buf len := by
  induction buf generalizing len with
  | nil =>
    have hlen : len = 0 := by simpa [HoldsNumber] using hbuf
    simp [digitRun, HoldsNumber, hlen]
  | cons c buf ih =>
    cases len with
    | zero => simp [digitRun, HoldsNumber]
    | succ len =>
      by_cases hc : isDigit c
      · -- a digit is of the run, and the bytes after it hold what is left
        rw [holdsNumber_cons hc] at hbuf
        obtain ⟨hholds, hrun⟩ := ih hbuf
        rw [digitRun_cons hc, List.length_cons, List.take_succ_cons, List.cons_append,
          holdsNumber_cons hc, digitRun_cons hc, hrun]
        exact ⟨hholds, rfl⟩
      · simp [digitRun, HoldsNumber, hc]

/-- A run of digits ends where the length does, or where what follows begins with no digit. -/
theorem digitRun_append (hrun : ∀ c ∈ run, isDigit c) (hlen : run.length ≤ len)
    (hrest : ∀ c ∈ (rest.take (len - run.length)).head?, ¬ isDigit c) :
    digitRun (run ++ rest) len = run := by
  have hstop : (rest.take (len - run.length)).takeWhile isDigit = [] := by
    cases hcut : rest.take (len - run.length) with
    | nil => rfl
    | cons c cut =>
      rw [hcut] at hrest
      exact List.takeWhile_cons_of_neg (hrest c rfl)
  rw [digitRun, List.take_append, List.take_of_length_le hlen,
    List.takeWhile_append_of_pos hrun, hstop, List.append_nil]

/-- A run of digits is read up to its end, whatever follows it. -/
theorem parseU64Loop_run (hrun : ∀ c ∈ run, isDigit c) (rest : List UInt8) :
    parseU64Loop (run ++ rest) run.length = .ok (UInt64.ofNat (Scanf.ofDigits run)) := by
  have hholds : HoldsNumber (run ++ rest) run.length := .inl (by simp)
  rw [parseU64Loop_eq hholds, parseU64_eq_ofDigits, digitRun_append hrun le_rfl (by simp)]

/-- A number with zeros in front of it, and then no digit. -/
theorem digitRun_digits (hlen : zeros + (Scanf.digits n).length ≤ len)
    (hrest : ∀ c ∈ rest.head?, ¬ isDigit c) :
    digitRun (List.replicate zeros 48 ++ Scanf.digits n ++ rest) len =
      List.replicate zeros 48 ++ Scanf.digits n := by
  have hdigits : ∀ c ∈ List.replicate zeros 48 ++ Scanf.digits n, isDigit c := by
    intro c hc
    rcases List.mem_append.mp hc with hc | hc
    · rw [List.eq_of_mem_replicate hc]
      rfl
    · exact Scanf.isDigit_of_mem_digits hc
  have hle : (List.replicate zeros 48 ++ Scanf.digits n).length ≤ len := by
    simpa using hlen
  refine digitRun_append hdigits hle fun c hc => hrest c ?_
  -- what follows the digits is cut, and begins as before if anything is left of it
  rw [List.head?_take] at hc
  split at hc
  · cases hc
  · exact hc

/-- `parse_u64` returns the value of the digits at the start of the first `len` bytes, modulo
`2 ^ 64`, whatever stands after them and the byte that ends them; so it reads back a number below
`2 ^ 64` that is written in decimal, with any zeros in front. -/
theorem parseU64Loop_decimal (hbuf : HoldsNumber buf len) :
    parseU64Loop buf len = .ok (UInt64.ofNat (Scanf.ofDigits (digitRun buf len))) ∧
    (∀ other, parseU64Loop (buf.take ((digitRun buf len).length + 1) ++ other) len =
      parseU64Loop buf len) ∧
    ∀ n zeros rest, n < 2 ^ 64 → buf = List.replicate zeros 48 ++ Scanf.digits n ++ rest →
      (∀ c ∈ rest.head?, ¬ isDigit c) → zeros + (Scanf.digits n).length ≤ len →
        ∃ v, parseU64Loop buf len = .ok v ∧ v.toNat = n := by
  refine ⟨?_, fun other => ?_, ?_⟩
  · rw [parseU64Loop_eq hbuf, parseU64_eq_ofDigits]
  · obtain ⟨hother, hrun⟩ := digitRun_take_append buf other hbuf
    rw [parseU64Loop_eq hbuf, parseU64Loop_eq hother, parseU64_eq_ofDigits, parseU64_eq_ofDigits,
      hrun]
  · rintro n zeros rest hn rfl hrest hlen
    refine ⟨UInt64.ofNat n, ?_, UInt64.toNat_ofNat_of_lt hn⟩
    rw [parseU64Loop_eq hbuf, parseU64_eq_ofDigits, digitRun_digits hlen hrest,
      Scanf.ofDigits_zeros_append, Scanf.ofDigits_digits]

/-- A padded number in a longer buffer. -/
theorem parseU64Loop_decimal_padded :
    ∃ v, parseU64Loop (ascii "0042 kB") 7 = .ok v ∧ v.toNat = 42 :=
  (parseU64Loop_decimal (.inl (by decide +kernel))).2.2 42 2 (ascii " kB") (by decide)
    (by decide +kernel) (by decide +kernel) (by decide +kernel)

/-! ## `compare_string` -/

variable {s t : List UInt8}

/-- Two strings are told apart by their first two bytes, and two empty ones are read past their
ends. -/
theorem compareString_terminated (hs : 0 ∉ s) (ht : 0 ∉ t) :
    compareString (s ++ [0]) (t ++ [0]) =
      if s = [] ∧ t = [] then .error (.undefined .overread)
      else if s.take 2 = t.take 2 then .ok 0 else .ok 255 := by
  unfold compareString
  rcases s with _ | ⟨a, s⟩ <;> rcases t with _ | ⟨b, t⟩
  · rfl
  · have hb : 0 ≠ b := fun h => ht (h ▸ List.mem_cons_self)
    simp [compareString.go, byteAt, hb]
  · have ha : a ≠ 0 := fun h => hs (h ▸ List.mem_cons_self)
    simp [compareString.go, byteAt, ha]
  · have hs : 0 ∉ s := fun h => hs (List.mem_cons_of_mem _ h)
    have ht : 0 ∉ t := fun h => ht (List.mem_cons_of_mem _ h)
    -- the first bytes, and then the second ones, of which either may be the terminator
    rcases s with _ | ⟨c, s⟩ <;> rcases t with _ | ⟨d, t⟩
    · by_cases hab : a = b <;> simp [compareString.go, byteAt, hab, bind, Except.bind]
    · have hd : 0 ≠ d := fun h => ht (h ▸ List.mem_cons_self)
      by_cases hab : a = b <;> simp [compareString.go, byteAt, hab, hd, bind, Except.bind]
    · have hc : c ≠ 0 := fun h => hs (h ▸ List.mem_cons_self)
      by_cases hab : a = b <;> simp [compareString.go, byteAt, hab, hc, bind, Except.bind]
    · by_cases hab : a = b <;> by_cases hcd : c = d <;>
        simp [compareString.go, byteAt, hab, hcd, bind, Except.bind]

/-- `compare_string` decides whether two strings are equal, within their terminators, iff not both
are empty and no two different ones have the same first two bytes. `COMPARE_STRING` is the same
call with its arguments cast. -/
theorem compareString_decides_iff (hs : 0 ∉ s) (ht : 0 ∉ t) :
    (∃ r, compareString (s ++ [0]) (t ++ [0]) = .ok r ∧ (r = 0 ↔ s = t)) ↔
      ¬ (s = [] ∧ t = []) ∧ (s.take 2 = t.take 2 → s = t) := by
  rw [compareString_terminated hs ht]
  by_cases hempty : s = [] ∧ t = []
  · simp [hempty]
  · rw [if_neg hempty]
    have hprefix : s = t → s.take 2 = t.take 2 := fun h => h ▸ rfl
    by_cases htake : s.take 2 = t.take 2
    · simp [htake, hempty]
    · simp [htake, hempty, mt hprefix htake]

/-- Strings that differ in their second byte. -/
theorem compareString_decides_second :
    ∃ r, compareString (ascii "ab" ++ [0]) (ascii "ax" ++ [0]) = .ok r ∧
      (r = 0 ↔ ascii "ab" = ascii "ax") :=
  (compareString_decides_iff (by decide) (by decide)).mpr ⟨by decide, by decide⟩

/-- Two names that only their last byte tells apart are taken for equal. -/
theorem compareString_conflates :
    ¬ ∀ s t : List UInt8, 0 ∉ s → 0 ∉ t →
      ∃ r, compareString (s ++ [0]) (t ++ [0]) = .ok r ∧ (r = 0 ↔ s = t) := by
  intro hall
  obtain ⟨r, hr, hiff⟩ := hall (ascii "tcp4") (ascii "tcp6") (by decide) (by decide)
  have hzero : compareString (ascii "tcp4" ++ [0]) (ascii "tcp6" ++ [0]) = .ok 0 := by
    decide +kernel
  obtain rfl : r = 0 := Except.ok.inj (hr.symm.trans hzero)
  have hne : ascii "tcp4" ≠ ascii "tcp6" := by decide +kernel
  exact hne (hiff.mp rfl)

end AgentResources
