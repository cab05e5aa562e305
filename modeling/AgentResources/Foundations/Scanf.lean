import AgentResources.Foundations.CString

/-!
# Formatted input and output

The conversions `%lu`, `%ld`, `%d` and `%Ns` of the `scanf` family, and decimal output. A number is
optional white space, an optional sign and digits; its value is clamped to the range of the
conversion's word, as `strtol` and `strtoul` do. Each conversion returns what it stores and the
text it left.
-/

namespace Scanf

/-- White space in the C locale. -/
def isSpace (c : UInt8) : Bool := c == 32 || (9 ≤ c && c ≤ 13)

/-- The number a list of digits forms. -/
def ofDigits (digits : List UInt8) : ℕ :=
  digits.foldl (fun value c => value * 10 + (c.toNat - 48)) 0

/-- An optional sign and at least one digit: is it negative, its magnitude, what follows. -/
def number (text : List UInt8) : Option (Bool × ℕ × List UInt8) :=
  let text := text.dropWhile isSpace
  let (neg, text) := match text with
    | 45 :: text => (true, text)
    | 43 :: text => (false, text)
    | text => (false, text)
  let digits := text.takeWhile isDigit
  if digits = [] then none else some (neg, ofDigits digits, text.dropWhile isDigit)

/-- The value of `strtol`. -/
def toLong (neg : Bool) (magnitude : ℕ) : ℤ :=
  if neg then max (-(magnitude : ℤ)) (-(2 ^ 63)) else min (magnitude : ℤ) (2 ^ 63 - 1)

/-- The value of `strtoul`: a negative number is negated in the word. -/
def toULong (neg : Bool) (magnitude : ℕ) : UInt64 :=
  if 2 ^ 64 ≤ magnitude then UInt64.ofNat (2 ^ 64 - 1)
  else if neg then 0 - UInt64.ofNat magnitude
  else UInt64.ofNat magnitude

/-- `%lu` -/
def scanLu (text : List UInt8) : Option (UInt64 × List UInt8) :=
  (number text).map fun (neg, magnitude, rest) => (toULong neg magnitude, rest)

/-- `%ld` -/
def scanLd (text : List UInt8) : Option (ℤ × List UInt8) :=
  (number text).map fun (neg, magnitude, rest) => (toLong neg magnitude, rest)

/-- `%d`, as the 32 bits that are stored. -/
def scanD (text : List UInt8) : Option (UInt32 × List UInt8) :=
  (number text).map fun (neg, magnitude, rest) =>
    (UInt32.ofNat (toLong neg magnitude % 2 ^ 32).toNat, rest)

/-- `%Ns` with `N = width`: at least one byte that is not white space. -/
def scanWord (width : ℕ) (text : List UInt8) : Option (List UInt8 × List UInt8) :=
  let text := text.dropWhile isSpace
  let word := (text.take width).takeWhile fun c => !isSpace c
  if word = [] then none else some (word, text.drop word.length)

/-- The decimal digits of a number. -/
def digits (n : ℕ) : List UInt8 := (Nat.toDigits 10 n).map fun c => UInt8.ofNat c.toNat

/-- `%lu` and `%ld` on output. -/
def decimal (i : ℤ) : List UInt8 := if i < 0 then 45 :: digits i.natAbs else digits i.natAbs

theorem length_digits_le {n k : ℕ} (hk : 0 < k) (hn : n < 10 ^ k) : (digits n).length ≤ k := by
  rw [digits, List.length_map]
  exact (Nat.length_toDigits_le_iff (by decide) hk).mpr hn

theorem digits_of_lt {n : ℕ} (hn : n < 10) : digits n = [UInt8.ofNat (48 + n)] := by
  have hchar : ∀ d < 10, UInt8.ofNat (Nat.digitChar d).toNat = UInt8.ofNat (48 + d) := by decide
  rw [digits, Nat.toDigits_of_lt_base hn, List.map_singleton, hchar n hn]

/-- The last digit is written after those of the rest. -/
theorem digits_of_le {n : ℕ} (hn : 10 ≤ n) :
    digits n = digits (n / 10) ++ [UInt8.ofNat (48 + n % 10)] := by
  have hlast := digits_of_lt (Nat.mod_lt n (show 0 < 10 by decide))
  rw [digits, Nat.toDigits_of_lt_base (Nat.mod_lt n (by decide)), List.map_singleton] at hlast
  rw [digits, Nat.toDigits_of_base_le (by decide) hn, List.map_append, List.map_singleton, hlast]
  rfl

theorem digits_ne_nil (n : ℕ) : digits n ≠ [] := by
  rcases Nat.lt_or_ge n 10 with hn | hn
  · simp [digits_of_lt hn]
  · simp [digits_of_le hn]

theorem isDigit_of_mem_digits {n : ℕ} {c : UInt8} (hc : c ∈ digits n) : isDigit c := by
  have hdigit : ∀ d < 10, isDigit (UInt8.ofNat (48 + d)) := by decide
  induction n using Nat.strong_induction_on with
  | _ n ih =>
    rcases Nat.lt_or_ge n 10 with hn | hn
    · rw [digits_of_lt hn, List.mem_singleton] at hc
      exact hc ▸ hdigit n hn
    · rw [digits_of_le hn, List.mem_append, List.mem_singleton] at hc
      rcases hc with hc | rfl
      · exact ih (n / 10) (by omega) hc
      · exact hdigit _ (Nat.mod_lt n (by decide))

theorem notMem_digits {n : ℕ} {b : UInt8} (hb : ¬ isDigit b) : b ∉ digits n :=
  fun h => hb (isDigit_of_mem_digits h)

/-- A text that begins with a number begins with a digit. -/
theorem isDigit_of_mem_head? {n : ℕ} {rest : List UInt8} {b : UInt8}
    (hb : b ∈ (digits n ++ rest).head?) : isDigit b := by
  obtain ⟨c, run, hrun⟩ := List.exists_cons_of_ne_nil (digits_ne_nil n)
  rw [hrun] at hb
  obtain rfl : c = b := Option.some.inj hb
  exact isDigit_of_mem_digits (hrun ▸ List.mem_cons_self)

/-- A fold that reads a first digit, and one digit more, as `value` says reads the digits of a
number as its value. -/
theorem foldl_digits {β : Type*} {step : β → UInt8 → β} {zero : β} (value : ℕ → β)
    (hfirst : ∀ d < 10, step zero (UInt8.ofNat (48 + d)) = value d)
    (hnext : ∀ m, ∀ d < 10, step (value m) (UInt8.ofNat (48 + d)) = value (m * 10 + d)) (n : ℕ) :
    (digits n).foldl step zero = value n := by
  induction n using Nat.strong_induction_on with
  | _ n ih =>
    rcases Nat.lt_or_ge n 10 with hn | hn
    · rw [digits_of_lt hn, List.foldl_cons, List.foldl_nil, hfirst n hn]
    · rw [digits_of_le hn, List.foldl_append, ih (n / 10) (by omega), List.foldl_cons,
        List.foldl_nil, hnext _ _ (Nat.mod_lt n (by decide)), Nat.div_add_mod']

@[simp]
theorem ofDigits_digits (n : ℕ) : ofDigits (digits n) = n := by
  refine foldl_digits id (fun d hd => ?_) (fun m d hd => ?_) n
  · have hdigit : ∀ d < 10, 0 * 10 + ((UInt8.ofNat (48 + d)).toNat - 48) = d := by decide
    exact hdigit d hd
  · have hdigit : ∀ d < 10, (UInt8.ofNat (48 + d)).toNat - 48 = d := by decide
    rw [hdigit d hd]
    rfl

/-- Digits that form a number, the first of them zero only when there is no other. -/
structure IsNumeral (n : ℕ) (run : List UInt8) : Prop where
  digit : ∀ c ∈ run, isDigit c
  value : ofDigits run = n
  ne_nil : run ≠ []
  eq_of_zero : run.head? = some 48 → run = [48]

/-- A sign iff the number is negative, and the digits of its absolute value. -/
def IsDecimal (i : ℤ) (text : List UInt8) : Prop :=
  ∃ run, text = (if i < 0 then [45] else []) ++ run ∧ IsNumeral i.natAbs run

/-- The digits of a number begin with no zero, except for zero itself. -/
theorem digits_of_head? {n : ℕ} (h : (digits n).head? = some 48) : digits n = [48] := by
  induction n using Nat.strong_induction_on with
  | _ n ih =>
    rcases Nat.lt_or_ge n 10 with hn | hn
    · rw [digits_of_lt hn] at h ⊢
      rw [Option.some.inj h]
    · -- the first digit is that of the quotient, which is not zero
      rw [digits_of_le hn, List.head?_append_of_ne_nil _ (digits_ne_nil _)] at h
      have hvalue := congrArg ofDigits (ih (n / 10) (by omega) h)
      rw [ofDigits_digits] at hvalue
      have hzero : n / 10 = 0 := hvalue
      omega

theorem isNumeral_digits (n : ℕ) : IsNumeral n (digits n) where
  digit := fun _ hc => isDigit_of_mem_digits hc
  value := ofDigits_digits n
  ne_nil := digits_ne_nil n
  eq_of_zero := digits_of_head?

theorem ofDigits_concat (run : List UInt8) (c : UInt8) :
    ofDigits (run ++ [c]) = ofDigits run * 10 + (c.toNat - 48) := by
  rw [ofDigits, List.foldl_append]
  rfl

/-- More digits make no smaller number. -/
theorem ofDigits_le_append (digits run : List UInt8) :
    ofDigits digits ≤ ofDigits (digits ++ run) := by
  induction run generalizing digits with
  | nil => rw [List.append_nil]
  | cons c run ih =>
    rw [List.append_cons]
    refine le_trans ?_ (ih (digits ++ [c]))
    rw [ofDigits_concat]
    omega

/-- Only the digits of a number form it without a zero in front. -/
theorem IsNumeral.eq_digits {n : ℕ} {run : List UInt8} (h : IsNumeral n run) :
    run = digits n := by
  induction run using List.reverseRecOn generalizing n with
  | nil => exact absurd rfl h.ne_nil
  | append_singleton run c ih =>
    have hdigit : ∀ c, isDigit c → c.toNat - 48 < 10 ∧ UInt8.ofNat (48 + (c.toNat - 48)) = c :=
      forall_byte (by decide +kernel)
    obtain ⟨hlt, hc⟩ := hdigit c (h.digit c (by simp))
    have hvalue := h.value
    rw [ofDigits_concat] at hvalue
    rcases eq_or_ne run [] with rfl | hne
    · have hn : c.toNat - 48 = n := by simpa [ofDigits] using hvalue
      rw [hn] at hlt hc
      rw [digits_of_lt hlt, hc]
      rfl
    · -- a zero in front would be in front of the last digit as well
      have hhead : run.head? ≠ some 48 := by
        intro hzero
        have hone := h.eq_of_zero (by rw [List.head?_append_of_ne_nil _ hne, hzero])
        have hlen := congrArg List.length hone
        simp [hne] at hlen
      have hinit : run = digits (ofDigits run) := ih
        { digit := fun d hd => h.digit d (List.mem_append_left _ hd)
          value := rfl
          ne_nil := hne
          eq_of_zero := fun hzero => absurd hzero hhead }
      have hpos : ofDigits run ≠ 0 := by
        intro hzero
        rw [hzero] at hinit
        exact hhead (hinit ▸ rfl)
      have hdiv : n / 10 = ofDigits run := by omega
      have hmod : n % 10 = c.toNat - 48 := by omega
      rw [digits_of_le (by omega), hdiv, hmod, hc, ← hinit]

/-- The decimal form of a number is what is written for it. -/
theorem isDecimal_iff {i : ℤ} {text : List UInt8} : IsDecimal i text ↔ text = decimal i := by
  have hdecimal : (if i < 0 then [45] else []) ++ digits i.natAbs = decimal i := by
    rw [decimal]
    split <;> rfl
  constructor
  · rintro ⟨run, rfl, hrun⟩
    rw [hrun.eq_digits, hdecimal]
  · rintro rfl
    exact ⟨_, hdecimal.symm, isNumeral_digits _⟩

/-- Zeros in front of a number leave its value. -/
@[simp]
theorem ofDigits_zeros_append (zeros : ℕ) (run : List UInt8) :
    ofDigits (List.replicate zeros 48 ++ run) = ofDigits run := by
  induction zeros with
  | zero => rfl
  | succ zeros ih => exact ih

/-! ## What is written is read back -/

variable {blanks run rest word text : List UInt8} {n : ℕ}

/-- No digit is white space or a sign. -/
theorem of_isDigit {c : UInt8} : isDigit c → ¬ isSpace c ∧ c ≠ 45 ∧ c ≠ 43 :=
  forall_byte (P := fun c => isDigit c → ¬ isSpace c ∧ c ≠ 45 ∧ c ≠ 43) (by decide +kernel) c

/-- A number that begins with no sign. -/
theorem number_of_unsigned {c : UInt8} {start : List UInt8}
    (hskip : text.dropWhile isSpace = c :: start) (hminus : c ≠ 45) (hplus : c ≠ 43) :
    number text = if (c :: start).takeWhile isDigit = [] then none
      else some (false, ofDigits ((c :: start).takeWhile isDigit),
        (c :: start).dropWhile isDigit) := by
  -- of the branches for the sign the last is taken
  have hsign : (match c :: start with
      | 45 :: text => (true, text)
      | 43 :: text => (false, text)
      | text => (false, text)) = (false, c :: start) := by
    split
    · next heq => exact absurd (List.cons.inj heq).1 hminus
    · next heq => exact absurd (List.cons.inj heq).1 hplus
    · rfl
  rw [number, hskip]
  dsimp only
  rw [hsign]

/-- White space before a run of digits, and no digit behind it. -/
theorem number_run (hblanks : ∀ c ∈ blanks, isSpace c) (hne : run ≠ [])
    (hrun : ∀ c ∈ run, isDigit c) (hrest : ∀ c ∈ rest.head?, ¬ isDigit c) :
    number (blanks ++ run ++ rest) = some (false, ofDigits run, rest) := by
  obtain ⟨d, start, rfl⟩ := List.exists_cons_of_ne_nil hne
  obtain ⟨hspace, hminus, hplus⟩ := of_isDigit (hrun d List.mem_cons_self)
  have hskip : (blanks ++ d :: start ++ rest).dropWhile isSpace = d :: (start ++ rest) := by
    rw [List.append_assoc, List.dropWhile_append_of_pos hblanks, List.cons_append,
      List.dropWhile_cons_of_neg hspace]
  -- the run ends where the rest begins
  have htail : rest.takeWhile isDigit = [] ∧ rest.dropWhile isDigit = rest := by
    cases rest with
    | nil => exact ⟨rfl, rfl⟩
    | cons c rest =>
      have hc := hrest c rfl
      exact ⟨List.takeWhile_cons_of_neg hc, List.dropWhile_cons_of_neg hc⟩
  have hdigits : (d :: (start ++ rest)).takeWhile isDigit = d :: start ∧
      (d :: (start ++ rest)).dropWhile isDigit = rest := by
    rw [← List.cons_append, List.takeWhile_append_of_pos hrun,
      List.dropWhile_append_of_pos hrun, htail.1, htail.2]
    exact ⟨List.append_nil _, rfl⟩
  rw [number_of_unsigned hskip hminus hplus, hdigits.1, hdigits.2, if_neg hne]

/-- White space before a number, and no digit behind it. -/
theorem number_digits (hblanks : ∀ c ∈ blanks, isSpace c) (hrest : ∀ c ∈ rest.head?, ¬ isDigit c) :
    number (blanks ++ digits n ++ rest) = some (false, n, rest) := by
  rw [number_run hblanks (digits_ne_nil n) (fun c hc => isDigit_of_mem_digits hc) hrest,
    ofDigits_digits]

/-- A number without white space before it. -/
theorem number_digits_append (n : ℕ) {rest : List UInt8} (hrest : ∀ c ∈ rest.head?, ¬ isDigit c) :
    number (digits n ++ rest) = some (false, n, rest) := by
  have hblanks : ∀ c ∈ ([] : List UInt8), isSpace c := fun c hc => absurd hc List.not_mem_nil
  exact number_digits hblanks hrest

/-- Numbers that no digit follows are told apart, and so is what follows them. -/
theorem digits_append_inj {a b : ℕ} {rest rest' : List UInt8}
    (hrest : ∀ c ∈ rest.head?, ¬ isDigit c) (hrest' : ∀ c ∈ rest'.head?, ¬ isDigit c)
    (heq : digits a ++ rest = digits b ++ rest') : a = b ∧ rest = rest' := by
  have hread := number_digits_append a hrest
  rw [heq, number_digits_append b hrest'] at hread
  simp only [Option.some.injEq, Prod.mk.injEq, true_and] at hread
  exact ⟨hread.1.symm, hread.2.symm⟩

/-- `%ld` reads a number in the range of a `long`. -/
theorem scanLd_digits (hrest : ∀ c ∈ rest.head?, ¬ isDigit c) (hn : n < 2 ^ 63) :
    scanLd (digits n ++ rest) = some ((n : ℤ), rest) := by
  have hlong : toLong false n = n := by
    simp only [toLong, Bool.false_eq_true, if_false]
    omega
  rw [scanLd, number_digits_append n hrest, Option.map_some]
  simp only [hlong]

theorem decimal_natCast (n : ℕ) : decimal n = digits n := by
  rw [decimal, if_neg (by omega), Int.natAbs_natCast]

/-- White space that is not missing ends a number. -/
theorem not_isDigit_of_gap {gap : List UInt8} (hne : gap ≠ []) (hgap : ∀ c ∈ gap, isSpace c) :
    ∀ c ∈ (gap ++ rest).head?, ¬ isDigit c := by
  obtain ⟨b, gap, rfl⟩ := List.exists_cons_of_ne_nil hne
  intro c hc hdigit
  obtain rfl : b = c := Option.some.inj hc
  exact (of_isDigit hdigit).1 (hgap b List.mem_cons_self)

/-- `%d` reads a number in the range of an `int`. -/
theorem scanD_digits (hblanks : ∀ c ∈ blanks, isSpace c) (hrest : ∀ c ∈ rest.head?, ¬ isDigit c)
    (hn : n < 2 ^ 31) : scanD (blanks ++ digits n ++ rest) = some (UInt32.ofNat n, rest) := by
  have hlong : toLong false n % 2 ^ 32 = n := by
    simp only [toLong, Bool.false_eq_true, if_false]
    omega
  rw [scanD, number_digits hblanks hrest, Option.map_some]
  simp only [hlong, Int.toNat_natCast]

/-- `%lu` reads a run of digits in the range of a word. -/
theorem scanLu_run (hblanks : ∀ c ∈ blanks, isSpace c) (hne : run ≠ [])
    (hrun : ∀ c ∈ run, isDigit c) (hrest : ∀ c ∈ rest.head?, ¬ isDigit c)
    (hlt : ofDigits run < 2 ^ 64) :
    scanLu (blanks ++ run ++ rest) = some (UInt64.ofNat (ofDigits run), rest) := by
  rw [scanLu, number_run hblanks hne hrun hrest, Option.map_some]
  dsimp only
  rw [toULong, if_neg (Nat.not_le.mpr hlt)]
  rfl

/-- `%lu` reads a number in the range of a word. -/
theorem scanLu_digits (hblanks : ∀ c ∈ blanks, isSpace c) (hrest : ∀ c ∈ rest.head?, ¬ isDigit c)
    (hn : n < 2 ^ 64) : scanLu (blanks ++ digits n ++ rest) = some (UInt64.ofNat n, rest) := by
  rw [← ofDigits_digits n] at hn
  rw [scanLu_run hblanks (digits_ne_nil n) (fun c hc => isDigit_of_mem_digits hc) hrest hn,
    ofDigits_digits]

/-- `%Ns` reads a word that fits, up to the white space behind it. -/
theorem scanWord_append {width : ℕ} (hblanks : ∀ c ∈ blanks, isSpace c) (hne : word ≠ [])
    (hword : ∀ c ∈ word, ¬ isSpace c) (hlen : word.length ≤ width)
    (hrest : ∀ c ∈ rest.head?, isSpace c) :
    scanWord width (blanks ++ word ++ rest) = some (word, rest) := by
  have hskip : (blanks ++ word ++ rest).dropWhile isSpace = word ++ rest := by
    obtain ⟨c, tail, rfl⟩ := List.exists_cons_of_ne_nil hne
    rw [List.append_assoc, List.dropWhile_append_of_pos hblanks, List.cons_append,
      List.dropWhile_cons_of_neg (hword c List.mem_cons_self)]
  have htail : (rest.take (width - word.length)).takeWhile (fun c => !isSpace c) = [] := by
    cases rest with
    | nil => simp
    | cons c rest =>
      have hc := hrest c rfl
      cases width - word.length with
      | zero => rfl
      | succ k => simp [hc]
  have hspan : ((word ++ rest).take width).takeWhile (fun c => !isSpace c) = word := by
    rw [List.take_append, List.take_of_length_le hlen,
      List.takeWhile_append_of_pos (by simpa using hword), htail, List.append_nil]
  rw [scanWord, hskip, hspan, if_neg hne, List.drop_left]

/-- Without a digit or a sign after the white space there is no number. -/
theorem number_eq_none
    (h : ∀ c ∈ (text.dropWhile isSpace).head?, ¬ isDigit c ∧ c ≠ 45 ∧ c ≠ 43) :
    number text = none := by
  cases hskip : text.dropWhile isSpace with
  | nil =>
    rw [number, hskip]
    rfl
  | cons c start =>
    rw [hskip] at h
    obtain ⟨hdigit, hminus, hplus⟩ := h c rfl
    rw [number_of_unsigned hskip hminus hplus, List.takeWhile_cons_of_neg hdigit, if_pos rfl]

/-- A number in the range of a `long` is written in at most 20 bytes. -/
theorem length_decimal_le {i : ℤ} (h : i.natAbs ≤ 2 ^ 63) : (decimal i).length ≤ 20 := by
  have hdigits := length_digits_le (n := i.natAbs) (k := 19) (by decide) (by omega)
  unfold decimal
  split
  · rw [List.length_cons]
    omega
  · omega

/-- What `%ld` stores is in the range of a `long`. -/
theorem natAbs_scanLd_le {text rest : List UInt8} {v : ℤ} (h : scanLd text = some (v, rest)) :
    v.natAbs ≤ 2 ^ 63 := by
  obtain ⟨⟨neg, magnitude, rest'⟩, -, hv⟩ := Option.map_eq_some_iff.mp h
  obtain ⟨rfl, -⟩ := Prod.mk.inj hv
  unfold toLong
  split <;> omega

end Scanf
