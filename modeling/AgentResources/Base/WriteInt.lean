import AgentResources.Base.TextScan

/-!
# Printing a number

`base_test.c`. `write_int` prints a number to the standard error stream: a sign, then by recursion
the digits of the quotient by ten, then the last digit. The negation of the least `i32` is outside
the type, and it is the only number whose decimal form is not written.

## Main definitions

* `writeInt`: the function, with the bytes it hands to `write` one after the other.

## Main results

* `writeInt_eq`: what is written is the decimal form of the number;
* `writeInt_decimal_iff`: for which numbers it is, and that `parse_u64` then reads it back.
-/

namespace AgentResources

/-- The first branch: a sign for a negative number, which is then negated. -/
def writeSign (num : Int32) (out : List UInt8) : Except Halt (Int32 × List UInt8) :=
  if num < 0 then
    let out := out ++ [45]
    -- `-num` is not an `i32` for the least one
    if num = Int32.minValue then .error (.undefined .signedOverflow) else .ok (-num, out)
  else .ok (num, out)

section Sign

variable {num num' : Int32} {out out' : List UInt8}

theorem toInt_neg_of_ne (hne : num ≠ Int32.minValue) : (-num).toInt = -num.toInt := by
  have hlo := num.le_toInt
  have hhi := num.toInt_lt
  have hmin : num.toInt ≠ -2 ^ 31 := fun h => hne (Int32.toInt_inj.mp h)
  rw [Int32.toInt_neg, Int.bmod_eq_of_le] <;> omega

theorem writeSign_of_nonneg (h : 0 ≤ num.toInt) (out : List UInt8) :
    writeSign num out = .ok (num, out) := by
  have hnot : ¬ num < 0 := by
    rw [Int32.lt_iff_toInt_lt, Int32.toInt_zero]
    omega
  rw [writeSign, if_neg hnot]

theorem writeSign_of_neg (h : num.toInt < 0) (hne : num ≠ Int32.minValue) (out : List UInt8) :
    writeSign num out = .ok (-num, out ++ [45]) := by
  have hneg : num < 0 := by
    rw [Int32.lt_iff_toInt_lt, Int32.toInt_zero]
    exact h
  rw [writeSign, if_pos hneg]
  exact if_neg hne

theorem writeSign_minValue (out : List UInt8) :
    writeSign Int32.minValue out = .error (.undefined .signedOverflow) := rfl

/-- The digits are those of the absolute value. -/
theorem natAbs_writeSign (h : writeSign num out = .ok (num', out')) :
    0 ≤ num'.toInt ∧ num'.toInt.natAbs = num.toInt.natAbs := by
  rcases le_or_gt 0 num.toInt with hpos | hneg
  · rw [writeSign_of_nonneg hpos] at h
    obtain ⟨rfl, rfl⟩ := Prod.mk.inj (Except.ok.inj h)
    exact ⟨hpos, rfl⟩
  · rcases eq_or_ne num Int32.minValue with rfl | hne
    · rw [writeSign_minValue] at h
      cases h
    · rw [writeSign_of_neg hneg hne] at h
      obtain ⟨rfl, rfl⟩ := Prod.mk.inj (Except.ok.inj h)
      rw [toInt_neg_of_ne hne]
      omega

theorem toInt_div_ten (num : Int32) : (num / 10).toInt = num.toInt.tdiv 10 :=
  Int32.toInt_div_of_ne_right num 10 (by decide)

end Sign

/-- Print a number after `out`. What `write` returns is not looked at, so the bytes handed to it are
the same whatever becomes of them. -/
def writeInt (num : Int32) (out : List UInt8) : Except Halt (List UInt8) :=
  match _hsign : writeSign num out with
  | .error e => .error e
  | .ok (num, out) => do
    let out ← if 10 ≤ num then writeInt (num / 10) out else .ok out
    return out ++ [(48 + num % 10).toInt8.toUInt8]
termination_by num.toInt.natAbs
decreasing_by
  -- the quotient of a number from ten on is smaller, and the sign does not count
  rename_i hten
  obtain ⟨hpos, habs⟩ := natAbs_writeSign _hsign
  have hten' : 10 ≤ num.toInt := Int32.le_iff_toInt_le.mp hten
  rw [toInt_div_ten, Int.tdiv_eq_ediv_of_nonneg hpos]
  omega

section Digits

variable {num : Int32} {n : ℕ}

/-- The sign comes first. -/
theorem writeInt_of_neg (h : num.toInt < 0) (hne : num ≠ Int32.minValue) (out : List UInt8) :
    writeInt num out = writeInt (-num) (out ++ [45]) := by
  have hpos : 0 ≤ (-num).toInt := by
    rw [toInt_neg_of_ne hne]
    omega
  rw [writeInt, writeInt, writeSign_of_neg h hne, writeSign_of_nonneg hpos]

theorem writeInt_minValue (out : List UInt8) :
    writeInt Int32.minValue out = .error (.undefined .signedOverflow) := by
  rw [writeInt, writeSign_minValue]

/-- The last digit as a byte. -/
theorem lastDigit_ofNat (hn : n < 2 ^ 31) :
    (48 + Int32.ofNat n % 10).toInt8.toUInt8 = UInt8.ofNat (48 + n % 10) := by
  have hdigit : ∀ d < 10, (48 + Int32.ofNat d).toInt8.toUInt8 = UInt8.ofNat (48 + d) := by decide
  have hmod : Int32.ofNat n % 10 = Int32.ofNat (n % 10) := by
    rw [← Int32.toInt_inj, Int32.toInt_mod, Int32.toInt_ofNat_of_lt hn,
      Int32.toInt_ofNat_of_lt (by omega)]
    rfl
  rw [hmod, hdigit _ (Nat.mod_lt n (by decide))]

/-- One call: the digits of the quotient, if there is one, and the last digit. -/
theorem writeInt_step (hn : n < 2 ^ 31) (out : List UInt8) :
    writeInt (Int32.ofNat n) out = do
      let out ← if 10 ≤ n then writeInt (Int32.ofNat (n / 10)) out else .ok out
      return out ++ [UInt8.ofNat (48 + n % 10)] := by
  have hvalue := Int32.toInt_ofNat_of_lt hn
  have hten : 10 ≤ Int32.ofNat n ↔ 10 ≤ n := by
    rw [Int32.le_iff_toInt_le, hvalue]
    exact Nat.cast_le
  have hdiv : Int32.ofNat n / 10 = Int32.ofNat (n / 10) := by
    rw [← Int32.toInt_inj, toInt_div_ten, hvalue, Int32.toInt_ofNat_of_lt (by omega)]
    rfl
  rw [writeInt, writeSign_of_nonneg (by rw [hvalue]; exact Int.natCast_nonneg n)]
  simp only [hten, hdiv, lastDigit_ofNat hn]

/-- The digits of a number, by induction on it: those of the quotient are written first. -/
theorem writeInt_ofNat (hn : n < 2 ^ 31) (out : List UInt8) :
    writeInt (Int32.ofNat n) out = .ok (out ++ Scanf.digits n) := by
  induction n using Nat.strong_induction_on generalizing out with
  | _ n ih =>
    rw [writeInt_step hn]
    by_cases hten : 10 ≤ n
    · rw [if_pos hten, ih (n / 10) (by omega) (by omega), Except.ok_bind, Scanf.digits_of_le hten,
        ← List.append_assoc]
      rfl
    · have hlt := Nat.lt_of_not_le hten
      rw [if_neg hten, Except.ok_bind, Scanf.digits_of_lt hlt, Nat.mod_eq_of_lt hlt]
      rfl

/-- What is written is the decimal form of the number. -/
theorem writeInt_eq (hne : num ≠ Int32.minValue) (out : List UInt8) :
    writeInt num out = .ok (out ++ Scanf.decimal num.toInt) := by
  have hofNat : ∀ num : Int32, 0 ≤ num.toInt → ∀ out : List UInt8,
      writeInt num out = .ok (out ++ Scanf.digits num.toInt.natAbs) := by
    intro num hpos out
    have hlt := num.toInt_lt
    have hnum : Int32.ofNat num.toInt.natAbs = num := by
      rw [← Int32.toInt_inj, Int32.toInt_ofNat_of_lt (by omega)]
      omega
    rw [← writeInt_ofNat (by omega), hnum]
  rw [Scanf.decimal]
  rcases le_or_gt 0 num.toInt with hpos | hneg
  · rw [if_neg (not_lt.mpr hpos), hofNat num hpos]
  · -- after the sign, the number that is left has the same digits
    have hvalue := toInt_neg_of_ne hne
    rw [if_pos hneg, writeInt_of_neg hneg hne, hofNat _ (by omega), hvalue, Int.natAbs_neg,
      List.append_assoc, List.singleton_append]

example : writeInt (-1205) [] = .ok (ascii "-1205") := by decide +kernel

/-- What is written after `out` is the decimal form of the number, and unless it is negative
`parse_u64` of it returns the number. -/
def WritesDecimal (num : Int32) (out : List UInt8) : Prop :=
  ∃ text, writeInt num out = .ok (out ++ text) ∧ Scanf.IsDecimal num.toInt text ∧
    (0 ≤ num.toInt → ∀ rest, ∃ v, parseU64Loop (text ++ rest) text.length = .ok v ∧
      (v.toNat : ℤ) = num.toInt)

/-- `write_int` writes the decimal form of every number but the least, and `parse_u64` reads it
back. -/
theorem writeInt_decimal_iff (num : Int32) (out : List UInt8) :
    WritesDecimal num out ↔ num ≠ Int32.minValue := by
  constructor
  · rintro ⟨text, hrun, -⟩ rfl
    rw [writeInt_minValue] at hrun
    cases hrun
  · intro hne
    obtain ⟨run, htext, hrun⟩ := Scanf.isDecimal_iff.mpr (Eq.refl (Scanf.decimal num.toInt))
    refine ⟨_, writeInt_eq hne out, ⟨run, htext, hrun⟩, fun hpos rest => ?_⟩
    -- without a sign the text is the run of digits
    rw [htext, if_neg (not_lt.mpr hpos), List.nil_append]
    have hlt : num.toInt.natAbs < 2 ^ 64 := by
      have := num.toInt_lt
      omega
    refine ⟨_, parseU64Loop_run hrun.digit rest, ?_⟩
    rw [hrun.value, UInt64.toNat_ofNat_of_lt' hlt]
    exact Int.natAbs_of_nonneg hpos

/-- The least number cannot be negated. -/
theorem not_writeInt_decimal : ¬ ∀ (num : Int32) (out : List UInt8), WritesDecimal num out := by
  intro hall
  obtain ⟨text, hrun, -⟩ := hall Int32.minValue []
  rw [writeInt_minValue] at hrun
  cases hrun

end Digits

end AgentResources
