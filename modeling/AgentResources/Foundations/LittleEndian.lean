import Mathlib

/-!
# Little-endian words

A machine word of `n` bytes is stored least significant byte first. `encode n v` is the byte
string of `v` at width `n`, and `value bs` is the number a byte string stands for. The two are
inverse up to the width (`value_encode`, `encode_value`), and the value of a concatenation splits
at the boundary (`value_append`), which is what reading a partly overwritten word needs.
-/

namespace LittleEndian

/-- The `n` least significant bytes of `v`, least significant first. -/
def encode : ℕ → ℕ → List UInt8
  | 0, _ => []
  | n + 1, v => UInt8.ofNat v :: encode n (v / 256)

/-- The number whose little-endian byte string is `bs`. -/
def value : List UInt8 → ℕ
  | [] => 0
  | b :: bs => b.toNat + 256 * value bs

@[simp]
theorem length_encode (n v : ℕ) : (encode n v).length = n := by
  induction n generalizing v with
  | zero => rfl
  | succ n ih => simp [encode, ih]

/-- A string of `n` bytes stands for a number below `256 ^ n`. -/
theorem value_lt (bs : List UInt8) : value bs < 256 ^ bs.length := by
  induction bs with
  | nil => simp [value]
  | cons b bs ih =>
    have hb : b.toNat < 256 := b.toNat_lt
    rw [value, List.length_cons, pow_succ]
    omega

/-- Encoding at width `n` keeps a number modulo `256 ^ n`. -/
theorem value_encode (n v : ℕ) : value (encode n v) = v % 256 ^ n := by
  induction n generalizing v with
  | zero => simp [encode, value, Nat.mod_one]
  | succ n ih =>
    rw [encode, value, ih, pow_succ', Nat.mod_mul]
    simp

/-- A byte string is the encoding of its value at its own length. -/
theorem encode_value (bs : List UInt8) : encode bs.length (value bs) = bs := by
  induction bs with
  | nil => rfl
  | cons b bs ih =>
    have hb : b.toNat < 256 := b.toNat_lt
    have hdiv : (b.toNat + 256 * value bs) / 256 = value bs := by omega
    have hlow : UInt8.ofNat (b.toNat + 256 * value bs) = b := by
      apply UInt8.toNat_inj.mp
      rw [UInt8.toNat_ofNat']
      omega
    rw [List.length_cons, value, encode, hdiv, hlow, ih]

/-- The value of a concatenation: the second part counts from the end of the first. -/
theorem value_append (as bs : List UInt8) :
    value (as ++ bs) = value as + 256 ^ as.length * value bs := by
  induction as with
  | nil => simp [value]
  | cons a as ih =>
    rw [List.cons_append, value, value, ih, List.length_cons, pow_succ]
    ring

/-- A string of zero bytes stands for zero. -/
@[simp]
theorem value_replicate_zero (n : ℕ) : value (List.replicate n 0) = 0 := by
  induction n with
  | zero => rfl
  | succ n ih => simp [List.replicate_succ, value, ih]

/-- Dropping the `k` lowest bytes divides by `256 ^ k`. -/
theorem value_drop (bs : List UInt8) {k : ℕ} (hk : k ≤ bs.length) :
    value (bs.drop k) = value bs / 256 ^ k := by
  have hsplit : value bs = value (bs.take k) + 256 ^ k * value (bs.drop k) := by
    conv_lhs => rw [← List.take_append_drop k bs]
    rw [value_append, List.length_take_of_le hk]
  have hlow : value (bs.take k) < 256 ^ k := by
    simpa [List.length_take_of_le hk] using value_lt (bs.take k)
  rw [hsplit, Nat.add_mul_div_left _ _ (by positivity), Nat.div_eq_of_lt hlow, Nat.zero_add]

end LittleEndian
