import AgentResources.Foundations.Memory

/-!
# Values in memory

A `Layout` says how the values of a type lie in memory: how many bytes one takes, and how it is
encoded and decoded. Layouts of words and arrays are given here, a struct is laid out as the product
of its fields, and reading and writing typed values then has the frame rules of bytes: what was
written is read back (`loadAs_storeAs`), a read looks only at the value's own bytes
(`loadAs_eq_of_eqOn`) and a write touches only them (`storeAs_eqOn`). `array` is the values one after
another.
-/

/-- How the values of a type lie in memory. Decoding reads the first bytes only. -/
class Layout (α : Type) where
  size : ℕ
  encode : α → List UInt8
  decode : List UInt8 → α
  length_encode (v : α) : (encode v).length = size
  decode_append (v : α) (rest : List UInt8) : decode (encode v ++ rest) = v

namespace Layout

variable {α β : Type}

/-- A 64-bit word, little-endian. -/
instance : Layout UInt64 where
  size := 8
  encode v := LittleEndian.encode 8 v.toNat
  decode bytes := UInt64.ofNat (LittleEndian.value (bytes.take 8))
  length_encode v := LittleEndian.length_encode 8 v.toNat
  decode_append v rest := by
    rw [List.take_left' (LittleEndian.length_encode 8 v.toNat), LittleEndian.value_encode,
      Nat.mod_eq_of_lt (by simpa using v.toNat_lt), UInt64.ofNat_toNat]

/-- A 32-bit word, little-endian. -/
instance : Layout UInt32 where
  size := 4
  encode v := LittleEndian.encode 4 v.toNat
  decode bytes := UInt32.ofNat (LittleEndian.value (bytes.take 4))
  length_encode v := LittleEndian.length_encode 4 v.toNat
  decode_append v rest := by
    rw [List.take_left' (LittleEndian.length_encode 4 v.toNat), LittleEndian.value_encode,
      Nat.mod_eq_of_lt (by simpa using v.toNat_lt), UInt32.ofNat_toNat]

/-- A signed byte. -/
instance : Layout Int8 where
  size := 1
  encode v := [v.toUInt8]
  decode bytes := (bytes.getD 0 0).toInt8
  length_encode _ := rfl
  decode_append _ _ := rfl

/-- A signed 32-bit word, as the unsigned word of the same bits. -/
instance : Layout Int32 where
  size := 4
  encode v := encode v.toUInt32
  decode bytes := (decode bytes : UInt32).toInt32
  length_encode v := length_encode v.toUInt32
  decode_append v rest := by rw [decode_append, UInt32.toInt32, Int32.toUInt32]

/-- An array of bytes. -/
instance (n : ℕ) : Layout (Vector UInt8 n) where
  size := n
  encode v := v.toList
  decode bytes := Vector.ofFn fun i => bytes.getD i 0
  length_encode v := v.length_toList
  decode_append v rest := by
    ext i hi
    rw [Vector.getElem_ofFn, List.getD_append _ _ _ _ (by simpa using hi)]
    simp [hi]

/-- One field after another. -/
instance [Layout α] [Layout β] : Layout (α × β) where
  size := size α + size β
  encode v := encode v.1 ++ encode v.2
  decode bytes := (decode bytes, decode (bytes.drop (size α)))
  length_encode v := by rw [List.length_append, length_encode, length_encode]
  decode_append v rest := by
    rw [List.append_assoc, decode_append, List.drop_left' (length_encode v.1), decode_append]

/-- A struct is laid out as the product of its fields. -/
abbrev ofFields [Layout β] (fields : α → β) (ofFields : β → α)
    (h : ∀ v, ofFields (fields v) = v) : Layout α where
  size := size β
  encode v := encode (fields v)
  decode bytes := ofFields (decode bytes)
  length_encode v := length_encode (fields v)
  decode_append v rest := by rw [decode_append, h]

/-- Every byte of a value is part of it, so that decoding loses none. -/
def Exact (α : Type) [Layout α] : Prop :=
  ∀ bytes : List UInt8, bytes.length = size α → encode (decode bytes : α) = bytes

theorem exact_uint64 : Exact UInt64 := by
  intro bytes hlen
  have hsize : bytes.length = 8 := hlen
  have hlt := LittleEndian.value_lt bytes
  rw [hsize] at hlt
  show LittleEndian.encode 8 (UInt64.ofNat (LittleEndian.value (bytes.take 8))).toNat = bytes
  rw [List.take_of_length_le hsize.le, UInt64.toNat_ofNat', Nat.mod_eq_of_lt (by omega), ← hsize]
  exact LittleEndian.encode_value bytes

/-- An exact layout decodes what comes first. -/
theorem Exact.decode_take [Layout α] (h : Exact α) {bytes : List UInt8}
    (hlen : size α ≤ bytes.length) :
    (decode bytes : α) = decode (bytes.take (size α)) := by
  have htake := h (bytes.take (size α)) (by rw [List.length_take, min_eq_left hlen])
  conv_lhs => rw [← List.take_append_drop (size α) bytes, ← htake, decode_append]

theorem Exact.prod [Layout α] [Layout β] (hα : Exact α) (hβ : Exact β) : Exact (α × β) := by
  intro bytes hlen
  have hsize : bytes.length = size α + size β := hlen
  show encode (decode bytes : α) ++ encode (decode (bytes.drop (size α)) : β) = bytes
  rw [hα.decode_take (by omega), hα _ (by rw [List.length_take]; omega),
    hβ _ (by rw [List.length_drop]; omega), List.take_append_drop]

theorem Exact.ofFields [Layout β] (hβ : Exact β) {fields : α → β} {ofFields : β → α}
    (h : ∀ v, ofFields (fields v) = v) (h' : ∀ v, fields (ofFields v) = v) :
    @Exact α (Layout.ofFields fields ofFields h) := by
  intro bytes hlen
  show encode (fields (ofFields (decode bytes))) = bytes
  rw [h']
  exact hβ bytes hlen

end Layout

namespace Memory

variable {α : Type} [Layout α] {m m' : Memory}

/-- Read a value. -/
def loadAs (α : Type) [Layout α] (m : Memory) (p : ℕ) : α :=
  Layout.decode (m.load p (Layout.size α))

/-- Write a value. -/
def storeAs (m : Memory) (p : ℕ) (v : α) : Memory := m.store p (Layout.encode v)

/-- A written value is read back. -/
@[simp]
theorem loadAs_storeAs (m : Memory) (p : ℕ) (v : α) : (m.storeAs p v).loadAs α p = v := by
  rw [loadAs, storeAs, ← Layout.length_encode v, load_store]
  simpa using Layout.decode_append v []

/-- Reading a value looks only at its own bytes. -/
theorem loadAs_eq_of_eqOn {p : ℕ} (h : Set.EqOn m.byte m'.byte (range p (Layout.size α))) :
    m.loadAs α p = m'.loadAs α p := by
  rw [loadAs, loadAs, load_eq_of_eqOn h]

/-- Only the value written last is there. -/
theorem storeAs_storeAs (m : Memory) (p : ℕ) (v w : α) :
    (m.storeAs p v).storeAs p w = m.storeAs p w :=
  m.store_store p (by rw [Layout.length_encode, Layout.length_encode])

/-- Writing a value touches only its own bytes. -/
theorem storeAs_eqOn (m : Memory) (p : ℕ) (v : α) :
    Set.EqOn (m.storeAs p v).byte m.byte (range p (Layout.size α))ᶜ := by
  simpa only [storeAs, Layout.length_encode] using store_eqOn m p (Layout.encode v)

/-- Writing back what was read changes nothing. -/
theorem storeAs_loadAs (h : Layout.Exact α) (m : Memory) (p : ℕ) :
    m.storeAs p (m.loadAs α p) = m := by
  have hbytes := h (m.load p (Layout.size α)) (length_load _ _ _)
  ext x
  rw [storeAs, loadAs, hbytes]
  by_cases hx : x ∈ range p (Layout.size α)
  · rw [Set.mem_Ico] at hx
    obtain ⟨i, rfl⟩ := Nat.exists_eq_add_of_le hx.1
    rw [byte_store_add (by rw [length_load]; omega), getElem_load]
  · rw [byte_store_of_notMem (by rwa [length_load])]

/-- Reading a value where every byte is zero. -/
theorem loadAs_of_zero {p : ℕ} (h : ∀ x ∈ range p (Layout.size α), m.byte x = 0) :
    m.loadAs α p = Layout.decode (List.replicate (Layout.size α) 0) := by
  rw [loadAs]
  congr 1
  refine List.ext_getElem (by simp) fun i hi _ => ?_
  rw [getElem_load, List.getElem_replicate]
  exact h _ (by rw [length_load] at hi; rw [Set.mem_Ico]; omega)

/-! ## Arrays -/

/-- The `n` values from `p` on. -/
def array (α : Type) [Layout α] (m : Memory) (p n : ℕ) : List α :=
  (List.range n).map fun i => m.loadAs α (p + Layout.size α * i)

variable {p q n : ℕ}

@[simp]
theorem length_array (m : Memory) (p n : ℕ) : (m.array α p n).length = n := by
  simp [array]

@[simp]
theorem array_zero (m : Memory) (p : ℕ) : m.array α p 0 = [] := rfl

theorem array_succ (m : Memory) (p n : ℕ) :
    m.array α p (n + 1) = m.array α p n ++ [m.loadAs α (p + Layout.size α * n)] := by
  simp [array, List.range_succ]

/-- The bytes of an array's value are bytes of the array. -/
theorem mul_add_size_le {i : ℕ} (h : i < n) :
    Layout.size α * i + Layout.size α ≤ Layout.size α * n := by
  rw [← Nat.mul_succ]
  exact Nat.mul_le_mul_left _ h

/-- Reading an array looks only at its own bytes. -/
theorem array_eq_of_eqOn (h : Set.EqOn m.byte m'.byte (range p (Layout.size α * n))) :
    m.array α p n = m'.array α p n := by
  refine List.map_congr_left fun i hi => loadAs_eq_of_eqOn (h.mono ?_)
  rw [List.mem_range] at hi
  have hle := mul_add_size_le (α := α) hi
  exact Set.Ico_subset_Ico (Nat.le_add_right _ _) (by omega)

/-- A value written behind an array makes it one longer. -/
theorem array_storeAs (m : Memory) (p n : ℕ) (v : α) :
    (m.storeAs (p + Layout.size α * n) v).array α p (n + 1) = m.array α p n ++ [v] := by
  have hold : (m.storeAs (p + Layout.size α * n) v).array α p n = m.array α p n :=
    array_eq_of_eqOn ((m.storeAs_eqOn _ v).mono (range_subset_compl (.inl le_rfl)))
  rw [array_succ, hold, loadAs_storeAs]

/-- A copied array reads as it does where it was copied from. -/
theorem array_store_load (m : Memory) (p q n : ℕ) :
    (m.store q (m.load p (Layout.size α * n))).array α q n = m.array α p n := by
  refine List.map_congr_left fun i hi => ?_
  rw [List.mem_range] at hi
  rw [loadAs, loadAs, load_store_load (mul_add_size_le hi)]

end Memory
