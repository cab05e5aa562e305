import AgentResources.Foundations.LittleEndian

/-!
# Byte-addressed memory

A flat memory is a byte for every address. Stores, fills and loads act on half-open address
ranges, and every frame statement has one shape: two memories agree on a set of addresses
(`Set.EqOn`). A load depends only on the range it reads (`load_eq_of_eqOn`), and a store or a fill
changes nothing outside the range it writes (`store_eqOn`, `fill_eqOn`).
-/

/-- A byte for every address. -/
@[ext]
structure Memory where
  /-- The byte stored at an address. -/
  byte : ℕ → UInt8

namespace Memory

/-- The addresses of a block of `n` bytes at `a`. -/
abbrev range (a n : ℕ) : Set ℕ := Set.Ico a (a + n)

/-- Write the bytes `bs` at address `a`. -/
def store (m : Memory) (a : ℕ) (bs : List UInt8) : Memory where
  byte x := if a ≤ x ∧ x < a + bs.length then bs.getD (x - a) 0 else m.byte x

/-- Set `n` bytes at address `a` to zero. -/
def fill (m : Memory) (a n : ℕ) : Memory where
  byte x := if a ≤ x ∧ x < a + n then 0 else m.byte x

/-- Read `n` bytes at address `a`. -/
def load (m : Memory) (a n : ℕ) : List UInt8 :=
  (List.range n).map fun i => m.byte (a + i)

/-- Read a little-endian 64-bit word. -/
def load64 (m : Memory) (a : ℕ) : UInt64 :=
  UInt64.ofNat (LittleEndian.value (m.load a 8))

/-- Write a little-endian 64-bit word. -/
def store64 (m : Memory) (a : ℕ) (v : UInt64) : Memory :=
  m.store a (LittleEndian.encode 8 v.toNat)

variable {m m' : Memory} {a b n : ℕ} {bs : List UInt8}

@[simp]
theorem length_load (m : Memory) (a n : ℕ) : (m.load a n).length = n := by
  simp [load]

@[simp]
theorem getElem_load {i : ℕ} (h : i < (m.load a n).length) :
    (m.load a n)[i] = m.byte (a + i) := by
  simp [load]

/-- A load is its first byte and the load of the rest. -/
theorem load_succ (m : Memory) (a n : ℕ) : m.load a (n + 1) = m.byte a :: m.load (a + 1) n := by
  simp [load, List.range_succ_eq_map, Function.comp_def, Nat.add_comm 1, Nat.add_assoc]

/-- A load is a shorter one and its last byte. -/
theorem load_succ_last (m : Memory) (a n : ℕ) :
    m.load a (n + 1) = m.load a n ++ [m.byte (a + n)] := by
  simp [load, List.range_succ]

/-- The first bytes of a load. -/
theorem take_load {k : ℕ} (hk : k ≤ n) : (m.load a n).take k = m.load a k := by
  rw [load, ← List.map_take, List.take_range, min_eq_left hk]
  rfl

/-- Outside the written range a store changes nothing. -/
theorem byte_store_of_notMem {x : ℕ} (h : x ∉ range a bs.length) :
    (m.store a bs).byte x = m.byte x := by
  rw [Set.mem_Ico] at h
  simp [store, h]

/-- Outside the filled range a fill changes nothing. -/
theorem byte_fill_of_notMem {x : ℕ} (h : x ∉ range a n) :
    (m.fill a n).byte x = m.byte x := by
  rw [Set.mem_Ico] at h
  simp [fill, h]

/-- Inside the filled range every byte is zero. -/
theorem byte_fill_of_mem {x : ℕ} (h : x ∈ range a n) : (m.fill a n).byte x = 0 := by
  rw [Set.mem_Ico] at h
  simp [fill, h]

/-- A byte of a stored string. -/
theorem byte_store_add {i : ℕ} (h : i < bs.length) : (m.store a bs).byte (a + i) = bs[i] := by
  simp [store, h]

/-- A stored byte. -/
theorem byte_store_singleton (m : Memory) (a : ℕ) (v : UInt8) : (m.store a [v]).byte a = v := by
  simp [store]

theorem store_eqOn (m : Memory) (a : ℕ) (bs : List UInt8) :
    Set.EqOn (m.store a bs).byte m.byte (range a bs.length)ᶜ :=
  fun _ h => byte_store_of_notMem h

theorem fill_eqOn (m : Memory) (a n : ℕ) :
    Set.EqOn (m.fill a n).byte m.byte (range a n)ᶜ :=
  fun _ h => byte_fill_of_notMem h

/-- A load depends only on the bytes it reads. -/
theorem load_eq_of_eqOn (h : Set.EqOn m.byte m'.byte (range a n)) : m.load a n = m'.load a n := by
  refine List.map_congr_left fun i hi => h ?_
  rw [List.mem_range] at hi
  rw [Set.mem_Ico]
  omega

theorem load64_eq_of_eqOn (h : Set.EqOn m.byte m'.byte (range a 8)) :
    m.load64 a = m'.load64 a := by
  rw [load64, load64, load_eq_of_eqOn h]

/-- Two memories that read alike have the same bytes there. -/
theorem eqOn_of_load_eq (h : m.load a n = m'.load a n) :
    Set.EqOn m.byte m'.byte (range a n) := by
  intro x hx
  rw [Set.mem_Ico] at hx
  have hi : x - a < (m.load a n).length := by
    rw [length_load]
    omega
  have hi' : x - a < (m'.load a n).length := h ▸ hi
  have hbyte : (m.load a n)[x - a] = (m'.load a n)[x - a] := by simp only [h]
  rw [getElem_load, getElem_load, Nat.add_sub_cancel' hx.1] at hbyte
  exact hbyte

/-- A store to both of two memories leaves them alike where they were. -/
theorem store_congr {S : Set ℕ} (h : Set.EqOn m.byte m'.byte S) (a : ℕ) (bs : List UInt8) :
    Set.EqOn (m.store a bs).byte (m'.store a bs).byte S := by
  intro x hx
  simp only [store]
  rw [h hx]

/-- After a store to both of two memories they are alike there as well. -/
theorem store_congr_union {S : Set ℕ} (h : Set.EqOn m.byte m'.byte S) (a : ℕ)
    (bs : List UInt8) :
    Set.EqOn (m.store a bs).byte (m'.store a bs).byte (S ∪ range a bs.length) := by
  intro x hx
  by_cases hwritten : x ∈ range a bs.length
  · rw [Set.mem_Ico] at hwritten
    simp only [store, if_pos hwritten]
  · exact store_congr h a bs (hx.resolve_right hwritten)

/-- A fill of both of two memories leaves them alike where they were. -/
theorem fill_congr {S : Set ℕ} (h : Set.EqOn m.byte m'.byte S) (a n : ℕ) :
    Set.EqOn (m.fill a n).byte (m'.fill a n).byte S := by
  intro x hx
  simp only [fill]
  rw [h hx]

/-- A store over a store as long as it. -/
theorem store_store (m : Memory) (a : ℕ) {bs' : List UInt8} (h : bs.length = bs'.length) :
    (m.store a bs).store a bs' = m.store a bs' := by
  ext x
  by_cases hx : a ≤ x ∧ x < a + bs'.length
  · simp only [store, if_pos hx]
  · have hx' : ¬ (a ≤ x ∧ x < a + bs.length) := by rwa [h]
    simp only [store, if_neg hx, if_neg hx']

@[simp]
theorem store_nil (m : Memory) (a : ℕ) : m.store a [] = m := by
  ext x
  rw [store_eqOn]
  simp

/-- A stored string is read back. -/
@[simp]
theorem load_store (m : Memory) (a : ℕ) (bs : List UInt8) :
    (m.store a bs).load a bs.length = bs := by
  refine List.ext_getElem (by simp) fun i h _ => ?_
  rw [getElem_load]
  exact byte_store_add (by simpa using h)

/-- A byte written after what is loaded is read as its last. -/
theorem load_store_last (m : Memory) (a n : ℕ) (b : UInt8) :
    (m.store (a + n) [b]).load a (n + 1) = m.load a n ++ [b] := by
  -- the bytes before it are as they were
  have hbefore : (m.store (a + n) [b]).load a n = m.load a n := by
    refine load_eq_of_eqOn fun x hx => byte_store_of_notMem ?_
    rw [Set.mem_Ico, List.length_singleton]
    rw [Set.mem_Ico] at hx
    omega
  rw [load_succ_last, byte_store_singleton, hbefore]

/-- Part of a copied range reads as it does where it was copied from. -/
theorem load_store_load {p q i j k : ℕ} (h : i + j ≤ k) :
    (m.store q (m.load p k)).load (q + i) j = m.load (p + i) j := by
  refine List.ext_getElem (by simp) fun x hx _ => ?_
  rw [length_load] at hx
  have hlt : i + x < (m.load p k).length := by
    rw [length_load]
    omega
  rw [getElem_load, getElem_load, Nat.add_assoc, byte_store_add hlt, getElem_load, Nat.add_assoc]

/-- A 64-bit word is the value of its eight bytes. -/
theorem toNat_load64 (m : Memory) (a : ℕ) :
    (m.load64 a).toNat = LittleEndian.value (m.load a 8) := by
  have hlt := LittleEndian.value_lt (m.load a 8)
  rw [length_load] at hlt
  rw [load64, UInt64.toNat_ofNat']
  omega

/-- Two memories with the same word have the same bytes there. -/
theorem eqOn_of_load64_eq (h : m.load64 a = m'.load64 a) :
    Set.EqOn m.byte m'.byte (range a 8) := by
  refine eqOn_of_load_eq ?_
  have hvalue : LittleEndian.value (m.load a 8) = LittleEndian.value (m'.load a 8) := by
    rw [← toNat_load64, ← toNat_load64, h]
  -- the bytes of a word are those of its value
  have hencode : ∀ m : Memory, LittleEndian.encode 8 (LittleEndian.value (m.load a 8)) =
      m.load a 8 := fun m => by
    have hbytes := LittleEndian.encode_value (m.load a 8)
    rwa [length_load] at hbytes
  rw [← hencode m, ← hencode m', hvalue]

/-- A fill that begins at or before a load zeroes a first part of what is read. -/
theorem load_fill_prefix (h : a ≤ b) (k : ℕ) :
    (m.fill a n).load b k =
      List.replicate (min k (a + n - b)) 0 ++ (m.load b k).drop (min k (a + n - b)) := by
  refine List.ext_getElem (by simp) fun i hi hi' => ?_
  rw [length_load] at hi
  rw [getElem_load, List.getElem_append]
  split
  · next hlt =>
    rw [List.length_replicate] at hlt
    rw [List.getElem_replicate]
    exact byte_fill_of_mem (by rw [Set.mem_Ico]; omega)
  · next hge =>
    rw [List.length_replicate] at hge
    rw [List.getElem_drop, getElem_load, List.length_replicate,
      byte_fill_of_notMem (by rw [Set.mem_Ico]; omega)]
    congr 1
    omega

/-- A fill over the low bytes of a word rounds the word down. -/
theorem toNat_load64_fill (h : a ≤ b) :
    ((m.fill a n).load64 b).toNat =
      (m.load64 b).toNat / 256 ^ min 8 (a + n - b) * 256 ^ min 8 (a + n - b) := by
  rw [toNat_load64, toNat_load64, load_fill_prefix h, LittleEndian.value_append,
    LittleEndian.value_replicate_zero, LittleEndian.value_drop _ (by simp),
    List.length_replicate, Nat.zero_add, Nat.mul_comm]

/-- A stored 64-bit word is read back. -/
@[simp]
theorem load64_store64 (m : Memory) (a : ℕ) (v : UInt64) : (m.store64 a v).load64 a = v := by
  have hload : (m.store64 a v).load a 8 = LittleEndian.encode 8 v.toNat := by
    simpa [store64] using load_store m a (LittleEndian.encode 8 v.toNat)
  rw [load64, hload, LittleEndian.value_encode]
  apply UInt64.toNat_inj.mp
  rw [UInt64.toNat_ofNat']
  have := v.toNat_lt
  omega

theorem store64_eqOn (m : Memory) (a : ℕ) (v : UInt64) :
    Set.EqOn (m.store64 a v).byte m.byte (range a 8)ᶜ := by
  simpa [store64] using store_eqOn m a (LittleEndian.encode 8 v.toNat)

/-- Two ranges one of which ends where the other has not begun have no address in common. -/
theorem range_subset_compl {k : ℕ} (h : b + k ≤ a ∨ a + n ≤ b) :
    range b k ⊆ (range a n)ᶜ := by
  intro x hx
  rw [Set.mem_compl_iff, Set.mem_Ico]
  rw [Set.mem_Ico] at hx
  omega

end Memory
