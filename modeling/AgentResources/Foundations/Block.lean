import AgentResources.Foundations.Memory

/-!
# Blocks of bytes

A block is an offset and the bytes from there on: an interval of a memory with what it holds, seen
from a base address (`Block.read`). A store inside an interval overwrites a part of its block, and
stores elsewhere leave it as it is.
-/

/-- Bytes from an offset on. -/
@[ext]
structure Block where
  /-- Where the block begins. -/
  offset : ℕ
  /-- What it holds. -/
  bytes : List UInt8
  deriving DecidableEq

namespace Block

variable {base lo n d : ℕ} {m m' : Memory} {bs : List UInt8}

/-- The offset after the last byte. -/
def top (b : Block) : ℕ := b.offset + b.bytes.length

/-- A block of `n` zeros. -/
def zeros (offset n : ℕ) : Block := ⟨offset, List.replicate n 0⟩

/-- Overwrite the bytes from the `d`-th on. A write that does not fit is none at all. -/
def write (b : Block) (d : ℕ) (bs : List UInt8) : Block where
  offset := b.offset
  bytes :=
    if d + bs.length ≤ b.bytes.length then
      b.bytes.take d ++ bs ++ b.bytes.drop (d + bs.length)
    else b.bytes

/-- The `n` bytes of a memory at `lo`, as a block of what begins at `base`. -/
def read (base : ℕ) (m : Memory) (lo n : ℕ) : Block := ⟨lo - base, m.load lo n⟩

@[simp]
theorem offset_read (base : ℕ) (m : Memory) (lo n : ℕ) : (read base m lo n).offset = lo - base :=
  rfl

@[simp]
theorem length_read (base : ℕ) (m : Memory) (lo n : ℕ) : (read base m lo n).bytes.length = n :=
  m.length_load lo n

theorem top_read (h : base ≤ lo) : base + (read base m lo n).top = lo + n := by
  rw [top, offset_read, length_read]
  omega

/-- A block holds what is in its interval. -/
theorem read_congr (h : Set.EqOn m'.byte m.byte (Memory.range lo n)) :
    read base m' lo n = read base m lo n := by
  rw [read, read, Memory.load_eq_of_eqOn h]

theorem read_of_zero (h : ∀ x ∈ Memory.range lo n, m.byte x = 0) :
    read base m lo n = zeros (lo - base) n := by
  ext1
  · rfl
  · refine List.ext_getElem (by simp [zeros]) fun i hi _ => ?_
    rw [length_read] at hi
    have hzero : m.byte (lo + i) = 0 := h _ (by rw [Set.mem_Ico]; omega)
    simpa [read, zeros] using hzero

/-- A store inside an interval overwrites its block. -/
theorem read_store (h : d + bs.length ≤ n) :
    read base (m.store (lo + d) bs) lo n = (read base m lo n).write d bs := by
  ext1
  · rfl
  rw [write, length_read, if_pos h]
  refine List.ext_getElem ?_ fun i hi _ => ?_
  · simp only [read, List.length_append, List.length_take, List.length_drop, Memory.length_load]
    omega
  rw [length_read] at hi
  simp only [read, Memory.getElem_load, List.getElem_append, List.getElem_take, List.getElem_drop,
    List.length_append, List.length_take, Memory.length_load]
  -- the byte is in front of what is stored, in it or behind it
  rcases lt_or_ge i d with hbefore | hge
  · rw [dif_pos (by omega), dif_pos (by omega)]
    exact Memory.byte_store_of_notMem (by rw [Set.mem_Ico]; omega)
  rcases lt_or_ge i (d + bs.length) with hin | hbehind
  · rw [dif_pos (by omega), dif_neg (by omega)]
    have hbyte : (m.store (lo + d) bs).byte (lo + d + (i - d)) = bs[i - d] :=
      Memory.byte_store_add (by omega)
    rw [show lo + d + (i - d) = lo + i by omega] at hbyte
    rw [hbyte]
    congr 1
    omega
  · rw [dif_neg (by omega)]
    rw [Memory.byte_store_of_notMem (by rw [Set.mem_Ico]; omega)]
    congr 1
    omega

/-- A write that does not fit changes nothing. -/
theorem write_of_lt {b : Block} (h : b.bytes.length < d + bs.length) : b.write d bs = b := by
  ext1
  · rfl
  · exact if_neg (Nat.not_le.mpr h)

/-- Changing an element into itself changes nothing. -/
theorem modify_of_fixed {α : Type*} {xs : List α} {i : ℕ} {f : α → α}
    (h : ∀ x, xs[i]? = some x → f x = x) : xs.modify i f = xs := by
  refine List.ext_getElem (by simp) fun j hj hj' => ?_
  rw [List.getElem_modify]
  split
  · next heq =>
    subst heq
    exact h _ (List.getElem?_eq_getElem hj')
  · rfl

/-- A store into one of several disjoint intervals overwrites its block and no other, also where
the blocks are parts of something else. -/
theorem map_read_store {α β : Type*} {lo size : α → ℕ} {xs : List α} {i : ℕ} {x : α}
    (wrap : α → Block → β) {f : β → β} (hf : ∀ a b, f (wrap a b) = wrap a (b.write d bs))
    (hx : xs[i]? = some x)
    (hdisjoint : xs.Pairwise fun a b =>
      Disjoint (Memory.range (lo a) (size a)) (Memory.range (lo b) (size b)))
    (hfits : d + bs.length ≤ size x) :
    xs.map (fun a => wrap a (read base (m.store (lo x + d) bs) (lo a) (size a))) =
      (xs.map fun a => wrap a (read base m (lo a) (size a))).modify i f := by
  have hinside : Memory.range (lo x + d) bs.length ⊆ Memory.range (lo x) (size x) :=
    Set.Ico_subset_Ico (by omega) (by omega)
  obtain ⟨hi, rfl⟩ := List.getElem?_eq_some_iff.mp hx
  refine List.ext_getElem (by simp) fun j hj _ => ?_
  rw [List.length_map] at hj
  rw [List.getElem_modify, List.getElem_map, List.getElem_map]
  split
  · next heq =>
    subst heq
    rw [hf, read_store hfits]
  · next hne =>
    have hdisj : Disjoint (Memory.range (lo xs[i]) (size xs[i]))
        (Memory.range (lo xs[j]) (size xs[j])) := by
      rw [List.pairwise_iff_getElem] at hdisjoint
      rcases Nat.lt_or_gt_of_ne hne with hlt | hgt
      · exact hdisjoint i j hi hj hlt
      · exact (hdisjoint j i hj hi hgt).symm
    refine congrArg (wrap xs[j]) (read_congr ((m.store_eqOn _ _).mono ?_))
    exact Set.subset_compl_iff_disjoint_left.mpr (hdisj.mono_left hinside)

end Block
