import AgentResources.Base.ArenaList

/-!
# How a list grows

A list takes arrays of 8, 16, 32 and so on entries and never gives one back. Its capacity is thus
the least of these numbers that is not below the number of its entries (`capacityFor_isLeast`), and
the arrays are together twice the last one, less 8 entries (`spaceFor_succ`). `Grown` says so of a
list in an arena that does nothing else, and `PushFn.foldlM_grown` that pushes keep it.
-/

namespace AgentResources

/-- The capacity of a list after `n` pushes. -/
def capacityFor : ℕ → ℕ
  | 0 => 0
  | n + 1 => if capacityFor n = n then newCapacity n else capacityFor n

/-- The entries in all the arrays that a list has had after `n` pushes. -/
def spaceFor (n : ℕ) : ℕ := 2 * capacityFor n - 8

/-- The capacity is 8 times a power of two, and half of it is no longer enough. -/
theorem capacityFor_succ_eq (n : ℕ) :
    ∃ j, capacityFor (n + 1) = 8 * 2 ^ j ∧ n + 1 ≤ 8 * 2 ^ j ∧ (j = 0 ∨ 4 * 2 ^ j ≤ n) := by
  induction n with
  | zero => exact ⟨0, rfl, by decide, .inl rfl⟩
  | succ n ih =>
    obtain ⟨j, hcap, hle, hleast⟩ := ih
    rw [capacityFor, hcap]
    by_cases hfull : 8 * 2 ^ j = n + 1
    · -- the array is full, and the next one has twice its size
      refine ⟨j + 1, ?_, ?_, .inr ?_⟩
      · rw [if_pos hfull, newCapacity, if_neg (Nat.succ_ne_zero n), ← hfull, pow_succ]
        ring
      · rw [pow_succ]
        omega
      · rw [pow_succ]
        omega
    · rw [if_neg hfull]
      exact ⟨j, rfl, by omega, hleast.imp_right fun h => by omega⟩

/-- The capacity is the least of the possible ones that is enough. -/
theorem capacityFor_isLeast {n : ℕ} (hn : 0 < n) :
    IsLeast {c | (∃ k, c = 8 * 2 ^ k) ∧ n ≤ c} (capacityFor n) := by
  obtain ⟨n, rfl⟩ := Nat.exists_eq_succ_of_ne_zero hn.ne'
  obtain ⟨j, hcap, hle, hleast⟩ := capacityFor_succ_eq n
  rw [Nat.succ_eq_add_one, hcap]
  refine ⟨⟨⟨j, rfl⟩, hle⟩, ?_⟩
  rintro c ⟨⟨k, rfl⟩, hc⟩
  refine Nat.mul_le_mul_left 8 (Nat.pow_le_pow_right (by decide) ?_)
  by_contra hkj
  -- a smaller power is at most half, which is not enough
  have hhalf : 2 ^ (k + 1) ≤ 2 ^ j := Nat.pow_le_pow_right (by decide) (not_le.mp hkj)
  rw [pow_succ] at hhalf
  rcases hleast with rfl | hlt
  · omega
  · omega

/-- All the arrays together have less than four times the entries of the list, from the second array
on. -/
theorem spaceFor_lt {n : ℕ} (hn : 8 < n) : spaceFor n < 4 * n := by
  obtain ⟨n, rfl⟩ := Nat.exists_eq_succ_of_ne_zero (Nat.ne_of_gt (Nat.zero_lt_of_lt hn))
  obtain ⟨j, hcap, -, hleast⟩ := capacityFor_succ_eq n
  rw [Nat.succ_eq_add_one] at hn ⊢
  rw [spaceFor, hcap]
  rcases hleast with rfl | hhalf
  · omega
  · omega

theorem capacityFor_mono {m n : ℕ} (h : m ≤ n) : capacityFor m ≤ capacityFor n := by
  induction n, h using Nat.le_induction with
  | base => exact le_rfl
  | succ n _ ih =>
    refine ih.trans ?_
    rw [capacityFor]
    split
    · next hfull => exact hfull.le.trans (lt_newCapacity n).le
    · exact le_rfl

theorem spaceFor_mono {m n : ℕ} (h : m ≤ n) : spaceFor m ≤ spaceFor n := by
  have hcap := capacityFor_mono h
  unfold spaceFor
  omega

/-- A push to a full list adds the new array to the arrays. -/
theorem spaceFor_succ (n : ℕ) :
    spaceFor (n + 1) = spaceFor n + if capacityFor n = n then newCapacity n else 0 := by
  rw [spaceFor, spaceFor, capacityFor]
  cases n with
  | zero => rfl
  | succ n =>
    obtain ⟨j, hcap, -⟩ := capacityFor_succ_eq n
    have hpos : 0 < 2 ^ j := Nat.two_pow_pos j
    by_cases hfull : capacityFor (n + 1) = n + 1
    · rw [if_pos hfull, if_pos hfull, newCapacity, if_neg (Nat.succ_ne_zero n)]
      omega
    · rw [if_neg hfull, if_neg hfull]
      exact (Nat.add_zero _).symm

variable {α : Type} [Layout α] {arena d lo p first n : ℕ} {capacity : UInt64} {s s' : Proc} {v : α}

/-- The list has `n` entries, and since the position was `p` the arena has handed out nothing but
the arrays of the list, the first of them before the first push when `first` is 1. -/
structure Grown (α : Type) [Layout α] (arena d p first n : ℕ) (s : Proc) : Prop where
  count_eq : (listHead d s.mem).count.toNat = n
  capacity_eq : (listHead d s.mem).capacity.toNat = capacityFor (max n first)
  position_eq : position arena s = p + Layout.size α * spaceFor (max n first)

/-- What a push takes from the arena, and the capacity it leaves. -/
theorem Grown.growth_eq (hgrown : Grown α arena d p first n s) (hfirst : first ≤ 1) :
    position arena s + growth α d s.mem =
        p + Layout.size α * spaceFor (max (n + 1) first) ∧
      grownCapacity d s.mem = capacityFor (max (n + 1) first) := by
  obtain ⟨hcount, hcap, hpos⟩ := hgrown
  have hfull : (listHead d s.mem).count = (listHead d s.mem).capacity ↔
      n = capacityFor (max n first) := by
    rw [← UInt64.toNat_inj, hcount, hcap]
  rw [growth, grownCapacity, hcap, hpos, if_congr hfull rfl rfl, if_congr hfull rfl rfl]
  rcases Nat.lt_or_ge n first with hlt | hge
  · -- no push yet, and the first array is there
    obtain ⟨rfl, rfl⟩ : n = 0 ∧ first = 1 := by omega
    exact ⟨rfl, rfl⟩
  · rw [max_eq_left hge, max_eq_left (hge.trans (Nat.le_succ n)), spaceFor_succ, capacityFor]
    by_cases heq : capacityFor n = n
    · rw [if_pos heq.symm, if_pos heq.symm, if_pos heq, if_pos heq, heq, Nat.mul_add]
      exact ⟨Nat.add_assoc _ _ _, rfl⟩
    · rw [if_neg (Ne.symm heq), if_neg (Ne.symm heq), if_neg heq, if_neg heq]
      exact ⟨rfl, rfl⟩

/-- A push that is granted. -/
theorem Grown.push (hgrown : Grown α arena d p first n s) (hfirst : first ≤ 1)
    (hkept : ListKept α arena d lo capacity [v] (growth α d s.mem) s s')
    (hcap : (listHead d s'.mem).capacity.toNat = grownCapacity d s.mem) :
    Grown α arena d p first (n + 1) s' := by
  obtain ⟨hspace, hgrownCap⟩ := hgrown.growth_eq hfirst
  refine ⟨?_, hcap.trans hgrownCap, hkept.position_eq.trans hspace⟩
  have hlength := congrArg List.length hkept.entries_eq
  rwa [List.length_append, ListInv.length_entries, ListInv.length_entries,
    hgrown.count_eq] at hlength

/-- Pushes store all their entries when the arena has room for the arrays, and take no more from it
than these. -/
theorem PushFn.foldlM_grown {β : Type} (k : PushFn α β) (hplace : ListPlace arena d lo capacity)
    (hinv : ListInv α arena d lo capacity s) (hready : k.ready (listHead d s.mem).capacity)
    (hgrown : Grown α arena d p first 0 s) (hfirst : first ≤ 1) (bs : List β)
    (hroom : p + Layout.size α * spaceFor (max bs.length first) ≤ capacity.toNat) :
    ∃ s', bs.foldlM (fun s b => k.push arena d b s) s = .ok s' ∧
      ListInv α arena d lo capacity s' ∧ k.ready (listHead d s'.mem).capacity ∧
      entries α d s'.mem = entries α d s.mem ++ bs.map k.item ∧
      Grown α arena d p first bs.length s' := by
  induction bs using List.reverseRecOn with
  | nil => exact ⟨s, rfl, hinv, hready, (List.append_nil _).symm, hgrown⟩
  | append_singleton bs b ih =>
    rw [List.length_append, List.length_singleton] at hroom ⊢
    have hmono : spaceFor (max bs.length first) ≤ spaceFor (max (bs.length + 1) first) :=
      spaceFor_mono (max_le_max_right first (Nat.le_succ _))
    obtain ⟨s₁, hfold, hinv₁, hready₁, hentries₁, hgrown₁⟩ :=
      ih ((Nat.add_le_add_left (Nat.mul_le_mul_left _ hmono) p).trans hroom)
    -- the arrays up to this push have room, and so it is granted
    have hfits : position arena s₁ + growth α d s₁.mem ≤ capacity.toNat := by
      rw [(hgrown₁.growth_eq hfirst).1]
      exact hroom
    obtain ⟨s₂, hpush, hkept, hcap⟩ := (k.outcome b hplace hinv₁ hready₁).granted hfits
    refine ⟨s₂, ?_, hkept.inv, k.ready_of_ne_zero hkept.capacity_ne_zero, ?_,
      hgrown₁.push hfirst hkept hcap⟩
    · rw [List.foldlM_append, hfold, Except.ok_bind, List.foldlM_cons, hpush]
      rfl
    · rw [hkept.entries_eq, hentries₁, List.append_assoc, List.map_append, List.map_singleton]

end AgentResources
