import Mathlib

/-!
# Parts of a state and their owners

What several owners have of one state. An `Ownership` says what parts a state has, when two of them
have nothing in common, when a part is the same in two states, and how large a part and the whole
are. A step `Passes` the other owners by if it leaves every part apart from the owner's own as it
is. `Divides` is the invariant of a state that several owners share: what they own is pairwise
apart, and it accounts for all that was added to the state since the beginning.
-/

/-- How a state can be divided into parts. -/
structure Ownership (σ ω : Type) where
  /-- What always holds of the state. -/
  inv : σ → Prop
  /-- The part is there. -/
  holds : ω → σ → Prop
  /-- The two parts have nothing in common. -/
  apart : ω → ω → Prop
  /-- The part is the same in both states. -/
  same : ω → σ → σ → Prop
  /-- How large the part is. -/
  size : ω → ℕ
  /-- How large the whole is. -/
  total : σ → ℕ
  /-- The part that is nothing. -/
  empty : ω
  holds_empty (s : σ) : holds empty s
  apart_empty (o : ω) : apart empty o
  size_empty : size empty = 0
  apart_symm {o q : ω} (h : apart o q) : apart q o
  same_refl (o : ω) (s : σ) : same o s s
  same_trans {o : ω} {s s' s'' : σ} (h : same o s s') (h' : same o s' s'') : same o s s''

namespace Ownership

variable {σ ω : Type} (O : Ownership σ ω)

/-- A step from `s` to `s'` by the owner of `o`, who then owns `o'`: every part apart from `o` stays
as it is and is apart from `o'`, and what is not owned has the same size. -/
structure Passes (o o' : ω) (s s' : σ) : Prop where
  inv : O.inv s'
  holds : O.holds o' s'
  others : ∀ q, O.holds q s → O.apart o q → O.holds q s' ∧ O.same q s s' ∧ O.apart o' q
  total_eq : O.total s' + O.size o = O.total s + O.size o'

/-- A step that changes nothing. -/
theorem Passes.refl {o : ω} {s : σ} (hinv : O.inv s) (hholds : O.holds o s) :
    O.Passes o o s s :=
  ⟨hinv, hholds, fun _ hq ho => ⟨hq, O.same_refl _ s, ho⟩, rfl⟩

/-- The first `n` owners have parts that have nothing in common, neither with one another nor with
`base`, which is as it was in `s₀`; what they own accounts for all that was added since. -/
structure Divides (base : ω) (s₀ s : σ) (n : ℕ) (own : ℕ → ω) : Prop where
  inv : O.inv s
  holds : ∀ i < n, O.holds (own i) s
  apart : ∀ i < n, ∀ j < n, i ≠ j → O.apart (own i) (own j)
  base_holds : O.holds base s
  base_same : O.same base s₀ s
  base_apart : ∀ i < n, O.apart (own i) base
  total_eq : O.total s = O.total s₀ + ∑ i ∈ Finset.range n, O.size (own i)

namespace Divides

variable {O} {base : ω} {s₀ s s' : σ} {n i : ℕ} {own : ℕ → ω} {o' : ω}

/-- Without owners nothing was added. -/
theorem zero (hinv : O.inv s₀) (hbase : O.holds base s₀) (own : ℕ → ω) :
    O.Divides base s₀ s₀ 0 own where
  inv := hinv
  holds i hi := absurd hi (Nat.not_lt_zero i)
  apart i hi := absurd hi (Nat.not_lt_zero i)
  base_holds := hbase
  base_same := O.same_refl _ _
  base_apart i hi := absurd hi (Nat.not_lt_zero i)
  total_eq := rfl

/-- A new owner has nothing. -/
theorem add (h : O.Divides base s₀ s n own) :
    O.Divides base s₀ s (n + 1) (Function.update own n O.empty) := by
  have hold : ∀ i < n, Function.update own n O.empty i = own i :=
    fun i hi => Function.update_of_ne hi.ne _ _
  have hnew : Function.update own n O.empty n = O.empty := Function.update_self _ _ _
  refine ⟨h.inv, fun i hi => ?_, fun i hi j hj hij => ?_, h.base_holds, h.base_same,
    fun i hi => ?_, ?_⟩
  · rcases Nat.lt_succ_iff_lt_or_eq.mp hi with hi | rfl
    · rw [hold i hi]
      exact h.holds i hi
    · rw [hnew]
      exact O.holds_empty _
  · rcases Nat.lt_succ_iff_lt_or_eq.mp hi with hi | rfl
    · rw [hold i hi]
      rcases Nat.lt_succ_iff_lt_or_eq.mp hj with hj | rfl
      · rw [hold j hj]
        exact h.apart i hi j hj hij
      · rw [hnew]
        exact O.apart_symm (O.apart_empty _)
    · rw [hnew]
      exact O.apart_empty _
  · rcases Nat.lt_succ_iff_lt_or_eq.mp hi with hi | rfl
    · rw [hold i hi]
      exact h.base_apart i hi
    · rw [hnew]
      exact O.apart_empty _
  · rw [Finset.sum_range_succ, hnew, O.size_empty, Nat.add_zero, h.total_eq]
    refine congrArg _ (Finset.sum_congr rfl fun i hi => ?_)
    rw [hold i (Finset.mem_range.mp hi)]

/-- What another owner has after a step. -/
theorem passed (h : O.Divides base s₀ s n own) (hi : i < n) (hpass : O.Passes (own i) o' s s')
    {j : ℕ} (hj : j < n) (hne : j ≠ i) :
    O.holds (own j) s' ∧ O.same (own j) s s' ∧ O.apart o' (own j) :=
  hpass.others _ (h.holds j hj) (h.apart i hi j hj hne.symm)

/-- A step of one owner passes all others by. -/
theorem pass (h : O.Divides base s₀ s n own) (hi : i < n) (hpass : O.Passes (own i) o' s s') :
    O.Divides base s₀ s' n (Function.update own i o') := by
  have hother := fun {j} hj hne => h.passed hi hpass (j := j) hj hne
  have hbase := hpass.others _ h.base_holds (h.base_apart i hi)
  refine ⟨hpass.inv, fun j hj => ?_, fun j hj k hk hjk => ?_, hbase.1,
    O.same_trans h.base_same hbase.2.1, fun j hj => ?_, ?_⟩
  · rcases eq_or_ne j i with rfl | hne
    · rw [Function.update_self]
      exact hpass.holds
    · rw [Function.update_of_ne hne]
      exact (hother hj hne).1
  · rcases eq_or_ne j i with rfl | hne
    · rw [Function.update_self, Function.update_of_ne hjk.symm]
      exact (hother hk hjk.symm).2.2
    · rw [Function.update_of_ne hne]
      rcases eq_or_ne k i with rfl | hne'
      · rw [Function.update_self]
        exact O.apart_symm (hother hj hne).2.2
      · rw [Function.update_of_ne hne']
        exact h.apart j hj k hk hjk
  · rcases eq_or_ne j i with rfl | hne
    · rw [Function.update_self]
      exact hbase.2.2
    · rw [Function.update_of_ne hne]
      exact h.base_apart j hj
  · -- only the summand of the owner that moved has changed
    have hmem : i ∈ Finset.range n := Finset.mem_range.mpr hi
    have hrest : ∑ j ∈ (Finset.range n).erase i, O.size (Function.update own i o' j) =
        ∑ j ∈ (Finset.range n).erase i, O.size (own j) :=
      Finset.sum_congr rfl fun j hj => by rw [Function.update_of_ne (Finset.ne_of_mem_erase hj)]
    have hsum := Finset.add_sum_erase _ (fun j => O.size (own j)) hmem
    have htotal := h.total_eq
    have hstep := hpass.total_eq
    rw [← Finset.add_sum_erase _ _ hmem, hrest, Function.update_self]
    omega

/-- A new owner takes its part at once. -/
theorem join (h : O.Divides base s₀ s n own) (hpass : O.Passes O.empty o' s s') :
    O.Divides base s₀ s' (n + 1) (Function.update own n o') ∧
      ∀ j < n, O.holds (own j) s' ∧ O.same (own j) s s' := by
  have hlast := Nat.lt_succ_self n
  have hpass' : O.Passes (Function.update own n O.empty n) o' s s' := by
    rwa [Function.update_self]
  refine ⟨?_, fun j hj => ?_⟩
  · have hdivides := h.add.pass hlast hpass'
    rwa [Function.update_idem] at hdivides
  · have hpassed := h.add.passed hlast hpass' (Nat.lt_succ_of_lt hj) hj.ne
    rw [Function.update_of_ne hj.ne] at hpassed
    exact ⟨hpassed.1, hpassed.2.1⟩

end Divides

end Ownership
