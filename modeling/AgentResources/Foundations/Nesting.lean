import Mathlib

/-!
# Nested frames

The abstract account of a stack of memory, over an arbitrary linear order of positions. Frames are
pushed at or above the top and released from the top down: releasing a frame releases every newer
one and takes the top back to where the frame begins. That an older frame ends where a newer one
begins or earlier is a field of the structure, so live frames cannot meet (`pairwise_disjoint`).
-/

/-- Frames below a movable top, newest first. -/
structure Nesting (α : Type*) [LinearOrder α] where
  /-- Everything at or above the top is free. -/
  top : α
  /-- The live frames, as half-open intervals, newest first. -/
  frames : List (α × α)
  /-- A live frame ends at or below the top. -/
  le_top : ∀ f ∈ frames, f.2 ≤ top
  /-- An older frame ends where a newer one begins, or earlier. -/
  ordered : frames.Pairwise fun f g => g.2 ≤ f.1

namespace Nesting

variable {α : Type*} [LinearOrder α]

/-- No frame, and the top at `p`. -/
def empty (p : α) : Nesting α where
  top := p
  frames := []
  le_top := by simp
  ordered := .nil

/-- Put a frame on top. -/
def push (w : Nesting α) (lo hi : α) (hlo : w.top ≤ lo) (hhi : lo ≤ hi) : Nesting α where
  top := hi
  frames := (lo, hi) :: w.frames
  le_top f hf := by
    rcases List.mem_cons.mp hf with rfl | hf
    · exact le_rfl
    · exact (w.le_top f hf).trans (hlo.trans hhi)
  ordered := List.pairwise_cons.mpr ⟨fun f hf => (w.le_top f hf).trans hlo, w.ordered⟩

/-- The frames older than the `i`-th end where it begins, or earlier. -/
theorem le_of_mem_drop (w : Nesting α) {i : ℕ} {f g : α × α} (hf : w.frames[i]? = some f)
    (hg : g ∈ w.frames.drop (i + 1)) : g.2 ≤ f.1 := by
  obtain ⟨hi, rfl⟩ := List.getElem?_eq_some_iff.mp hf
  have hdrop := w.ordered.drop (i := i)
  rw [List.drop_eq_getElem_cons hi, List.pairwise_cons] at hdrop
  exact hdrop.1 g hg

/-- The `i`-th frame ends where a newer one begins, or earlier. -/
theorem le_of_mem_take (w : Nesting α) {i : ℕ} {f g : α × α} (hf : w.frames[i]? = some f)
    (hg : g ∈ w.frames.take i) : f.2 ≤ g.1 := by
  obtain ⟨hi, rfl⟩ := List.getElem?_eq_some_iff.mp hf
  obtain ⟨j, hj, rfl⟩ := List.mem_take_iff_getElem.mp hg
  exact List.pairwise_iff_getElem.mp w.ordered j i (by omega) hi (by omega)

/-- Release the `i`-th frame and every newer one. -/
def release (w : Nesting α) (i : ℕ) {f : α × α} (hf : w.frames[i]? = some f) : Nesting α where
  top := f.1
  frames := w.frames.drop (i + 1)
  le_top _ hg := w.le_of_mem_drop hf hg
  ordered := w.ordered.drop

/-- Move the end of the `i`-th frame, and the top up: the frame may grow up to where the next newer
one begins. -/
def resize (w : Nesting α) (i : ℕ) {f : α × α} (hf : w.frames[i]? = some f) {hi top : α}
    (htop : w.top ≤ top) (hhi : hi ≤ top) (hnewer : ∀ g ∈ w.frames.take i, hi ≤ g.1) :
    Nesting α where
  top := top
  frames := w.frames.set i (f.1, hi)
  le_top g hg := by
    rcases List.mem_or_eq_of_mem_set hg with hg | rfl
    · exact (w.le_top g hg).trans htop
    · exact hhi
  ordered := by
    obtain ⟨hlt, rfl⟩ := List.getElem?_eq_some_iff.mp hf
    have hordered := List.pairwise_iff_getElem.mp w.ordered
    refine List.pairwise_iff_getElem.mpr fun j k hj hk hjk => ?_
    rw [List.length_set] at hj hk
    rw [List.getElem_set, List.getElem_set]
    by_cases hki : i = k
    · -- the frame itself, against a newer one
      have hmem : w.frames[j] ∈ w.frames.take i :=
        List.mem_take_iff_getElem.mpr ⟨j, by omega, rfl⟩
      rw [if_pos hki, if_neg (by omega)]
      exact hnewer _ hmem
    · rw [if_neg hki]
      split
      · next hij =>
        subst hij
        exact hordered i k hj hk hjk
      · exact hordered j k hj hk hjk

@[simp] theorem top_push (w : Nesting α) (lo hi : α) (hlo : w.top ≤ lo) (hhi : lo ≤ hi) :
    (w.push lo hi hlo hhi).top = hi := rfl

@[simp] theorem frames_push (w : Nesting α) (lo hi : α) (hlo : w.top ≤ lo) (hhi : lo ≤ hi) :
    (w.push lo hi hlo hhi).frames = (lo, hi) :: w.frames := rfl

@[simp] theorem top_release (w : Nesting α) (i : ℕ) {f : α × α} (hf : w.frames[i]? = some f) :
    (w.release i hf).top = f.1 := rfl

@[simp] theorem frames_release (w : Nesting α) (i : ℕ) {f : α × α} (hf : w.frames[i]? = some f) :
    (w.release i hf).frames = w.frames.drop (i + 1) := rfl

@[simp] theorem frames_resize (w : Nesting α) (i : ℕ) {f : α × α} (hf : w.frames[i]? = some f)
    {hi top : α} (htop : w.top ≤ top) (hhi : hi ≤ top) (hnewer : ∀ g ∈ w.frames.take i, hi ≤ g.1) :
    (w.resize i hf htop hhi hnewer).frames = w.frames.set i (f.1, hi) := rfl

/-- The frames lie one on the other, without a gap, from `bottom` up to `top`. -/
def Tiles (bottom : α) : α → List (α × α) → Prop
  | top, [] => top = bottom
  | top, f :: fs => f.2 = top ∧ Tiles bottom f.1 fs

omit [LinearOrder α] in
/-- The frames older than one of them lie below it without a gap. -/
theorem Tiles.drop {bottom top : α} {fs : List (α × α)} (h : Tiles bottom top fs) {i : ℕ}
    {f : α × α} (hf : fs[i]? = some f) : Tiles bottom f.1 (fs.drop (i + 1)) := by
  induction i generalizing top fs with
  | zero =>
    cases fs with
    | nil => cases hf
    | cons g fs =>
      obtain rfl : g = f := Option.some.inj hf
      exact h.2
  | succ i ih =>
    cases fs with
    | nil => cases hf
    | cons g fs => exact ih h.2 hf

omit [LinearOrder α] in
/-- The oldest frame begins at the bottom. -/
theorem Tiles.eq_bottom {bottom top : α} {fs : List (α × α)} (h : Tiles bottom top fs) {i : ℕ}
    {f : α × α} (hf : fs[i]? = some f) (hi : i + 1 = fs.length) : f.1 = bottom := by
  have hdrop := h.drop hf
  rwa [hi, List.drop_length] at hdrop

/-- Live frames are pairwise disjoint. -/
theorem pairwise_disjoint (w : Nesting α) :
    w.frames.Pairwise fun f g => Disjoint (Set.Ico f.1 f.2) (Set.Ico g.1 g.2) := by
  refine w.ordered.imp fun {f g} hle => Set.disjoint_left.mpr fun x hf hg => ?_
  exact absurd (hg.2.trans_le hle) (not_lt.mpr hf.1)

end Nesting
