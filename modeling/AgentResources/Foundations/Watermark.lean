import Mathlib

/-!
# Watermark allocation

The abstract account of a bump allocator, over an arbitrary linear order of positions. A watermark
separates what has been handed out from what has not. `push` hands out the block from the mark to
a new, higher mark; `move` sets the mark anywhere, which releases every block that reaches above
the new mark. Blocks that are live lie below the mark and are pairwise disjoint; both facts are
fields of the structure, so a state that breaks them cannot be built.
-/

/-- The blocks handed out below a movable mark. -/
structure Watermark (α : Type*) [LinearOrder α] where
  /-- The mark: everything at or above it is free. -/
  mark : α
  /-- The live blocks, as half-open intervals, newest first. -/
  live : List (α × α)
  /-- A live block ends at or below the mark. -/
  le_mark : ∀ b ∈ live, b.2 ≤ mark
  /-- Live blocks are pairwise disjoint. -/
  pairwise : live.Pairwise fun b c => Disjoint (Set.Ico b.1 b.2) (Set.Ico c.1 c.2)

namespace Watermark

variable {α : Type*} [LinearOrder α]

/-- No live block reaches above the mark when there is none. -/
theorem le_mark_nil (mark : α) : ∀ b ∈ ([] : List (α × α)), b.2 ≤ mark :=
  fun _ hb => absurd hb List.not_mem_nil

/-- A mark with no live block. -/
def empty (mark : α) : Watermark α where
  mark := mark
  live := []
  le_mark := le_mark_nil mark
  pairwise := .nil

/-- The block from the mark up is disjoint from every live block. -/
theorem disjoint_of_mem_live (w : Watermark α) (hi : α) {b : α × α} (hb : b ∈ w.live) :
    Disjoint (Set.Ico w.mark hi) (Set.Ico b.1 b.2) := by
  rw [Set.disjoint_left]
  intro x hx hxb
  exact absurd (hxb.2.trans_le (w.le_mark b hb)) (not_lt.mpr hx.1)

/-- Hand out the block from the mark to `hi`. -/
def push (w : Watermark α) (hi : α) (h : w.mark ≤ hi) : Watermark α where
  mark := hi
  live := (w.mark, hi) :: w.live
  le_mark b hb := by
    rcases List.mem_cons.mp hb with rfl | hb
    · exact le_rfl
    · exact (w.le_mark b hb).trans h
  pairwise := List.pairwise_cons.mpr ⟨fun _ hb => w.disjoint_of_mem_live hi hb, w.pairwise⟩

/-- Set the mark to `p` and release every block that ends above it. -/
def move (w : Watermark α) (p : α) : Watermark α where
  mark := p
  live := w.live.filter (·.2 ≤ p)
  le_mark b hb := by simpa using (List.mem_filter.mp hb).2
  pairwise := w.pairwise.filter _

@[simp] theorem mark_push (w : Watermark α) (hi : α) (h : w.mark ≤ hi) :
    (w.push hi h).mark = hi := rfl

@[simp] theorem live_push (w : Watermark α) (hi : α) (h : w.mark ≤ hi) :
    (w.push hi h).live = (w.mark, hi) :: w.live := rfl

@[simp] theorem live_move (w : Watermark α) (p : α) :
    (w.move p).live = w.live.filter (·.2 ≤ p) := rfl

/-- One step of the allocator: hand out a block or set the mark. -/
inductive Step : Watermark α → Watermark α → Prop
  | push (w : Watermark α) (hi : α) (h : w.mark ≤ hi) : Step w (w.push hi h)
  | move (w : Watermark α) (p : α) : Step w (w.move p)

end Watermark
