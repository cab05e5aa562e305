import Mathlib

/-!
# Reading a stream line by line

`fgets` takes bytes up to and with the next newline, but no more than fit its buffer besides the
terminator. The loop `while (fgets(...))` sees a stream as the list of these chunks (`chunks`): it
ends because every chunk takes at least one byte off a stream that is not at its end.

## Main results

* `chunks_eq`: the chunks of a stream are its first chunk and the chunks of the rest;
* `flatten_chunks`: together they are the whole stream.
-/

namespace Stream

/-- The newline byte. -/
def newline : UInt8 := 10

/-- Up to `room` bytes, up to and with the first newline, and what is left. -/
def takeLine : ℕ → List UInt8 → List UInt8 × List UInt8
  | 0, text => ([], text)
  | _ + 1, [] => ([], [])
  | room + 1, b :: text =>
    if b = newline then ([b], text) else ((b :: (takeLine room text).1), (takeLine room text).2)

/-- `fgets` into a buffer of `size` bytes: nothing at the end of the stream. -/
def fgets (size : ℕ) (text : List UInt8) : Option (List UInt8 × List UInt8) :=
  if text = [] then none else some (takeLine (size - 1) text)

/-- The chunks the loop reads in its first `fuel` rounds. -/
def chunksUpTo (size : ℕ) : ℕ → List UInt8 → List (List UInt8)
  | 0, _ => []
  | fuel + 1, text =>
    match fgets size text with
    | none => []
    | some (chunk, rest) => chunk :: chunksUpTo size fuel rest

/-- The chunks the loop reads until the end of the stream. -/
def chunks (size : ℕ) (text : List UInt8) : List (List UInt8) :=
  chunksUpTo size text.length text

variable {size room fuel : ℕ} {text : List UInt8}

theorem append_takeLine (room : ℕ) (text : List UInt8) :
    (takeLine room text).1 ++ (takeLine room text).2 = text := by
  induction room generalizing text with
  | zero => rfl
  | succ room ih =>
    cases text with
    | nil => rfl
    | cons b text =>
      rw [takeLine]
      split
      · rfl
      · exact congrArg (b :: ·) (ih text)

theorem length_takeLine_le (room : ℕ) (text : List UInt8) :
    (takeLine room text).1.length ≤ room := by
  induction room generalizing text with
  | zero => rfl
  | succ room ih =>
    cases text with
    | nil => simp [takeLine]
    | cons b text =>
      rw [takeLine]
      split
      · simp
      · simpa using ih text

/-- A chunk fits the buffer besides the terminator. -/
theorem length_le_of_mem_chunks {chunk : List UInt8} (h : chunk ∈ chunks size text) :
    chunk.length ≤ size - 1 := by
  unfold chunks at h
  generalize text.length = fuel at h
  induction fuel generalizing text with
  | zero => simp [chunksUpTo] at h
  | succ fuel ih =>
    rw [chunksUpTo, fgets] at h
    split at h
    · simp at h
    · next head rest hread =>
      split at hread
      · simp at hread
      · rcases List.mem_cons.mp h with rfl | hrest
        · have hle := length_takeLine_le (size - 1) text
          rwa [Option.some.inj hread] at hle
        · exact ih hrest

/-- A buffer with room for one byte takes a byte off the stream. -/
theorem length_takeLine_lt (hroom : 0 < room) (htext : text ≠ []) :
    (takeLine room text).2.length < text.length := by
  have happend := congrArg List.length (append_takeLine room text)
  rw [List.length_append] at happend
  have hne : (takeLine room text).1 ≠ [] := by
    cases text with
    | nil => exact absurd rfl htext
    | cons b text =>
      obtain ⟨room, rfl⟩ := Nat.exists_eq_succ_of_ne_zero hroom.ne'
      rw [takeLine]
      split <;> simp
  have := List.length_pos_of_ne_nil hne
  omega

/-- Rounds beyond the length of the stream read nothing more. -/
theorem chunksUpTo_eq_chunks (hsize : 2 ≤ size) (hfuel : text.length ≤ fuel) :
    chunksUpTo size fuel text = chunks size text := by
  unfold chunks
  induction fuel using Nat.strong_induction_on generalizing text with
  | _ fuel ih =>
    by_cases htext : text = []
    · subst htext
      cases fuel <;> rfl
    · obtain ⟨len, hlen⟩ := Nat.exists_eq_succ_of_ne_zero
        (List.length_pos_of_ne_nil htext).ne'
      obtain ⟨fuel, rfl⟩ : ∃ f, fuel = f + 1 := ⟨fuel - 1, by omega⟩
      have hlt : (takeLine (size - 1) text).2.length < text.length :=
        length_takeLine_lt (by omega) htext
      rw [hlen, Nat.succ_eq_add_one, chunksUpTo, chunksUpTo]
      simp only [fgets, htext, if_false, List.cons.injEq, true_and]
      -- both sides run the rest of the stream with at least its length in rounds
      rw [ih fuel (by omega) (by omega)]
      rcases Nat.lt_or_ge len (fuel + 1) with h | h
      · rw [ih len (by omega) (by omega)]
      · obtain rfl : len = fuel := by omega
        rw [ih len (by omega) (by omega)]

/-- The chunks of a stream that is not at its end: the first, and those of the rest. -/
theorem chunks_eq (hsize : 2 ≤ size) (htext : text ≠ []) :
    chunks size text =
      (takeLine (size - 1) text).1 :: chunks size (takeLine (size - 1) text).2 := by
  have hlt : (takeLine (size - 1) text).2.length < text.length :=
    length_takeLine_lt (by omega) htext
  obtain ⟨len, hlen⟩ := Nat.exists_eq_succ_of_ne_zero (List.length_pos_of_ne_nil htext).ne'
  have hle : (takeLine (size - 1) text).2.length ≤ len := by omega
  have hrest := chunksUpTo_eq_chunks hsize hle
  rw [← hrest, chunks, hlen, Nat.succ_eq_add_one, chunksUpTo]
  simp [fgets, htext]

/-- The loop reads the whole stream. -/
theorem flatten_chunks (hsize : 2 ≤ size) (text : List UInt8) :
    (chunks size text).flatten = text := by
  induction hn : text.length using Nat.strong_induction_on generalizing text with
  | _ n ih =>
    by_cases htext : text = []
    · subst htext
      rfl
    · have hlt : (takeLine (size - 1) text).2.length < text.length :=
        length_takeLine_lt (by omega) htext
      rw [chunks_eq hsize htext, List.flatten_cons, ih _ (hn ▸ hlt) _ rfl]
      exact append_takeLine _ _

/-- The lines of a stream: the chunks of a buffer that has room for all of it. -/
def lines (text : List UInt8) : List (List UInt8) := chunks (text.length + 2) text

/-- A smaller buffer reads the same line when it has room for it. -/
theorem takeLine_eq_of_length_le {room' : ℕ} (hle : room ≤ room')
    (hline : (takeLine room' text).1.length ≤ room) : takeLine room text = takeLine room' text := by
  induction room generalizing room' text with
  | zero =>
    have hnil := List.length_eq_zero_iff.mp (Nat.le_zero.mp hline)
    have happend := append_takeLine room' text
    rw [hnil, List.nil_append] at happend
    exact Prod.ext hnil.symm happend.symm
  | succ room ih =>
    obtain ⟨room', rfl⟩ : ∃ n, room' = n + 1 := ⟨room' - 1, by omega⟩
    cases text with
    | nil => rfl
    | cons b text =>
      rw [takeLine, takeLine]
      rw [takeLine] at hline
      split
      · rfl
      · next hb =>
        rw [if_neg hb, List.length_cons] at hline
        rw [ih (Nat.le_of_succ_le_succ hle) (Nat.le_of_succ_le_succ hline)]

/-- Two buffers that both have room for what the larger reads see the same chunks. -/
theorem chunks_eq_of_length_le {size' : ℕ} (hsize : 2 ≤ size) (hle : size ≤ size')
    (hchunks : ∀ chunk ∈ chunks size' text, chunk.length ≤ size - 1) :
    chunks size text = chunks size' text := by
  induction h : text.length using Nat.strong_induction_on generalizing text with
  | _ n ih =>
    by_cases htext : text = []
    · subst htext
      rfl
    · rw [chunks_eq (hsize.trans hle) htext, List.forall_mem_cons] at hchunks
      obtain ⟨hfirst, hrest⟩ := hchunks
      have hsame := takeLine_eq_of_length_le (Nat.sub_le_sub_right hle 1) hfirst
      have hroom : 0 < size' - 1 := by omega
      have hlt := length_takeLine_lt hroom htext
      rw [chunks_eq hsize htext, chunks_eq (hsize.trans hle) htext, hsame,
        ih _ (h ▸ hlt) hrest rfl]

theorem length_le_of_mem_lines {line : List UInt8} (h : line ∈ lines text) :
    line.length ≤ text.length := by
  have hroom : 2 ≤ text.length + 2 := by omega
  have hflat := congrArg List.length (flatten_chunks hroom text)
  calc line.length ≤ (chunks (text.length + 2) text).flatten.length :=
        (List.sublist_flatten_of_mem h).length_le
    _ = text.length := hflat

/-- When every line fits the buffer, the chunks are the lines. -/
theorem chunks_eq_lines (hsize : 2 ≤ size) (hlines : ∀ line ∈ lines text, line.length ≤ size - 1) :
    chunks size text = lines text := by
  rcases Nat.le_total size (text.length + 2) with hle | hle
  · exact chunks_eq_of_length_le hsize hle hlines
  · refine (chunks_eq_of_length_le (by omega) hle fun chunk hchunk => ?_).symm
    have hflat := congrArg List.length (flatten_chunks hsize text)
    calc chunk.length ≤ (chunks size text).flatten.length :=
          (List.sublist_flatten_of_mem hchunk).length_le
      _ = text.length := hflat
      _ ≤ text.length + 2 - 1 := by omega

end Stream
