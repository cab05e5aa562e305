import AgentResources.Foundations.Stream

/-!
# Scanning a stream for entries

A loop over `fgets` takes entries out of each chunk on its own. `scan` is what it takes, each entry
with the offset of the chunk it is from. A line longer than the buffer comes in several chunks, and
the loop cannot tell a later one from a line: `scan_chunks_eq_iff` says when scanning the chunks is
scanning the lines.

## Main results

* `chunks_eq_flatMap`: the chunks of a stream are those of its lines, one line after the other;
* `scan_chunks_eq_iff`: what is taken from the chunks, and where, is what is taken from the lines
  iff every line is taken whole (`TakenWhole`).
-/

namespace Stream

variable {β : Type*} {f : List UInt8 → List β} {size room : ℕ} {line rest text : List UInt8}

/-! ## Lines -/

theorem takeLine_ne_nil (hroom : 0 < room) (htext : text ≠ []) : (takeLine room text).1 ≠ [] := by
  intro hnil
  have happend := append_takeLine room text
  have hlt := length_takeLine_lt hroom htext
  rw [hnil, List.nil_append] at happend
  rw [happend] at hlt
  exact lt_irrefl _ hlt

theorem ne_nil_of_mem_chunks (hsize : 2 ≤ size) {chunk : List UInt8}
    (h : chunk ∈ chunks size text) : chunk ≠ [] := by
  induction hn : text.length using Nat.strong_induction_on generalizing text with
  | _ n ih =>
    rcases eq_or_ne text [] with rfl | hne
    · simp [chunks, chunksUpTo] at h
    · have hroom : 0 < size - 1 := by omega
      rw [chunks_eq hsize hne, List.mem_cons] at h
      rcases h with rfl | h
      · exact takeLine_ne_nil hroom hne
      · exact ih _ (hn ▸ length_takeLine_lt hroom hne) h rfl

/-- `line` is the first line of a stream that goes on with `rest`. -/
structure IsLine (line rest : List UInt8) : Prop where
  newline_notMem : newline ∉ line.dropLast
  ends : line.getLast? = some newline ∨ rest = []

/-- Reading into a buffer takes a first part of the line, or all of it. -/
theorem IsLine.takeLine_append (h : IsLine line rest) (room : ℕ) :
    takeLine room (line ++ rest) = (line.take room, line.drop room ++ rest) := by
  induction line generalizing room with
  | nil =>
    obtain rfl : rest = [] := h.ends.resolve_left (by simp)
    cases room <;> rfl
  | cons b line ih =>
    cases room with
    | zero => rfl
    | succ room =>
      rw [List.cons_append, takeLine, List.take_succ_cons, List.drop_succ_cons]
      split
      · next hb =>
        -- a newline can only be the last byte
        have hnil : line = [] := by
          by_contra hne
          refine h.newline_notMem ?_
          rw [List.dropLast_cons_of_ne_nil hne, hb]
          exact List.mem_cons_self
        subst hnil
        simp
      · next hb =>
        -- the rest of a line is one, unless nothing is left of it
        have htail : IsLine line rest := by
          rcases eq_or_ne line [] with rfl | hne
          · refine ⟨by simp, .inr (h.ends.resolve_left ?_)⟩
            simpa using hb
          · refine ⟨fun hmem => h.newline_notMem ?_, ?_⟩
            · rw [List.dropLast_cons_of_ne_nil hne]
              exact List.mem_cons_of_mem b hmem
            · rw [← List.getLast?_cons_of_ne_nil hne]
              exact h.ends
        rw [ih htail]

/-- What is left of a line after its first bytes is a line. -/
theorem IsLine.drop (h : IsLine line rest) {n : ℕ} (hlt : n < line.length) :
    IsLine (line.drop n) rest := by
  refine ⟨fun hmem => h.newline_notMem ?_, ?_⟩
  · rw [List.dropLast_drop_eq_drop_dropLast] at hmem
    exact List.mem_of_mem_drop hmem
  · rw [List.getLast?_drop, if_neg (Nat.not_le.mpr hlt)]
    exact h.ends

theorem IsLine.alone (h : IsLine line rest) : IsLine line [] := ⟨h.newline_notMem, .inr rfl⟩

/-- A buffer with room for the whole stream reads its first line. -/
theorem isLine_takeLine (h : text.length ≤ room) :
    IsLine (takeLine room text).1 (takeLine room text).2 := by
  induction room generalizing text with
  | zero =>
    obtain rfl := List.length_eq_zero_iff.mp (Nat.le_zero.mp h)
    exact ⟨by simp [takeLine], .inr rfl⟩
  | succ room ih =>
    cases text with
    | nil => exact ⟨by simp [takeLine], .inr rfl⟩
    | cons b text =>
      rw [takeLine]
      split
      · next hb => exact ⟨by simp, .inl (by simp [hb])⟩
      · next hb =>
        obtain ⟨hnot, hends⟩ := ih (Nat.le_of_succ_le_succ h)
        rcases eq_or_ne (takeLine room text).1 [] with hnil | hne
        · rw [hnil] at hends ⊢
          exact ⟨by simp, .inr (hends.resolve_left (by simp))⟩
        · refine ⟨?_, ?_⟩
          · rw [List.dropLast_cons_of_ne_nil hne, List.mem_cons, not_or]
            exact ⟨fun h => hb h.symm, hnot⟩
          · rw [List.getLast?_cons_of_ne_nil hne]
            exact hends

/-- The lines of a stream that is not at its end: the first, and those of the rest. -/
theorem lines_eq (htext : text ≠ []) :
    ∃ line rest, IsLine line rest ∧ line ≠ [] ∧ text = line ++ rest ∧
      lines text = line :: lines rest := by
  have hroom : 0 < text.length + 1 := Nat.succ_pos _
  have hlt := length_takeLine_lt hroom htext
  refine ⟨_, _, isLine_takeLine (Nat.le_succ _), takeLine_ne_nil hroom htext,
    (append_takeLine (text.length + 1) text).symm, ?_⟩
  rw [lines, chunks_eq (by omega) htext]
  refine congrArg _ (chunks_eq_lines (by omega) fun line hline => ?_)
  refine (length_le_of_mem_lines hline).trans ?_
  show (takeLine (text.length + 1) text).2.length ≤ text.length + 1
  exact hlt.le.trans (Nat.le_succ _)

/-- The chunks of a stream are those of its first line and those of the rest. -/
theorem IsLine.chunks_append (h : IsLine line rest) (hsize : 2 ≤ size) :
    chunks size (line ++ rest) = chunks size line ++ chunks size rest := by
  induction hn : line.length using Nat.strong_induction_on generalizing line with
  | _ n ih =>
    rcases eq_or_ne line [] with rfl | hne
    · rfl
    · have halone := h.alone.takeLine_append (size - 1)
      rw [List.append_nil, List.append_nil] at halone
      rw [chunks_eq hsize (by simp [hne]), chunks_eq hsize hne, h.takeLine_append, halone,
        List.cons_append]
      refine congrArg _ ?_
      -- what is left of the line goes into the next buffers, without the stream behind it
      rcases Nat.lt_or_ge (size - 1) line.length with hlt | hge
      · have hdrop : (line.drop (size - 1)).length < n := by
          rw [List.length_drop]
          omega
        exact ih _ hdrop (h.drop hlt) rfl
      · rw [List.drop_eq_nil_of_le hge]
        rfl

/-- A line that fits the buffer is read at once. -/
theorem IsLine.chunks_eq_singleton (h : IsLine line []) (hne : line ≠ []) (hsize : 2 ≤ size)
    (hle : line.length ≤ size - 1) : chunks size line = [line] := by
  have htake := h.takeLine_append (size - 1)
  rw [List.append_nil, List.append_nil, List.take_of_length_le hle,
    List.drop_eq_nil_of_le hle] at htake
  rw [chunks_eq hsize hne, htake]
  rfl

/-- A newline ends the line that has none before it. -/
theorem isLine_concat {content : List UInt8} (h : newline ∉ content) (rest : List UInt8) :
    IsLine (content ++ [newline]) rest := by
  refine ⟨?_, .inl (by simp)⟩
  rwa [List.dropLast_concat]

/-- A line that is written is read up to the size of the buffer first, and what is read later stands
behind that. -/
theorem chunks_concat (hsize : 2 ≤ size) {content : List UInt8} (h : newline ∉ content) :
    ∃ later, chunks size (content ++ [newline]) = (content ++ [newline]).take (size - 1) :: later ∧
      ∀ chunk ∈ later, chunk ⊆ content.drop (size - 1) ++ [newline] := by
  have hne : content ++ [newline] ≠ [] := by simp
  have htake := (isLine_concat h []).takeLine_append (size - 1)
  rw [List.append_nil, List.append_nil] at htake
  refine ⟨chunks size ((content ++ [newline]).drop (size - 1)), ?_, fun chunk hchunk b hb => ?_⟩
  · rw [chunks_eq hsize hne, htake]
  · have hmem : b ∈ (content ++ [newline]).drop (size - 1) := by
      rw [← flatten_chunks hsize ((content ++ [newline]).drop (size - 1))]
      exact List.mem_flatten.mpr ⟨chunk, hchunk, hb⟩
    rw [List.drop_append] at hmem
    rcases List.mem_append.mp hmem with hmem | hmem
    · exact List.mem_append_left _ hmem
    · exact List.mem_append_right _ (List.mem_of_mem_drop hmem)

/-- The first bytes of a line begin with a key only if the line does. -/
theorem not_isPrefixOf_take_concat {key content : List UInt8} (hkey : newline ∉ key)
    (hnot : ¬ key <+: content) (n : ℕ) : ¬ key.isPrefixOf ((content ++ [newline]).take n) := by
  rw [List.isPrefixOf_iff_prefix]
  intro hpre
  rcases List.prefix_concat_iff.mp (hpre.trans (List.take_prefix _ _)) with heq | hshort
  · refine hkey ?_
    rw [heq]
    exact List.mem_append_right _ List.mem_cons_self
  · exact hnot hshort

/-- A text written line by line is read line by line. -/
theorem chunks_flatMap_concat (hsize : 2 ≤ size) {contents : List (List UInt8)}
    (h : ∀ content ∈ contents, newline ∉ content) :
    chunks size (contents.flatMap (· ++ [newline])) =
      contents.flatMap fun content => chunks size (content ++ [newline]) := by
  induction contents with
  | nil => rfl
  | cons content contents ih =>
    obtain ⟨hcontent, hcontents⟩ := List.forall_mem_cons.mp h
    rw [List.flatMap_cons, List.flatMap_cons, (isLine_concat hcontent _).chunks_append hsize,
      ih hcontents]

/-- The chunks of a stream are those of its lines, one line after the other. -/
theorem chunks_eq_flatMap (hsize : 2 ≤ size) (text : List UInt8) :
    chunks size text = (lines text).flatMap (chunks size) := by
  induction hn : text.length using Nat.strong_induction_on generalizing text with
  | _ n ih =>
    rcases eq_or_ne text [] with rfl | hne
    · rfl
    · obtain ⟨line, rest, hline, hlne, rfl, hlines⟩ := lines_eq hne
      have hlt : rest.length < n := by
        have := List.length_pos_of_ne_nil hlne
        rw [List.length_append] at hn
        omega
      rw [hline.chunks_append hsize, hlines, List.flatMap_cons, ih _ hlt rest rfl]

theorem isLine_of_mem_lines (h : line ∈ lines text) : IsLine line [] ∧ line ≠ [] := by
  induction hn : text.length using Nat.strong_induction_on generalizing text with
  | _ n ih =>
    rcases eq_or_ne text [] with rfl | hne
    · simp [lines, chunks, chunksUpTo] at h
    · obtain ⟨first, rest, hfirst, hfirstNe, rfl, hlines⟩ := lines_eq hne
      rw [hlines, List.mem_cons] at h
      rcases h with rfl | h
      · exact ⟨hfirst.alone, hfirstNe⟩
      · refine ih _ ?_ h rfl
        have := List.length_pos_of_ne_nil hfirstNe
        rw [List.length_append] at hn
        omega

/-! ## Lines that fit -/

/-- Every line, less its newline, is shorter than a buffer of `size` bytes. -/
def ShortLines (size : ℕ) (text : List UInt8) : Prop :=
  ∀ line ∈ lines text, (line.takeWhile (· ≠ newline)).length < size

/-- A line that fits is read at once, or its newline comes alone after it. -/
theorem IsLine.chunks_of_short (h : IsLine line []) (hne : line ≠ []) (hsize : 2 ≤ size)
    (hshort : (line.takeWhile (· ≠ newline)).length < size) :
    chunks size line = [line] ∨
      ∃ content, line = content ++ [newline] ∧ chunks size line = [content, [newline]] := by
  have hnil : chunks size [] = [] := rfl
  have htake := h.takeLine_append (size - 1)
  rw [List.append_nil, List.append_nil] at htake
  rw [chunks_eq hsize hne, htake]
  rcases Nat.lt_or_ge (size - 1) line.length with hlt | hge
  · -- a line with this many bytes ends in a newline
    refine .inr ⟨line.dropLast, ?_⟩
    have hcontent : line.dropLast.takeWhile (· ≠ newline) = line.dropLast := by
      rw [List.takeWhile_eq_self_iff]
      intro b hb
      rw [decide_eq_true_eq]
      exact fun hb' => h.newline_notMem (hb' ▸ hb)
    have hsplit : line.dropLast ++ [line.getLast hne] = line := List.dropLast_append_getLast hne
    have hlen : line.dropLast.length = line.length - 1 := List.length_dropLast
    have hlast : line.getLast hne = newline := by
      by_contra hlast
      rw [← hsplit, List.takeWhile_append_of_pos (List.takeWhile_eq_self_iff.mp hcontent)] at hshort
      simp [hlast] at hshort
      omega
    rw [hlast] at hsplit
    have hle : line.length ≤ size := by
      rw [← hsplit, List.takeWhile_append_of_pos (List.takeWhile_eq_self_iff.mp hcontent)] at hshort
      simp at hshort
      omega
    have hcut : size - 1 = line.dropLast.length := by omega
    refine ⟨hsplit.symm, ?_⟩
    -- so the buffer is full right before the newline
    rw [hcut, ← hsplit, List.dropLast_concat, List.take_left, List.drop_left]
    rw [chunks_eq hsize (List.cons_ne_nil _ _)]
    obtain ⟨room, hroom⟩ : ∃ room, size - 1 = room + 1 := ⟨size - 2, by omega⟩
    rw [hroom, takeLine, if_pos rfl]
    rfl
  · left
    rw [List.take_of_length_le hge, List.drop_eq_nil_of_le hge, hnil]

/-- A loop over the chunks finds what a loop over the lines would, if it finds as much in a line
without its newline, and nothing in a newline. -/
theorem filterMap_chunks_of_short {f : List UInt8 → Option β} (hsize : 2 ≤ size)
    (hshort : ShortLines size text) (hnewline : f [newline] = none)
    (hcut : ∀ content, content ++ [newline] ∈ lines text → f content = f (content ++ [newline])) :
    (chunks size text).filterMap f = (lines text).filterMap f := by
  have hchunks : ∀ line ∈ lines text, (chunks size line).filterMap f = (f line).toList := by
    intro line hline
    obtain ⟨hisLine, hne⟩ := isLine_of_mem_lines hline
    rcases hisLine.chunks_of_short hne hsize (hshort line hline) with hone | ⟨content, rfl, htwo⟩
    · rw [hone]
      cases hf : f line <;> simp [hf]
    · rw [htwo, ← hcut content hline]
      cases hf : f content <;> simp [hf, hnewline]
  rw [chunks_eq_flatMap hsize, List.filterMap_flatMap, List.filterMap_eq_flatMap_toList]
  exact List.flatMap_congr hchunks

/-! ## Entries -/

/-- The entries `f` takes from some chunks, each with the offset of its chunk; the first chunk is at
`offset`. -/
def scan (f : List UInt8 → List β) : ℕ → List (List UInt8) → List (ℕ × β)
  | _, [] => []
  | offset, chunk :: chunks =>
    (f chunk).map (offset, ·) ++ scan f (offset + chunk.length) chunks

/-- A line is taken whole: its first chunk has the entries of the line, and no later one has any. -/
def TakenWhole (size : ℕ) (f : List UInt8 → List β) (line : List UInt8) : Prop :=
  ∀ first later, chunks size line = first :: later →
    f first = f line ∧ ∀ chunk ∈ later, f chunk = []

instance [DecidableEq β] (size : ℕ) (f : List UInt8 → List β) (line : List UInt8) :
    Decidable (TakenWhole size f line) :=
  match h : chunks size line with
  | [] => .isTrue fun first later hcons => by rw [h] at hcons; cases hcons
  | first :: later =>
    decidable_of_iff (f first = f line ∧ ∀ chunk ∈ later, f chunk = []) ⟨fun hwhole => by
      intro first' later' hcons
      rw [h] at hcons
      cases hcons
      exact hwhole, fun hwhole => hwhole first later h⟩

theorem scan_append (offset : ℕ) (as bs : List (List UInt8)) :
    scan f offset (as ++ bs) = scan f offset as ++ scan f (offset + as.flatten.length) bs := by
  induction as generalizing offset with
  | nil => rfl
  | cons a as ih =>
    rw [List.cons_append, scan, scan, ih, List.append_assoc, List.flatten_cons,
      List.length_append, Nat.add_assoc]

/-- The entries are those of the chunks, in order. -/
theorem map_snd_scan (offset : ℕ) (cs : List (List UInt8)) :
    (scan f offset cs).map Prod.snd = cs.flatMap f := by
  induction cs generalizing offset with
  | nil => rfl
  | cons c cs ih =>
    rw [scan, List.map_append, ih, List.map_map, List.flatMap_cons]
    simp

/-- An entry's offset is in the chunks. -/
theorem bounds_of_mem_scan {offset : ℕ} {cs : List (List UInt8)} (hcs : ∀ c ∈ cs, c ≠ [])
    {e : ℕ × β} (he : e ∈ scan f offset cs) :
    offset ≤ e.1 ∧ e.1 < offset + cs.flatten.length := by
  induction cs generalizing offset with
  | nil => simp [scan] at he
  | cons c cs ih =>
    obtain ⟨hc, hcs⟩ := List.forall_mem_cons.mp hcs
    have hpos := List.length_pos_of_ne_nil hc
    rw [List.flatten_cons, List.length_append]
    rw [scan, List.mem_append] at he
    rcases he with he | he
    · obtain ⟨b, -, rfl⟩ := List.mem_map.mp he
      exact ⟨le_rfl, by dsimp only; omega⟩
    · have := ih hcs he
      omega

/-- Nothing is taken iff every chunk has nothing. -/
theorem scan_eq_nil_iff {offset : ℕ} {cs : List (List UInt8)} :
    scan f offset cs = [] ↔ ∀ c ∈ cs, f c = [] := by
  rw [← List.map_eq_nil_iff (f := Prod.snd), map_snd_scan, List.flatMap_eq_nil_iff]

/-- Two lists of entries that begin below a bound and go on from it are equal in both parts. -/
theorem append_eq_append_iff_of_lt {bound : ℕ} {as as' bs bs' : List (ℕ × β)}
    (has : ∀ a ∈ as, a.1 < bound) (has' : ∀ a ∈ as', a.1 < bound)
    (hbs : ∀ b ∈ bs, bound ≤ b.1) (hbs' : ∀ b ∈ bs', bound ≤ b.1) :
    as ++ bs = as' ++ bs' ↔ as = as' ∧ bs = bs' := by
  -- the entries below the bound are the first part
  have hbelow : ∀ {as bs : List (ℕ × β)}, (∀ a ∈ as, a.1 < bound) → (∀ b ∈ bs, bound ≤ b.1) →
      (as ++ bs).filter (·.1 < bound) = as := by
    intro as bs has hbs
    rw [List.filter_append, List.filter_eq_self.mpr (by simpa using has),
      List.filter_eq_nil_iff.mpr (by simpa using hbs), List.append_nil]
  refine ⟨fun h => ?_, fun ⟨ha, hb⟩ => by rw [ha, hb]⟩
  obtain rfl : as = as' := by rw [← hbelow has hbs, h, hbelow has' hbs']
  exact ⟨rfl, List.append_cancel_left h⟩

/-- What is taken from the chunks of one line is what the line has iff it is taken whole. -/
theorem scan_chunks_line_eq_iff (hsize : 2 ≤ size) (hline : line ≠ []) (offset : ℕ) :
    scan f offset (chunks size line) = (f line).map (offset, ·) ↔ TakenWhole size f line := by
  obtain ⟨first, later, hchunks⟩ := List.exists_cons_of_ne_nil
    (l := chunks size line) (by rw [chunks_eq hsize hline]; exact List.cons_ne_nil _ _)
  have hne : ∀ c ∈ first :: later, c ≠ [] :=
    fun c hc => ne_nil_of_mem_chunks hsize (hchunks ▸ hc)
  obtain ⟨hfirst, hlater⟩ := List.forall_mem_cons.mp hne
  have hpos := List.length_pos_of_ne_nil hfirst
  have hwhole : TakenWhole size f line ↔ f first = f line ∧ ∀ c ∈ later, f c = [] := by
    simp only [TakenWhole, hchunks, List.cons.injEq]
    exact ⟨fun h => h _ _ ⟨rfl, rfl⟩, fun h _ _ ⟨h1, h2⟩ => h1 ▸ h2 ▸ h⟩
  have hat : ∀ l : List β, ∀ e ∈ l.map (offset, ·), e.1 < offset + first.length := by
    intro l e he
    obtain ⟨b, -, rfl⟩ := List.mem_map.mp he
    exact Nat.lt_add_of_pos_right hpos
  have hsplit := append_eq_append_iff_of_lt (hat (f first)) (hat (f line))
    (fun e he => (bounds_of_mem_scan (f := f) hlater he).1)
    (fun e he => absurd he (List.not_mem_nil (a := e)))
  have hinj : Function.Injective fun b : β => (offset, b) := Prod.mk_right_injective offset
  rw [List.append_nil] at hsplit
  rw [hchunks, scan, hsplit, hwhole, hinj.list_map.eq_iff, scan_eq_nil_iff]

/-- Scanning the chunks takes the same entries from the same places as scanning the lines iff every
line is taken whole. -/
theorem scan_chunks_eq_iff (hsize : 2 ≤ size) (offset : ℕ) :
    scan f offset (chunks size text) = scan f offset (lines text) ↔
      ∀ line ∈ lines text, TakenWhole size f line := by
  have hne : ∀ line ∈ lines text, line ≠ [] := fun line => ne_nil_of_mem_chunks (by omega)
  rw [chunks_eq_flatMap hsize]
  generalize lines text = ls at hne ⊢
  induction ls generalizing offset with
  | nil => simp [scan]
  | cons line ls ih =>
    obtain ⟨hline, hls⟩ := List.forall_mem_cons.mp hne
    have hpieces : ∀ c ∈ ls.flatMap (chunks size), c ≠ [] := fun c hc => by
      obtain ⟨l, -, hc⟩ := List.mem_flatMap.mp hc
      exact ne_nil_of_mem_chunks hsize hc
    -- entries of the line are at offsets before its end, those of later lines from it on
    have hbefore : ∀ e ∈ scan f offset (chunks size line), e.1 < offset + line.length := by
      intro e he
      have hlt := (bounds_of_mem_scan (fun c => ne_nil_of_mem_chunks hsize) he).2
      rwa [flatten_chunks hsize] at hlt
    have hbefore' : ∀ e ∈ (f line).map (offset, ·), e.1 < offset + line.length := by
      intro e he
      obtain ⟨b, -, rfl⟩ := List.mem_map.mp he
      exact Nat.lt_add_of_pos_right (List.length_pos_of_ne_nil hline)
    rw [List.flatMap_cons, scan_append, flatten_chunks hsize, scan, List.forall_mem_cons,
      append_eq_append_iff_of_lt hbefore hbefore'
        (fun e he => (bounds_of_mem_scan hpieces he).1)
        (fun e he => (bounds_of_mem_scan hls he).1),
      scan_chunks_line_eq_iff hsize hline]
    exact and_congr_right fun _ => ih (offset + line.length) hls

end Stream
