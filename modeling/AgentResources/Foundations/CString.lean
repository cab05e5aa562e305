import AgentResources.Foundations.Process

/-!
# Strings in fixed-size arrays

A string is the list of its bytes without the terminator. A character array is a vector: a copy
into it and a terminator written to it stop at its end, where the language gives them no meaning,
and it holds a string only if one of its bytes is zero.

## Main definitions

* `cstr`, `strchr`, `spanUntil`: the string functions;
* `copyInto`, `putNul`, `copyString`, `overlay`: writes into an array;
* `NulTerminated`, `fieldString`: reading an array as a string.
-/

/-- What holds of every number below 256 holds of every byte. -/
theorem forall_byte {P : UInt8 → Prop} (h : ∀ n < 256, P (UInt8.ofNat n)) (c : UInt8) : P c := by
  have hc := h c.toNat c.toNat_lt
  rwa [UInt8.ofNat_toNat] at hc

/-- The bytes of an ASCII literal. -/
def ascii (s : String) : List UInt8 := s.toList.map fun c => UInt8.ofNat c.toNat

/-- A decimal digit. -/
def isDigit (c : UInt8) : Bool := 48 ≤ c && c ≤ 57

/-- The string that starts at the first of these bytes. -/
def cstr (buffer : List UInt8) : List UInt8 := buffer.takeWhile (· ≠ 0)

/-- `strchr`: the rest of the string from the first `c` on. -/
def strchr (s : List UInt8) (c : UInt8) : Option (List UInt8) :=
  match s.dropWhile (· ≠ c) with
  | [] => none
  | t => some t

/-- The part of a string before the first byte of `reject`; its length is `strcspn`. -/
def spanUntil (reject s : List UInt8) : List UInt8 := s.takeWhile fun b => !reject.contains b

/-- A line split at its first colon: what follows it, without leading bytes of `blanks`. -/
def afterColon (blanks line : List UInt8) : Option (List UInt8) :=
  (strchr line 58).map fun colon => (colon.drop 1).dropWhile blanks.contains

/-- The value a buffer has for a key, if it has one: what follows the colon and the blanks, up to
the first byte of `reject`. -/
def lineValue (blanks reject : List UInt8) (key : String) (buffer : List UInt8) :
    Option (List UInt8) :=
  if (ascii key).isPrefixOf (cstr buffer) then
    (afterColon blanks (cstr buffer)).map (spanUntil reject)
  else none

theorem zero_notMem_cstr (buffer : List UInt8) : 0 ∉ cstr buffer := by
  intro h
  simpa using List.mem_takeWhile_imp h

/-- A string without a zero byte ends where its bytes do. -/
theorem cstr_of_notMem {buffer : List UInt8} (h : 0 ∉ buffer) : cstr buffer = buffer := by
  rw [cstr, List.takeWhile_eq_self_iff]
  intro b hb
  rw [decide_eq_true_eq]
  exact fun h0 => h (h0 ▸ hb)

/-- A string runs through the bytes before the first zero. -/
theorem cstr_append {pre : List UInt8} (h : 0 ∉ pre) (rest : List UInt8) :
    cstr (pre ++ rest) = pre ++ cstr rest := by
  refine List.takeWhile_append_of_pos fun b hb => ?_
  rw [decide_eq_true_eq]
  exact fun h0 => h (h0 ▸ hb)

/-- A key begins a buffer iff it begins its string. -/
theorem isPrefixOf_cstr {key : List UInt8} (h : 0 ∉ key) (buffer : List UInt8) :
    key.isPrefixOf (cstr buffer) = key.isPrefixOf buffer := by
  rw [Bool.eq_iff_iff, List.isPrefixOf_iff_prefix, List.isPrefixOf_iff_prefix]
  refine ⟨fun hkey => hkey.trans (List.takeWhile_prefix _), ?_⟩
  rintro ⟨rest, rfl⟩
  rw [cstr_append h]
  exact List.prefix_append key (cstr rest)

/-- A byte is looked for behind a string that does not have it. -/
theorem strchr_append {s : List UInt8} {c : UInt8} (hs : c ∉ s) (t : List UInt8) :
    strchr (s ++ t) c = strchr t c := by
  rw [strchr, strchr, List.dropWhile_append_of_pos fun b hb => ?_]
  rw [decide_eq_true_eq]
  exact fun h => hs (h ▸ hb)

/-- What is found begins with the byte. -/
theorem strchr_cons_self (c : UInt8) (t : List UInt8) : strchr (c :: t) c = some (c :: t) := by
  rw [strchr, List.dropWhile_cons_of_neg (by simp)]

/-- A byte is not found iff the string does not have it. -/
theorem strchr_eq_none {s : List UInt8} {c : UInt8} : strchr s c = none ↔ c ∉ s := by
  induction s with
  | nil => simp [strchr]
  | cons b s ih =>
    by_cases hb : b = c
    · subst hb
      simp [strchr_cons_self]
    · have hbehind : strchr (b :: s) c = strchr s c :=
        strchr_append (s := [b]) (by simpa using Ne.symm hb) s
      rw [hbehind, ih, List.mem_cons, not_or]
      exact ⟨fun hs => ⟨Ne.symm hb, hs⟩, fun hs => hs.2⟩

/-- A span runs through the bytes that are not rejected. -/
theorem spanUntil_append {reject s : List UInt8} (hs : ∀ b ∈ s, b ∉ reject) (t : List UInt8) :
    spanUntil reject (s ++ t) = s ++ spanUntil reject t :=
  List.takeWhile_append_of_pos fun b hb => by simpa using hs b hb

/-- A line `key: tail` is split before its tail. -/
theorem afterColon_append {key blanks tail skip : List UInt8} (hkey : 58 ∉ key)
    (hblanks : ∀ b ∈ blanks, b ∈ skip) (htail : ∀ b ∈ tail.head?, b ∉ skip) :
    afterColon skip (key ++ 58 :: (blanks ++ tail)) = some tail := by
  have hstop : tail.dropWhile skip.contains = tail := by
    cases tail with
    | nil => rfl
    | cons b tail => simpa using htail b rfl
  -- the colon is dropped, then the blanks behind it
  rw [afterColon, strchr_append hkey, strchr_cons_self, Option.map_some, List.drop_one,
    List.tail_cons]
  rw [List.dropWhile_append_of_pos fun b hb => List.contains_iff_mem.mpr (hblanks b hb), hstop]

/-- A line is split iff it has a colon. -/
theorem afterColon_isSome {blanks line : List UInt8} :
    (afterColon blanks line).isSome ↔ 58 ∈ line := by
  rw [afterColon, Option.isSome_map, Option.isSome_iff_ne_none, Ne, strchr_eq_none, not_not]

theorem mem_of_mem_strchr {s t : List UInt8} {c b : UInt8} (h : strchr s c = some t) (hb : b ∈ t) :
    b ∈ s := by
  have hdrop : s.dropWhile (· ≠ c) = t := by
    unfold strchr at h
    split at h
    · simp at h
    · exact Option.some.inj h
  exact (List.dropWhile_sublist _).subset (hdrop ▸ hb)

/-- A value cut out of a string has no zero byte. -/
theorem zero_notMem_value {blanks reject buffer val : List UInt8}
    (h : afterColon blanks (cstr buffer) = some val) : 0 ∉ spanUntil reject val := by
  obtain ⟨colon, hcolon, rfl⟩ := Option.map_eq_some_iff.mp h
  intro hzero
  have hval := (List.takeWhile_sublist _).subset hzero
  have hdrop := List.mem_of_mem_drop ((List.dropWhile_sublist _).subset hval)
  exact zero_notMem_cstr buffer (mem_of_mem_strchr hcolon hdrop)

/-- A line without a colon has no value for any key. -/
theorem lineValue_of_afterColon_eq_none {blanks buffer : List UInt8}
    (h : afterColon blanks (cstr buffer) = none) (reject : List UInt8) (key : String) :
    lineValue blanks reject key buffer = none := by
  simp [lineValue, h]

/-- A line without the key at its start has no value for it. -/
theorem lineValue_of_not_prefix {blanks reject line : List UInt8} {key : String}
    (hkey : ¬ (ascii key).isPrefixOf line) : lineValue blanks reject key line = none := by
  refine if_neg fun hpre => hkey ?_
  rw [List.isPrefixOf_iff_prefix] at hpre ⊢
  exact hpre.trans (List.takeWhile_prefix _)

theorem zero_notMem_lineValue {blanks reject buffer value : List UInt8} {key : String}
    (h : lineValue blanks reject key buffer = some value) : 0 ∉ value := by
  unfold lineValue at h
  split at h
  · obtain ⟨val, hval, rfl⟩ := Option.map_eq_some_iff.mp h
    exact zero_notMem_value hval
  · simp at h

/-- A value is no longer than its line. -/
theorem length_lineValue_le {blanks reject buffer value : List UInt8} {key : String}
    (h : lineValue blanks reject key buffer = some value) : value.length ≤ buffer.length := by
  unfold lineValue afterColon strchr at h
  split at h
  · obtain ⟨val, hval, rfl⟩ := Option.map_eq_some_iff.mp h
    obtain ⟨colon, hcolon, rfl⟩ := Option.map_eq_some_iff.mp hval
    have hdrop : colon.length ≤ (cstr buffer).length := by
      split at hcolon
      · simp at hcolon
      · cases hcolon
        exact (List.dropWhile_sublist _).length_le
    calc (spanUntil reject ((colon.drop 1).dropWhile blanks.contains)).length
        ≤ ((colon.drop 1).dropWhile blanks.contains).length :=
          (List.takeWhile_sublist _).length_le
      _ ≤ (colon.drop 1).length := (List.dropWhile_sublist _).length_le
      _ ≤ colon.length := (List.drop_sublist _ _).length_le
      _ ≤ (cstr buffer).length := hdrop
      _ ≤ buffer.length := (List.takeWhile_sublist _).length_le
  · simp at h

/-! ### A last byte -/

theorem strchr_concat {s : List UInt8} {b c : UInt8} (hc : c ≠ b) :
    strchr (s ++ [c]) b = (strchr s b).map (· ++ [c]) := by
  have hstop : [c].dropWhile (· ≠ b) = [] := by simp [hc]
  rw [strchr, strchr, List.dropWhile_append, hstop]
  cases s.dropWhile (· ≠ b) with
  | nil => rfl
  | cons a t => rfl

theorem afterColon_concat {blanks line : List UInt8} {c : UInt8} (hc : c ≠ 58)
    (hblanks : c ∉ blanks) :
    afterColon blanks (line ++ [c]) = (afterColon blanks line).map (· ++ [c]) := by
  have hstop : [c].dropWhile blanks.contains = [c] := by
    rw [List.dropWhile_cons_of_neg (by simpa using hblanks)]
  rw [afterColon, afterColon, strchr_concat hc, strchr]
  cases line.dropWhile (· ≠ 58) with
  | nil => rfl
  | cons a t =>
    simp only [Option.map_some, List.cons_append, List.drop_one, List.tail_cons,
      List.dropWhile_append, hstop]
    cases t.dropWhile blanks.contains with
    | nil => rfl
    | cons a t => rfl

theorem spanUntil_concat {reject val : List UInt8} {c : UInt8} (hc : c ∈ reject) :
    spanUntil reject (val ++ [c]) = spanUntil reject val := by
  have hstop : [c].takeWhile (fun b => !reject.contains b) = [] :=
    List.takeWhile_cons_of_neg (by simpa using hc)
  rw [spanUntil, spanUntil, List.takeWhile_append, hstop, List.append_nil]
  split
  · next hall => exact ((List.takeWhile_prefix _).eq_of_length hall).symm
  · rfl

/-- A last byte at which every value ends is in none, so a line has the same values without it. -/
theorem lineValue_concat {blanks reject line : List UInt8} {key : String} {c : UInt8}
    (hreject : c ∈ reject) (hblanks : c ∉ blanks) (hkey : c ∉ ascii key) (hcolon : c ≠ 58)
    (hzero : c ≠ 0) :
    lineValue blanks reject key (line ++ [c]) = lineValue blanks reject key line := by
  by_cases hmem : 0 ∈ line
  · -- the string ends before the byte
    have hcstr : cstr (line ++ [c]) = cstr line := by
      obtain ⟨pre, post, rfl, hpre⟩ := List.eq_append_cons_of_mem hmem
      rw [List.append_assoc, cstr_append hpre, cstr_append hpre]
      rfl
    rw [lineValue, lineValue, hcstr]
  · have hcstr : cstr (line ++ [c]) = line ++ [c] := by
      refine cstr_of_notMem fun h => ?_
      simp [hmem, hzero.symm] at h
    -- the byte is in no key, so the line begins with a key iff it does without the byte
    have hpre : (ascii key).isPrefixOf (line ++ [c]) = (ascii key).isPrefixOf line := by
      rw [Bool.eq_iff_iff, List.isPrefixOf_iff_prefix, List.isPrefixOf_iff_prefix,
        List.prefix_concat_iff]
      refine or_iff_right fun h => hkey ?_
      rw [h]
      exact List.mem_append_right _ List.mem_cons_self
    rw [lineValue, lineValue, hcstr, cstr_of_notMem hmem, hpre, afterColon_concat hcolon hblanks,
      Option.map_map]
    refine if_congr Iff.rfl (congrArg (fun f => Option.map f _) ?_) rfl
    ext1 val
    exact spanUntil_concat hreject

/-! ## Character arrays -/

variable {n : ℕ}

/-- The array with its first bytes replaced by `src`. -/
def overlay (field : Vector UInt8 n) (src : List UInt8) : Vector UInt8 n :=
  Vector.ofFn fun i => src.getD i field[i]

theorem getElem_overlay (field : Vector UInt8 n) (src : List UInt8) (i : ℕ) (hi : i < n) :
    (overlay field src)[i] = src.getD i field[i] := by
  simp [overlay]

/-- `memcpy` of `src` into an array. -/
def copyInto (field : Vector UInt8 n) (src : List UInt8) : Except Halt (Vector UInt8 n) :=
  if src.length ≤ n then .ok (overlay field src) else .error (.undefined .overrun)

/-- `field[i] = '\0'` -/
def putNul (field : Vector UInt8 n) (i : ℕ) : Except Halt (Vector UInt8 n) :=
  if h : i < n then .ok (field.set i 0) else .error (.undefined .overrun)

/-- `memcpy` of `src` into an array, and a terminator after it. -/
def copyString (field : Vector UInt8 n) (src : List UInt8) : Except Halt (Vector UInt8 n) := do
  let field ← copyInto field src
  putNul field src.length

/-- The array holds a string: one of its bytes is zero. -/
def NulTerminated (field : Vector UInt8 n) : Prop := ∃ i, ∃ h : i < n, field[i] = 0

/-- The string an array holds, when it holds one. -/
def fieldString (field : Vector UInt8 n) : Option (List UInt8) :=
  if field.toList.contains 0 then some (cstr field.toList) else none

theorem fieldString_isSome {field : Vector UInt8 n} :
    (fieldString field).isSome ↔ NulTerminated field := by
  unfold fieldString NulTerminated
  split
  · next h =>
    simpa [List.mem_iff_getElem] using h
  · next h =>
    simpa [List.mem_iff_getElem] using h

/-- A copy goes through iff the bytes fit. -/
theorem copyInto_eq_ok {field field' : Vector UInt8 n} {src : List UInt8} :
    copyInto field src = .ok field' ↔ src.length ≤ n ∧ field' = overlay field src := by
  unfold copyInto
  split <;> simp_all [eq_comm]

theorem putNul_eq_ok {field field' : Vector UInt8 n} {i : ℕ} :
    putNul field i = .ok field' ↔ ∃ h : i < n, field' = field.set i 0 := by
  unfold putNul
  split <;> simp_all [eq_comm]

theorem overlay_append_zero {field : Vector UInt8 n} {src : List UInt8} (h : src.length < n) :
    overlay field (src ++ [0]) = (overlay field src).set src.length 0 := by
  ext i hi
  rw [Vector.getElem_set, getElem_overlay, getElem_overlay]
  split
  · next heq => simp [← heq]
  · next hne =>
    -- before the terminator a byte is of the string, behind it of the old array
    rcases Nat.lt_or_gt_of_ne (Ne.symm hne) with hlt | hgt
    · rw [List.getD_append _ _ _ _ hlt]
    · rw [List.getD_eq_default _ _ hgt.le, List.getD_eq_default _ _ (by simpa using hgt)]

/-- A string is copied iff there is room for it and its terminator. -/
theorem copyString_eq_ok {field field' : Vector UInt8 n} {src : List UInt8} :
    copyString field src = .ok field' ↔ src.length < n ∧ field' = overlay field (src ++ [0]) := by
  simp only [copyString, Except.bind_eq_ok, copyInto_eq_ok, putNul_eq_ok]
  constructor
  · rintro ⟨_, ⟨-, rfl⟩, h, rfl⟩
    exact ⟨h, (overlay_append_zero h).symm⟩
  · rintro ⟨h, rfl⟩
    exact ⟨_, ⟨h.le, rfl⟩, h, overlay_append_zero h⟩

theorem copyString_of_lt {src : List UInt8} (field : Vector UInt8 n) (h : src.length < n) :
    copyString field src = .ok (overlay field (src ++ [0])) :=
  copyString_eq_ok.mpr ⟨h, rfl⟩

/-- Copying a string fails only by running past the array. -/
theorem eq_overrun_of_copyString {field : Vector UInt8 n} {src : List UInt8} {e : Halt}
    (h : copyString field src = .error e) : e = .undefined .overrun := by
  unfold copyString copyInto putNul at h
  rcases Except.bind_eq_error.mp h with hcopy | ⟨_, -, hnul⟩
  · split at hcopy
    · cases hcopy
    · exact (Except.error.inj hcopy).symm
  · split at hnul
    · cases hnul
    · exact (Except.error.inj hnul).symm

theorem nulTerminated_overlay_append_zero {field : Vector UInt8 n} {src : List UInt8}
    (h : src.length < n) : NulTerminated (overlay field (src ++ [0])) :=
  ⟨src.length, h, by simp [getElem_overlay]⟩

/-- A byte of an array is zero after copying a string into it iff the string does not reach it and
it was zero before. -/
theorem getElem_overlay_eq_zero {field : Vector UInt8 n} {src : List UInt8} (hsrc : 0 ∉ src)
    {i : ℕ} (hi : i < n) : (overlay field src)[i] = 0 ↔ src.length ≤ i ∧ field[i] = 0 := by
  rw [getElem_overlay]
  rcases Nat.lt_or_ge i src.length with hlt | hge
  · have hne : src.getD i field[i] ≠ 0 := by
      rw [List.getD_eq_getElem _ _ hlt]
      exact fun h0 => hsrc (h0 ▸ List.getElem_mem hlt)
    exact iff_of_false hne fun h => absurd h.1 (Nat.not_le.mpr hlt)
  · rw [List.getD_eq_default _ _ hge]
    exact (and_iff_right hge).symm

/-- After copying strings over one another, an array holds a string iff it had a zero byte that
none of them reached. -/
theorem nulTerminated_foldl_overlay {field : Vector UInt8 n} {values : List (List UInt8)}
    (hvalues : ∀ v ∈ values, 0 ∉ v) :
    NulTerminated (values.foldl overlay field) ↔
      ∃ i, ∃ h : i < n, (∀ v ∈ values, v.length ≤ i) ∧ field[i] = 0 := by
  unfold NulTerminated
  refine exists_congr fun i => exists_congr fun h => ?_
  -- for a byte of the array, by induction on the strings: it stays zero under each in turn
  induction values generalizing field with
  | nil => simp
  | cons v values ih =>
    obtain ⟨hv, hvalues⟩ := List.forall_mem_cons.mp hvalues
    rw [List.foldl_cons, ih hvalues, getElem_overlay_eq_zero hv h, List.forall_mem_cons]
    tauto

/-! ## Strings copied over one another -/

/-- An array begins with the string `t` and its terminator. -/
def HoldsString (field : Vector UInt8 n) (t : List UInt8) : Prop :=
  field.toList.take (t.length + 1) = t ++ [0]

theorem toList_overlay_zero {t : List UInt8} (h : t.length ≤ n) :
    (overlay (Vector.replicate n 0) t).toList = t ++ List.replicate (n - t.length) 0 := by
  refine List.ext_getElem (by simp [h]) fun i hi hi' => ?_
  rw [Vector.getElem_toList, getElem_overlay, Vector.getElem_replicate, List.getElem_append]
  split
  · next hlt => exact List.getD_eq_getElem _ _ hlt
  · next hge =>
    rw [List.getD_eq_default _ _ (Nat.not_lt.mp hge), List.getElem_replicate]

/-- A copy into zeroed bytes is terminated by the first of them it leaves. -/
theorem holdsString_overlay {t : List UInt8} (h : t.length < n) :
    HoldsString (overlay (Vector.replicate n 0) t) t := by
  obtain ⟨k, hk⟩ := Nat.exists_eq_succ_of_ne_zero (Nat.sub_ne_zero_of_lt h)
  rw [HoldsString, toList_overlay_zero h.le, hk, List.replicate_succ, List.take_append]
  simp

/-- A copy of all but the last byte gives the string iff that byte is zero as well. -/
theorem holdsString_overlay_dropLast {t : List UInt8} (h : t.length < n) (hne : t ≠ []) :
    HoldsString (overlay (Vector.replicate n 0) t.dropLast) t ↔ t.getLast? = some 0 := by
  obtain ⟨init, last, rfl⟩ : ∃ init last, t = init ++ [last] :=
    ⟨_, _, (List.dropLast_append_getLast hne).symm⟩
  rw [List.length_append, List.length_singleton] at h
  obtain ⟨k, hk⟩ : ∃ k, n - init.length = k + 2 := ⟨n - init.length - 2, by omega⟩
  have hcopied : (init ++ List.replicate (n - init.length) 0).take (init.length + 2) =
      init ++ [0, 0] := by
    rw [hk, List.take_append, List.take_of_length_le (by omega)]
    simp [List.replicate_succ]
  rw [HoldsString, List.dropLast_concat, toList_overlay_zero (by omega), List.length_append,
    List.length_singleton, hcopied, List.append_assoc, List.append_cancel_left_eq,
    List.getLast?_concat]
  simp [eq_comm]

theorem cstr_append_zero {s : List UInt8} (h : 0 ∉ s) (rest : List UInt8) :
    cstr (s ++ 0 :: rest) = s := by
  rw [cstr_append h]
  simp [cstr]

/-- The bytes up to the first zero are the string before it. -/
theorem cstr_eq_iff {buffer s : List UInt8} (hzero : 0 ∈ buffer) :
    cstr buffer = s ↔ 0 ∉ s ∧ ∃ rest, buffer = s ++ 0 :: rest := by
  constructor
  · rintro rfl
    refine ⟨zero_notMem_cstr buffer, ?_⟩
    obtain ⟨pre, rest, rfl, hpre⟩ := List.eq_append_cons_of_mem hzero
    exact ⟨rest, by rw [cstr_append_zero hpre]⟩
  · rintro ⟨hs, rest, rfl⟩
    exact cstr_append_zero hs rest

/-- The string of an array ends at its first zero byte. -/
theorem fieldString_eq_some {field : Vector UInt8 n} {s : List UInt8} :
    fieldString field = some s ↔ 0 ∉ s ∧ ∃ h : s.length < n, field[s.length] = 0 ∧
      ∀ j (hj : j < s.length), field[j] = s[j] := by
  constructor
  · intro h
    unfold fieldString at h
    split at h
    · next hzero =>
      obtain ⟨hs, rest, hfield⟩ := (cstr_eq_iff (by simpa using hzero)).mp (Option.some.inj h)
      have hlen : n = s.length + (rest.length + 1) := by
        rw [← field.length_toList, hfield, List.length_append, List.length_cons]
      have hget : ∀ j (hj : j < n) (b : UInt8), (s ++ 0 :: rest)[j]? = some b → field[j] = b := by
        intro j hj b hb
        rw [← hfield, List.getElem?_eq_getElem (by simpa using hj)] at hb
        simpa using hb
      refine ⟨hs, by omega, hget _ _ _ (by simp), fun j hj => hget _ _ _ ?_⟩
      rw [List.getElem?_append_left hj, List.getElem?_eq_getElem hj]
    · cases h
  · rintro ⟨hs, hlt, hend, hbytes⟩
    have hfield : field.toList = s ++ 0 :: field.toList.drop (s.length + 1) := by
      have htake : field.toList.take s.length = s :=
        List.ext_getElem (by simp [hlt.le]) fun j hj hj' => by simp [hbytes j hj']
      conv_lhs => rw [← List.take_append_drop s.length field.toList, htake,
        List.drop_eq_getElem_cons (by simpa using hlt), Vector.getElem_toList, hend]
    have hzero : 0 ∈ field.toList := by
      rw [hfield]
      exact List.mem_append_right _ List.mem_cons_self
    rw [fieldString, if_pos (by simpa using hzero), (cstr_eq_iff hzero).mpr ⟨hs, _, hfield⟩]

/-- An array with a zero byte holds the bytes before its first one. -/
theorem fieldString_take {field : Vector UInt8 n} {m : ℕ} (hm : m < n) (hend : field[m] = 0)
    (hbytes : ∀ j (hj : j < m), field[j] ≠ 0) :
    fieldString field = some (field.toList.take m) := by
  have hlen : (field.toList.take m).length = m := by simp [hm.le]
  rw [fieldString_eq_some]
  simp only [hlen]
  refine ⟨fun hzero => ?_, hm, hend, fun j hj => by simp⟩
  obtain ⟨j, hj, hbyte⟩ := List.mem_iff_getElem.mp hzero
  rw [hlen] at hj
  exact hbytes j hj (by simpa using hbyte)

/-- What a copied string and its terminator are read back as. -/
theorem fieldString_overlay_concat_zero {field : Vector UInt8 n} {s : List UInt8} (hs : 0 ∉ s)
    (h : s.length < n) : fieldString (overlay field (s ++ [0])) = some s := by
  refine fieldString_eq_some.mpr ⟨hs, h, ?_, fun j hj => ?_⟩
  · rw [getElem_overlay]
    simp
  · rw [getElem_overlay, List.getD_append _ _ _ _ hj, List.getD_eq_getElem _ _ hj]

/-- What strings leave that are written one over the other, without terminators. -/
def overwrite (strings : List (List UInt8)) : List UInt8 :=
  strings.foldl (fun old s => s ++ old.drop s.length) []

/-- A copy replaces the first bytes of an array. -/
theorem toList_overlay (field : Vector UInt8 n) {src : List UInt8} (h : src.length ≤ n) :
    (overlay field src).toList = src ++ field.toList.drop src.length := by
  refine List.ext_getElem (by simp [h]) fun i hi hi' => ?_
  rw [Vector.getElem_toList, getElem_overlay, List.getElem_append]
  split
  · next hlt => exact List.getD_eq_getElem _ _ hlt
  · next hge =>
    have hle : src.length ≤ i := Nat.not_lt.mp hge
    rw [List.getD_eq_default _ _ hle, List.getElem_drop, Vector.getElem_toList]
    simp only [Nat.add_sub_cancel' hle]

/-- Strings copied over one another into zeroed bytes are read back as what they leave. -/
theorem fieldString_foldl_overlay {strings : List (List UInt8)} (hzero : ∀ s ∈ strings, 0 ∉ s)
    (hlen : ∀ s ∈ strings, s.length < n) (hn : 0 < n) :
    fieldString (strings.foldl overlay (Vector.replicate n 0)) = some (overwrite strings) := by
  -- the array is what is left so far and zeros behind it, one of them at least
  have hfold : ∀ (field : Vector UInt8 n) (old : List UInt8) (zeros : ℕ),
      field.toList = old ++ 0 :: List.replicate zeros 0 → 0 ∉ old →
      fieldString (strings.foldl overlay field) =
        some (strings.foldl (fun old s => s ++ old.drop s.length) old) := by
    induction strings with
    | nil =>
      intro field old zeros hfield hold
      have hmem : 0 ∈ field.toList := by
        rw [hfield]
        exact List.mem_append_right _ List.mem_cons_self
      rw [List.foldl_nil, List.foldl_nil, fieldString, if_pos (by simpa using hmem), hfield,
        cstr_append_zero hold]
    | cons s strings ih =>
      intro field old zeros hfield hold
      obtain ⟨hs, hzero⟩ := List.forall_mem_cons.mp hzero
      obtain ⟨hlt, hlen⟩ := List.forall_mem_cons.mp hlen
      have hn : n = old.length + (zeros + 1) := by
        rw [← field.length_toList, hfield, List.length_append, List.length_cons,
          List.length_replicate]
      obtain ⟨zeros', hzeros'⟩ : ∃ z, zeros + 1 - (s.length - old.length) = z + 1 :=
        Nat.exists_eq_succ_of_ne_zero (by omega)
      refine ih hzero hlen _ (s ++ old.drop s.length) zeros' ?_ ?_
      · rw [toList_overlay field hlt.le, hfield, List.append_assoc, List.drop_append,
          ← List.replicate_succ, ← List.replicate_succ, List.drop_replicate, hzeros']
      · rw [List.mem_append, not_or]
        exact ⟨hs, fun hmem => hold (List.mem_of_mem_drop hmem)⟩
  obtain ⟨zeros, hzeros⟩ := Nat.exists_eq_succ_of_ne_zero hn.ne'
  refine hfold _ [] zeros ?_ (List.not_mem_nil)
  rw [Vector.toList_replicate, hzeros, List.nil_append, List.replicate_succ]

/-- Strings of one length leave the last of them. -/
theorem overwrite_of_length_eq {strings : List (List UInt8)} {len : ℕ}
    (hlen : ∀ s ∈ strings, s.length = len) :
    overwrite strings = strings.getLast?.getD [] := by
  induction strings using List.reverseRecOn with
  | nil => rfl
  | append_singleton strings s ih =>
    obtain ⟨hstrings, hs⟩ := List.forall_mem_append.mp hlen
    have hfit : (overwrite strings).length ≤ s.length := by
      rw [ih hstrings, List.forall_mem_singleton.mp hs]
      cases hlast : strings.getLast? with
      | none => exact Nat.zero_le _
      | some last => exact (hstrings last (List.mem_of_getLast? hlast)).le
    rw [overwrite, List.foldl_append, List.foldl_cons, List.foldl_nil,
      List.getLast?_concat, Option.getD_some]
    change s ++ (overwrite strings).drop s.length = s
    rw [List.drop_eq_nil_of_le hfit, List.append_nil]

/-- The last byte that any of the strings has at position `j`. -/
def lastByte (strings : List (List UInt8)) (j : ℕ) : Option UInt8 :=
  (strings.filterMap (·[j]?)).getLast?

theorem lastByte_append (as bs : List (List UInt8)) (j : ℕ) :
    lastByte (as ++ bs) j = (lastByte bs j).or (lastByte as j) := by
  rw [lastByte, List.filterMap_append, List.getLast?_append]
  rfl

/-- Strings copied over one another leave in each byte the last one they have there. -/
theorem getElem_foldl_overlay (field : Vector UInt8 n) (strings : List (List UInt8)) {j : ℕ}
    (hj : j < n) : (strings.foldl overlay field)[j] = (lastByte strings j).getD field[j] := by
  induction strings generalizing field with
  | nil => rfl
  | cons s strings ih =>
    rw [List.foldl_cons, ih, getElem_overlay, ← List.singleton_append, lastByte_append]
    cases lastByte strings j with
    | some b => rfl
    | none =>
      rw [Option.getD_none, Option.none_or, lastByte, List.getD_eq_getElem?_getD]
      cases hbyte : s[j]? <;> simp [hbyte]

/-- A position has a byte iff one of the strings reaches it. -/
theorem lastByte_eq_none {strings : List (List UInt8)} {j : ℕ} :
    lastByte strings j = none ↔ ∀ s ∈ strings, s.length ≤ j := by
  rw [lastByte, List.getLast?_eq_none_iff, List.filterMap_eq_nil_iff]
  exact forall₂_congr fun s _ => List.getElem?_eq_none_iff

theorem ne_zero_of_lastByte {strings : List (List UInt8)} (h : ∀ s ∈ strings, 0 ∉ s) {j : ℕ}
    {b : UInt8} (hb : lastByte strings j = some b) : b ≠ 0 := by
  obtain ⟨s, hs, hbyte⟩ := List.mem_filterMap.mp (List.mem_of_getLast? hb)
  rintro rfl
  exact h s hs (List.mem_of_getElem? hbyte)
