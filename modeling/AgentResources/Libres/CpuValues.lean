import AgentResources.Libres.CpuReadable

/-!
# The values `cpu_read_amd64` leaves

The reader goes through all lines of `/proc/cpuinfo`, one stanza for each processor, and copies each
value over what its field has, without a terminator. A field therefore has, at each position, the
last byte that any value had there (`lastByte`), and the core count is what the whole line is as a
number. Hence when the fields are the first values, when a second reading forgets the first, and
when the core count is right.

## Main results

* `cpuReadAmd64_first_iff`: each string is the first value of its key iff the last bytes agree with
  it, up to its end;
* `cpuReadAmd64_rereads_iff`: reading a file after another one gives the same as reading it alone
  iff no string reaches beyond the longest new value;
* `cpuReadAmd64_cores_iff`: the core count is that of the file iff it is zero.
-/

namespace AgentResources

variable {h : Host} {out : SysCpu} {text : List UInt8} {n : ℕ}

/-- The values of a text for a key: those of its lines, in order. -/
def textValues (key : String) (text : List UInt8) : List (List UInt8) :=
  (Stream.lines text).filterMap (lineValue [32] [10] key)

/-- Lines that fit the buffer have their values as the reader finds them. -/
theorem keyValues_eq_textValues (hlines : ∀ line ∈ Stream.lines text, line.length < 512)
    (key : String) : keyValues [32] key text = textValues key text := by
  have hchunks : Stream.chunks buffLarge text = Stream.lines text :=
    Stream.chunks_eq_lines (by decide) fun line hline => Nat.le_sub_one_of_lt (hlines line hline)
  rw [keyValues, textValues, hchunks]

theorem zero_notMem_of_mem_keyValues {key : String} {value : List UInt8}
    (hvalue : value ∈ keyValues [32] key text) : 0 ∉ value := by
  obtain ⟨chunk, -, hchunk⟩ := List.mem_filterMap.mp hvalue
  exact zero_notMem_lineValue hchunk

/-- Every value the reader finds for the three keys fits its field. -/
def ValuesFit (text : List UInt8) : Prop :=
  (∀ value ∈ keyValues [32] "vendor_id" text, value.length ≤ 16) ∧
  (∀ value ∈ keyValues [32] "model name" text, value.length ≤ 64) ∧
  (∀ value ∈ keyValues [32] "cpu MHz" text, value.length ≤ 16)

instance (text : List UInt8) : Decidable (ValuesFit text) := inferInstanceAs (Decidable (_ ∧ _))

theorem forall_amd64Fits_iff :
    (∀ chunk ∈ Stream.chunks buffLarge text, Amd64Fits chunk) ↔ ValuesFit text := by
  simp only [Amd64Fits, forall_and, forall_lineFits]
  exact Iff.rfl

/-- The core count after some chunks. -/
def coresOf (cores : UInt32) (text : List UInt8) : UInt32 :=
  (Stream.chunks buffLarge text).foldl coresLine cores

/-- The struct after all chunks, one field at a time. -/
theorem foldl_amd64Next_eq (out : SysCpu) (chunks : List (List UInt8)) :
    chunks.foldl amd64Next out = { out with
      vendor := chunks.foldl (overlayLine [32] "vendor_id") out.vendor
      model := chunks.foldl (overlayLine [32] "model name") out.model
      frequency := chunks.foldl (overlayLine [32] "cpu MHz") out.frequency
      cores := chunks.foldl coresLine out.cores } := by
  induction chunks generalizing out with
  | nil => rfl
  | cons chunk chunks ih =>
    rw [List.foldl_cons, ih]
    rfl

/-- The reader returns iff the values fit, and leaves each field overlaid by its values. -/
theorem cpuReadAmd64_of_file (hfile : h.file .procCpuinfo = some text) {r : ℤ × SysCpu} :
    cpuReadAmd64 h out = .ok r ↔ ValuesFit text ∧ r = (errOk, { out with
      vendor := (keyValues [32] "vendor_id" text).foldl overlay out.vendor
      model := (keyValues [32] "model name" text).foldl overlay out.model
      frequency := (keyValues [32] "cpu MHz" text).foldl overlay out.frequency
      cores := coresOf out.cores text }) := by
  obtain ⟨code, out'⟩ := r
  rw [cpuReadAmd64_eq_ok, ← forall_amd64Fits_iff]
  simp only [hfile, Option.some.injEq, exists_eq_left', foldl_amd64Next_eq, foldl_overlayLine,
    keyValues, coresOf, Prod.mk.injEq]
  tauto

/-! ## The first value of a key -/

/-- A field begins with the first value and its terminator, if there is a value. -/
def HoldsFirst (field : Vector UInt8 n) (values : List (List UInt8)) : Prop :=
  ∀ first, values.head? = some first → fieldString field = some first

/-- At each position of the first value the last byte that any value has there is the byte of the
first value, and none reaches its end. -/
def LastIsFirst (values : List (List UInt8)) : Prop :=
  ∀ first, values.head? = some first → ∀ j ≤ first.length, lastByte values j = first[j]?

/-- Zeroed bytes with the values copied over one another hold the first one iff no later one shows
beside it. -/
theorem holdsFirst_iff {values : List (List UInt8)} (hzero : ∀ value ∈ values, 0 ∉ value)
    (hlen : ∀ value ∈ values, value.length < n) :
    HoldsFirst (values.foldl overlay (Vector.replicate n 0)) values ↔ LastIsFirst values := by
  refine forall_congr' fun first => forall_congr' fun hhead => ?_
  have hmem : first ∈ values := List.mem_of_mem_head? hhead
  have hlt := hlen first hmem
  have hbyte : ∀ j (hj : j < n), (values.foldl overlay (Vector.replicate n 0))[j] =
      (lastByte values j).getD 0 := by
    intro j hj
    rw [getElem_foldl_overlay _ _ hj, Vector.getElem_replicate]
  rw [fieldString_eq_some]
  simp only [hzero first hmem, not_false_eq_true, true_and, hlt, exists_true_left]
  constructor
  · rintro ⟨hend, hbytes⟩ j hj
    rcases eq_or_lt_of_le hj with rfl | hj
    · -- a byte of a value would not be zero
      rw [List.getElem?_eq_none le_rfl]
      cases hlast : lastByte values first.length with
      | none => rfl
      | some b =>
        rw [hbyte, hlast] at hend
        exact absurd hend (ne_zero_of_lastByte hzero hlast)
    · have hfirst := hbytes j hj
      rw [hbyte] at hfirst
      rw [List.getElem?_eq_getElem hj, ← hfirst]
      cases hlast : lastByte values j with
      | none =>
        -- no value reaches this position, not even the first
        exact absurd (lastByte_eq_none.mp hlast first hmem) (Nat.not_le.mpr hj)
      | some b => rfl
  · intro hlast
    refine ⟨?_, fun j hj => ?_⟩
    · rw [hbyte, hlast _ le_rfl, List.getElem?_eq_none le_rfl]
      rfl
    · rw [hbyte, hlast j hj.le, List.getElem?_eq_getElem hj]
      rfl

/-- On a zeroed struct, and with values shorter than their fields, each string is the first value of
its key iff the last bytes agree with it. -/
theorem cpuReadAmd64_first_iff (h : Host) (text : List UInt8)
    (hfile : h.file .procCpuinfo = some text)
    (hlines : ∀ line ∈ Stream.lines text, line.length < 512)
    (hvendor : ∀ value ∈ textValues "vendor_id" text, value.length < 16)
    (hmodel : ∀ value ∈ textValues "model name" text, value.length < 64)
    (hfrequency : ∀ value ∈ textValues "cpu MHz" text, value.length < 16) :
    (∃ out, cpuReadAmd64 h SysCpu.zero = .ok (errOk, out) ∧
        HoldsFirst out.vendor (textValues "vendor_id" text) ∧
        HoldsFirst out.model (textValues "model name" text) ∧
        HoldsFirst out.frequency (textValues "cpu MHz" text)) ↔
      LastIsFirst (textValues "vendor_id" text) ∧ LastIsFirst (textValues "model name" text) ∧
        LastIsFirst (textValues "cpu MHz" text) := by
  have hzero : ∀ key, ∀ value ∈ textValues key text, 0 ∉ value := fun key value hvalue =>
    zero_notMem_of_mem_keyValues ((keyValues_eq_textValues hlines key).symm ▸ hvalue)
  have hfits : ValuesFit text := by
    simp only [ValuesFit, keyValues_eq_textValues hlines]
    exact ⟨fun v hv => (hvendor v hv).le, fun v hv => (hmodel v hv).le,
      fun v hv => (hfrequency v hv).le⟩
  rw [← holdsFirst_iff (hzero "vendor_id") hvendor, ← holdsFirst_iff (hzero "model name") hmodel,
    ← holdsFirst_iff (hzero "cpu MHz") hfrequency]
  simp only [cpuReadAmd64_of_file hfile, hfits, true_and, Prod.mk.injEq, exists_eq_left,
    keyValues_eq_textValues hlines]
  exact Iff.rfl

theorem cpuReadAmd64_first_iff_twoCores :
    let text := ascii "vendor_id\t: A\ncpu MHz\t\t: 9.5\nvendor_id\t: A\ncpu MHz\t\t: 9.5\n"
    ∃ out, cpuReadAmd64 (hostOf text) SysCpu.zero = .ok (errOk, out) ∧
      HoldsFirst out.vendor (textValues "vendor_id" text) ∧
      HoldsFirst out.model (textValues "model name" text) ∧
      HoldsFirst out.frequency (textValues "cpu MHz" text) := by
  intro text
  refine (cpuReadAmd64_first_iff (hostOf text) text rfl (by decide +kernel) (by decide +kernel)
    (by decide +kernel) (by decide +kernel)).mpr ⟨?_, ?_, ?_⟩
  all_goals
    unfold LastIsFirst
    decide +kernel

/-- The frequency of the second processor shows. -/
theorem not_cpuReadAmd64_first :
    ¬ ∀ (h : Host) (text : List UInt8), h.file .procCpuinfo = some text →
      (∀ line ∈ Stream.lines text, line.length < 512) →
      (∀ value ∈ textValues "vendor_id" text, value.length < 16) →
      (∀ value ∈ textValues "model name" text, value.length < 64) →
      (∀ value ∈ textValues "cpu MHz" text, value.length < 16) →
      ∃ out, cpuReadAmd64 h SysCpu.zero = .ok (errOk, out) ∧
        HoldsFirst out.vendor (textValues "vendor_id" text) ∧
        HoldsFirst out.model (textValues "model name" text) ∧
        HoldsFirst out.frequency (textValues "cpu MHz" text) := by
  intro hall
  let text := ascii "cpu MHz\t\t: 1800.000\ncpu MHz\t\t: 2400.000\n"
  obtain ⟨out, hout, -, -, hfrequency⟩ := hall (hostOf text) text rfl (by decide +kernel)
    (by decide +kernel) (by decide +kernel) (by decide +kernel)
  obtain ⟨-, hr⟩ := (cpuReadAmd64_of_file rfl).mp hout
  obtain ⟨-, rfl⟩ := Prod.mk.inj hr
  exact absurd (hfrequency (ascii "1800.000") (by decide +kernel)) (by decide +kernel)

/-! ## Reading again -/

/-- The length of the longest of the values. -/
def longest (values : List (List UInt8)) : ℕ := (values.map List.length).foldr max 0

theorem longest_le {values : List (List UInt8)} {m : ℕ} :
    longest values ≤ m ↔ ∀ value ∈ values, value.length ≤ m := by
  induction values with
  | nil => simp [longest]
  | cons value values ih =>
    rw [List.forall_mem_cons, ← ih]
    exact max_le_iff

/-- Two fields hold the same string. -/
def SameString (field field' : Vector UInt8 n) : Prop :=
  ∃ s, fieldString field = some s ∧ fieldString field' = some s

/-- The string of a field in which only the values of a second file are to show: they have room for
a terminator, no value of the first file is longer than the longest of them, and there the field was
zero. -/
def Forgets (field : Vector UInt8 n) (before after : List (List UInt8)) : Prop :=
  ∃ h : longest after < n, (∀ value ∈ before, value.length ≤ longest after) ∧
    field[longest after] = 0

instance (field : Vector UInt8 n) (before after : List (List UInt8)) :
    Decidable (Forgets field before after) :=
  inferInstanceAs (Decidable (∃ _ : _, _))

/-- Copying the values of two files over a field gives the string that copying those of the second
over zeros does iff they hide the first. -/
theorem sameString_iff {field : Vector UInt8 n} {before after : List (List UInt8)}
    (hbefore : ∀ value ∈ before, 0 ∉ value) (hafter : ∀ value ∈ after, 0 ∉ value) :
    SameString ((before ++ after).foldl overlay field)
        (after.foldl overlay (Vector.replicate n 0)) ↔ Forgets field before after := by
  have hboth : ∀ j (hj : j < n), ((before ++ after).foldl overlay field)[j] =
      ((lastByte after j).or (lastByte before j)).getD field[j] := by
    intro j hj
    rw [getElem_foldl_overlay _ _ hj, lastByte_append]
  have halone : ∀ j (hj : j < n), (after.foldl overlay (Vector.replicate n 0))[j] =
      (lastByte after j).getD 0 := by
    intro j hj
    rw [getElem_foldl_overlay _ _ hj, Vector.getElem_replicate]
  have hnone : ∀ j, lastByte after j = none ↔ longest after ≤ j := fun j => by
    rw [lastByte_eq_none, longest_le]
  constructor
  · rintro ⟨s, hs, hs'⟩
    rw [fieldString_eq_some] at hs hs'
    obtain ⟨hzero, hlt, hend', hbytes'⟩ := hs'
    obtain ⟨_, _, hend, _⟩ := hs
    rw [halone] at hend'
    -- the string alone is as long as the longest value
    have hge : longest after ≤ s.length := by
      rw [← hnone]
      cases hlast : lastByte after s.length with
      | none => rfl
      | some b =>
        rw [hlast] at hend'
        exact absurd hend' (ne_zero_of_lastByte hafter hlast)
    have hle : s.length ≤ longest after := by
      by_contra hgt
      have hbyte := hbytes' _ (Nat.not_le.mp hgt)
      rw [halone, (hnone _).mpr le_rfl] at hbyte
      exact hzero (List.mem_iff_getElem.mpr ⟨_, _, hbyte.symm⟩)
    obtain hlen : s.length = longest after := le_antisymm hle hge
    -- there the field ends, so neither a value of the first file nor the field reaches further
    simp only [hlen] at hend hlt
    rw [hboth _ hlt, (hnone _).mpr le_rfl, Option.none_or] at hend
    cases hlast : lastByte before (longest after) with
    | none =>
      rw [hlast] at hend
      exact ⟨hlt, lastByte_eq_none.mp hlast, hend⟩
    | some b =>
      rw [hlast] at hend
      exact absurd hend (ne_zero_of_lastByte hbefore hlast)
  · rintro ⟨hlt, hshort, hzero⟩
    have hend : (lastByte after (longest after)) = none := (hnone _).mpr le_rfl
    have hinside : ∀ j < longest after, ∃ b, b ≠ 0 ∧ lastByte after j = some b := by
      intro j hj
      obtain ⟨b, hb⟩ := Option.ne_none_iff_exists'.mp fun h => Nat.not_le.mpr hj ((hnone j).mp h)
      exact ⟨b, ne_zero_of_lastByte hafter hb, hb⟩
    -- up to the end of the longest value both fields have the last byte of the second file
    have hsame : ((before ++ after).foldl overlay field).toList.take (longest after) =
        (after.foldl overlay (Vector.replicate n 0)).toList.take (longest after) := by
      refine List.ext_getElem (by simp) fun j hj _ => ?_
      have hlt' : j < longest after := (List.length_take_le _ _).trans_lt' hj
      obtain ⟨b, -, hb⟩ := hinside j hlt'
      rw [List.getElem_take, List.getElem_take, Vector.getElem_toList, Vector.getElem_toList,
        hboth _ (hlt'.trans hlt), halone _ (hlt'.trans hlt), hb]
      rfl
    refine ⟨_, fieldString_take hlt ?_ fun j hj => ?_, ?_⟩
    · rw [hboth _ hlt, hend, Option.none_or, lastByte_eq_none.mpr hshort]
      exact hzero
    · obtain ⟨b, hb, hlast⟩ := hinside j hj
      rw [hboth _ (hj.trans hlt), hlast]
      exact hb
    · rw [hsame]
      refine fieldString_take hlt ?_ fun j hj => ?_
      · rw [halone _ hlt, hend]
        rfl
      · obtain ⟨b, hb, hlast⟩ := hinside j hj
        rw [halone _ (hj.trans hlt), hlast]
        exact hb

/-! ## The core count -/

/-- A line of the core count, with a colon. -/
def IsCoresLine (line : List UInt8) : Prop :=
  (ascii "cpu cores").isPrefixOf (cstr line) ∧ (afterColon [32] (cstr line)).isSome

instance (line : List UInt8) : Decidable (IsCoresLine line) := inferInstanceAs (Decidable (_ ∧ _))

/-- The reader finds a core count. -/
def HasCores (text : List UInt8) : Prop := ∃ line ∈ Stream.chunks buffLarge text, IsCoresLine line

instance (text : List UInt8) : Decidable (HasCores text) :=
  inferInstanceAs (Decidable (∃ line ∈ Stream.chunks buffLarge text, IsCoresLine line))

/-- The whole line is parsed, and it does not begin with a digit. -/
theorem coresLine_eq (cores : UInt32) (line : List UInt8) :
    coresLine cores line = if IsCoresLine line then 0 else cores := by
  unfold coresLine
  by_cases h : IsCoresLine line
  · obtain ⟨rest, hrest⟩ := List.isPrefixOf_iff_prefix.mp h.1
    have hparse : parseU64 (ascii "cpu cores" ++ rest ++ [0]) buffLarge = 0 := rfl
    rw [hrest] at hparse
    rw [if_pos h, hparse]
    exact if_pos h
  · rw [if_neg h]
    exact if_neg h

/-- Hence any core count that is found is zero. -/
theorem coresOf_eq (cores : UInt32) (text : List UInt8) :
    coresOf cores text = if HasCores text then 0 else cores := by
  have hfold : ∀ chunks : List (List UInt8),
      chunks.foldl coresLine cores = if ∃ line ∈ chunks, IsCoresLine line then 0 else cores := by
    intro chunks
    induction chunks generalizing cores with
    | nil => simp
    | cons chunk chunks ih =>
      rw [List.foldl_cons, ih, coresLine_eq]
      by_cases hchunk : IsCoresLine chunk
      · simp [hchunk]
      · simp [hchunk]
  exact hfold _

/-- Values that are forgotten, and those that hide them, fit. -/
theorem Forgets.length_le {field : Vector UInt8 n} {before after : List (List UInt8)}
    (h : Forgets field before after) :
    (∀ value ∈ before, value.length ≤ n) ∧ ∀ value ∈ after, value.length ≤ n := by
  obtain ⟨hlt, hbefore, -⟩ := h
  exact ⟨fun value hvalue => (hbefore value hvalue).trans hlt.le, longest_le.mp hlt.le⟩

/-- Reading the core count after another file gives what reading it from zero does iff there is one
to find, or none before. -/
theorem coresOf_coresOf_iff (cores : UInt32) (text₁ text₂ : List UInt8) :
    coresOf (coresOf cores text₁) text₂ = coresOf 0 text₂ ↔
      HasCores text₂ ∨ HasCores text₁ ∨ cores = 0 := by
  simp only [coresOf_eq]
  by_cases h₂ : HasCores text₂
  · simp [h₂]
  · by_cases h₁ : HasCores text₁
    · simp [h₁]
    · simp [h₁, h₂]

/-- Reading a file after another one leaves the strings and the core count that reading it alone
into a zeroed struct does iff its values forget those of the first, and there is a core count in one
of the files or none was there before. -/
theorem cpuReadAmd64_rereads_iff (h₁ h₂ : Host) (text₁ text₂ : List UInt8) (out : SysCpu)
    (hfile₁ : h₁.file .procCpuinfo = some text₁) (hfile₂ : h₂.file .procCpuinfo = some text₂) :
    (∃ first again alone, cpuReadAmd64 h₁ out = .ok (errOk, first) ∧
        cpuReadAmd64 h₂ first = .ok (errOk, again) ∧
        cpuReadAmd64 h₂ SysCpu.zero = .ok (errOk, alone) ∧
        SameString again.vendor alone.vendor ∧ SameString again.model alone.model ∧
        SameString again.frequency alone.frequency ∧ again.cores = alone.cores) ↔
      Forgets out.vendor (keyValues [32] "vendor_id" text₁) (keyValues [32] "vendor_id" text₂) ∧
      Forgets out.model (keyValues [32] "model name" text₁) (keyValues [32] "model name" text₂) ∧
      Forgets out.frequency (keyValues [32] "cpu MHz" text₁) (keyValues [32] "cpu MHz" text₂) ∧
      (HasCores text₂ ∨ HasCores text₁ ∨ out.cores = 0) := by
  have hsame : ∀ {m : ℕ} (field : Vector UInt8 m) (key : String),
      SameString ((keyValues [32] key text₂).foldl overlay
          ((keyValues [32] key text₁).foldl overlay field))
        ((keyValues [32] key text₂).foldl overlay (Vector.replicate m 0)) ↔
      Forgets field (keyValues [32] key text₁) (keyValues [32] key text₂) := by
    intro m field key
    rw [← List.foldl_append]
    exact sameString_iff (fun _ => zero_notMem_of_mem_keyValues)
      fun _ => zero_notMem_of_mem_keyValues
  rw [← hsame, ← hsame, ← hsame, ← coresOf_coresOf_iff]
  -- both sides are now about the strings and the count that the three readings leave
  constructor
  · rintro ⟨first, again, alone, hfirst, hagain, halone, hstrings⟩
    obtain ⟨-, hr₁⟩ := (cpuReadAmd64_of_file hfile₁).mp hfirst
    obtain ⟨-, rfl⟩ := Prod.mk.inj hr₁
    obtain ⟨-, hr₂⟩ := (cpuReadAmd64_of_file hfile₂).mp hagain
    obtain ⟨-, rfl⟩ := Prod.mk.inj hr₂
    obtain ⟨-, hr⟩ := (cpuReadAmd64_of_file hfile₂).mp halone
    obtain ⟨-, rfl⟩ := Prod.mk.inj hr
    exact hstrings
  · intro hstrings
    have hvendor := (hsame _ _).mp hstrings.1
    have hmodel := (hsame _ _).mp hstrings.2.1
    have hfrequency := (hsame _ _).mp hstrings.2.2.1
    have hfits₁ : ValuesFit text₁ :=
      ⟨hvendor.length_le.1, hmodel.length_le.1, hfrequency.length_le.1⟩
    have hfits₂ : ValuesFit text₂ :=
      ⟨hvendor.length_le.2, hmodel.length_le.2, hfrequency.length_le.2⟩
    exact ⟨_, _, _, (cpuReadAmd64_of_file hfile₁).mpr ⟨hfits₁, rfl⟩,
      (cpuReadAmd64_of_file hfile₂).mpr ⟨hfits₂, rfl⟩,
      (cpuReadAmd64_of_file hfile₂).mpr ⟨hfits₂, rfl⟩, hstrings⟩

theorem cpuReadAmd64_rereads_iff_shorter :
    let text₁ := ascii "model name\t: B\ncpu cores\t: 4\n"
    let text₂ := ascii "vendor_id\t: A\nmodel name\t: BC\ncpu MHz\t: 9\ncpu cores\t: 4\n"
    ∃ first again alone, cpuReadAmd64 (hostOf text₁) SysCpu.zero = .ok (errOk, first) ∧
      cpuReadAmd64 (hostOf text₂) first = .ok (errOk, again) ∧
      cpuReadAmd64 (hostOf text₂) SysCpu.zero = .ok (errOk, alone) ∧
      SameString again.vendor alone.vendor ∧ SameString again.model alone.model ∧
      SameString again.frequency alone.frequency ∧ again.cores = alone.cores := by
  intro text₁ text₂
  refine (cpuReadAmd64_rereads_iff (hostOf text₁) (hostOf text₂) text₁ text₂ SysCpu.zero rfl
    rfl).mpr ⟨?_, ?_, ?_, .inl ?_⟩
  all_goals decide +kernel

/-- The longer model name of a first file shows behind that of a second. -/
theorem not_cpuReadAmd64_rereads :
    ¬ ∀ (h₁ h₂ : Host) (text₁ text₂ : List UInt8),
      h₁.file .procCpuinfo = some text₁ → h₂.file .procCpuinfo = some text₂ →
      ValuesFit text₁ → ValuesFit text₂ → HasCores text₂ →
      (∀ key ∈ ["vendor_id", "model name", "cpu MHz"], keyValues [32] key text₂ ≠ []) →
      ∃ first again alone, cpuReadAmd64 h₁ SysCpu.zero = .ok (errOk, first) ∧
        cpuReadAmd64 h₂ first = .ok (errOk, again) ∧
        cpuReadAmd64 h₂ SysCpu.zero = .ok (errOk, alone) ∧
        SameString again.vendor alone.vendor ∧ SameString again.model alone.model ∧
        SameString again.frequency alone.frequency ∧ again.cores = alone.cores := by
  intro hall
  let text₁ := ascii "model name\t: BC\n"
  let text₂ := ascii "vendor_id\t: A\nmodel name\t: B\ncpu MHz\t: 9\ncpu cores\t: 4\n"
  obtain ⟨first, again, alone, hfirst, hagain, halone, -, ⟨s, hs, hs'⟩, -⟩ :=
    hall (hostOf text₁) (hostOf text₂) text₁ text₂ rfl rfl (by decide +kernel)
      (by decide +kernel) (by decide +kernel) (by decide +kernel)
  obtain ⟨-, hr₁⟩ := (cpuReadAmd64_of_file rfl).mp hfirst
  obtain ⟨-, rfl⟩ := Prod.mk.inj hr₁
  obtain ⟨-, hr₂⟩ := (cpuReadAmd64_of_file rfl).mp hagain
  obtain ⟨-, rfl⟩ := Prod.mk.inj hr₂
  obtain ⟨-, hr⟩ := (cpuReadAmd64_of_file rfl).mp halone
  obtain ⟨-, rfl⟩ := Prod.mk.inj hr
  exact absurd (hs.trans hs'.symm) (by decide +kernel)

/-! ## The number of a line -/

/-- A line that carries the number `n` for the core count, with white space around it. -/
def CarriesCores (n : ℕ) (line : List UInt8) : Prop :=
  ∃ before between digits behind : List UInt8, before.all Scanf.isSpace ∧
    between.all Scanf.isSpace ∧ behind.all Scanf.isSpace ∧ digits ≠ [] ∧ digits.all isDigit ∧
    Scanf.ofDigits digits = n ∧
    line = ascii "cpu cores" ++ before ++ 58 :: between ++ digits ++ behind

theorem CarriesCores.isCoresLine {line : List UInt8} (h : CarriesCores n line) :
    IsCoresLine line := by
  obtain ⟨before, between, digits, behind, hbefore, hbetween, hbehind, -, hdigits, -, hline⟩ := h
  have hspace : ∀ bs : List UInt8, bs.all Scanf.isSpace → 0 ∉ bs := fun bs hbs hzero =>
    absurd (List.all_eq_true.mp hbs 0 hzero) (by decide)
  have hdigit : 0 ∉ digits := fun hzero =>
    absurd (List.all_eq_true.mp hdigits 0 hzero) (by decide)
  have hzero : 0 ∉ line := by
    have hkey : 0 ∉ ascii "cpu cores" := by decide
    rw [hline]
    simp [hkey, hspace, hbefore, hbetween, hbehind, hdigit]
  rw [IsCoresLine, cstr_of_notMem hzero, afterColon_isSome, List.isPrefixOf_iff_prefix, hline]
  refine ⟨?_, ?_⟩
  · simp only [List.append_assoc]
    exact List.prefix_append _ _
  · simp

/-- The core count is the number all lines of the core count carry iff that number is zero, and the
values of the other keys fit. -/
theorem cpuReadAmd64_cores_iff (h : Host) (text : List UInt8) (out : SysCpu) (n : ℕ)
    (hfile : h.file .procCpuinfo = some text)
    (hlines : ∀ line ∈ Stream.lines text, line.length < 512)
    (hsome : ∃ line ∈ Stream.lines text, (ascii "cpu cores").isPrefixOf line)
    (hall : ∀ line ∈ Stream.lines text, (ascii "cpu cores").isPrefixOf line → CarriesCores n line) :
    (∃ out', cpuReadAmd64 h out = .ok (errOk, out') ∧ out'.cores.toNat = n) ↔
      n = 0 ∧ ValuesFit text := by
  have hchunks : Stream.chunks buffLarge text = Stream.lines text :=
    Stream.chunks_eq_lines (by decide) fun line hline => Nat.le_sub_one_of_lt (hlines line hline)
  -- the count is found, and so it is zero
  have hcores : HasCores text := by
    obtain ⟨line, hline, hkey⟩ := hsome
    refine ⟨line, ?_, (hall line hline hkey).isCoresLine⟩
    rw [hchunks]
    exact hline
  have hcount : ∀ cores, coresOf cores text = 0 := fun cores => by
    rw [coresOf_eq, if_pos hcores]
  simp only [cpuReadAmd64_of_file hfile, hcount, Prod.mk.injEq, true_and]
  constructor
  · rintro ⟨out', ⟨hfits, rfl⟩, hn⟩
    exact ⟨hn.symm, hfits⟩
  · rintro ⟨rfl, hfits⟩
    exact ⟨_, ⟨hfits, rfl⟩, rfl⟩

theorem cpuReadAmd64_cores_iff_none :
    let text := ascii "cpu cores\t: 0\n"
    (∃ out', cpuReadAmd64 (hostOf text) SysCpu.zero = .ok (errOk, out') ∧ out'.cores.toNat = 0) ↔
      0 = 0 ∧ ValuesFit text := by
  intro text
  have hlines : Stream.lines text = [ascii "cpu cores\t: 0\n"] := by decide +kernel
  refine cpuReadAmd64_cores_iff (hostOf text) text SysCpu.zero 0 rfl (by decide +kernel)
    (by decide +kernel) fun line hline _ => ?_
  rw [hlines, List.mem_singleton] at hline
  exact ⟨ascii "\t", ascii " ", ascii "0", ascii "\n", by decide, by decide, by decide, by decide,
    by decide, by decide, hline⟩

/-- Four cores are read as none. -/
theorem not_cpuReadAmd64_cores :
    ¬ ∀ (h : Host) (text : List UInt8) (out : SysCpu) (n : ℕ),
      h.file .procCpuinfo = some text → n < 2 ^ 32 →
      (∀ line ∈ Stream.lines text, line.length < 512) →
      (∃ line ∈ Stream.lines text, (ascii "cpu cores").isPrefixOf line) →
      (∀ line ∈ Stream.lines text, (ascii "cpu cores").isPrefixOf line → CarriesCores n line) →
      ∃ out', cpuReadAmd64 h out = .ok (errOk, out') ∧ out'.cores.toNat = n := by
  intro hall
  let text := ascii "cpu cores\t: 4\n"
  have hlines : Stream.lines text = [ascii "cpu cores\t: 4\n"] := by decide +kernel
  obtain ⟨out', hout, hcores⟩ := hall (hostOf text) text SysCpu.zero 4 rfl (by decide)
    (by decide +kernel) (by decide +kernel) fun line hline _ => by
      rw [hlines, List.mem_singleton] at hline
      exact ⟨ascii "\t", ascii " ", ascii "4", ascii "\n", by decide, by decide, by decide,
        by decide, by decide, by decide, hline⟩
  obtain ⟨-, hr⟩ := (cpuReadAmd64_of_file rfl).mp hout
  obtain ⟨-, rfl⟩ := Prod.mk.inj hr
  exact absurd hcores (by decide +kernel)

end AgentResources
