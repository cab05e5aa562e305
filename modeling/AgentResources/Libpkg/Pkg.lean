import AgentResources.Libres.Device

/-!
# The package manager of the distribution

`find_lxd_pkgm` of `pkg.c`: read the name of the system and write it in lower case into a buffer.
The byte of a capital letter is below `'a'`, but so is that of a digit or a punctuation mark, and a
`char` above 127 is negative: the test moves all of them.

## Main definitions

* `findLxdPkgm`: the function;
* `asciiLower`: lower case, of capital letters only.

## Main results

* `findLxdPkgm_eq`: the buffer that is returned, for every name;
* `findLxdPkgm_lower_iff`: the names it puts in lower case.
-/

namespace AgentResources

/-! ## `find_lxd_pkgm` -/

/-- The body of the loop: a byte other than a space is shifted if it is below `'a'`, as a signed
`char`, and copied. -/
def lowerByte (distroUnparsed buffer wordIdx : ℕ) (m : Memory) : Memory :=
  if m.byte (distroUnparsed + wordIdx) ≠ 32 then
    let m := if (m.byte (distroUnparsed + wordIdx)).toInt8 < 97 then
        m.store (distroUnparsed + wordIdx) [m.byte (distroUnparsed + wordIdx) + (97 - 65)]
      else m
    m.store (buffer + wordIdx) [m.byte (distroUnparsed + wordIdx)]
  else m

/-- The loop from `wordIdx` on, with `fuel` bytes left of the array it reads. -/
def lowerLoop (distroUnparsed buffer : ℕ) : ℕ → ℕ → Memory → Except Halt (ℕ × Memory)
  | 0, _, _ => .error (.undefined .overread)
  | fuel + 1, wordIdx, m =>
    if m.byte (distroUnparsed + wordIdx) = 0 then .ok (wordIdx, m)
    else
      lowerLoop distroUnparsed buffer fuel (wordIdx + 1)
        (lowerByte distroUnparsed buffer wordIdx m)

/-- Read the name of the system and return a buffer with it in lower case. The code of `device_read`
is not looked at. The end of the string is written in any case, so that a null `buffer` faults. -/
def findLxdPkgm (h : Host) (arena : ℕ) (s : Proc) : Except Halt (ℕ × Proc) := do
  let (dev, s) ← deviceCreate arena s
  if dev = NULL then .error .assertFailed
  let (_, device) ← deviceRead h (s.mem.loadAs SysDevice dev)
  let s := s.withMem (s.mem.storeAs dev device)
  let (distroUnparsed, s) ← pushArray arena 1 256 s
  if distroUnparsed = NULL then .error (.undefined .nullPointer)
  let s := s.withMem (s.mem.store distroUnparsed (s.mem.loadAs SysDevice dev).osVersion.toList)
  let (buffer, s) ← pushArray arena 1 256 s
  if buffer = NULL then .error (.undefined .nullPointer)
  let (wordIdx, m) ← lowerLoop distroUnparsed buffer 256 0 s.mem
  return (buffer, s.withMem (m.store (buffer + wordIdx) [0]))

/-! ## The bytes -/

/-- Lower case: a capital letter becomes a small one, any other byte is kept. -/
def asciiLower (c : UInt8) : UInt8 := if 65 ≤ c ∧ c ≤ 90 then c + 32 else c

/-- What the loop leaves in the buffer for a byte: nothing for a space. -/
def shiftedByte (c : UInt8) : UInt8 := if c = 32 then 0 else if c.toInt8 < 97 then c + 32 else c

/-- What the buffer should hold for a byte: nothing for a space. -/
def loweredByte (c : UInt8) : UInt8 := if c = 32 then 0 else asciiLower c

/-- A space, a capital letter, or a byte from `'a'` to 127. -/
def ShiftsRight (c : UInt8) : Prop := c = 32 ∨ 65 ≤ c ∧ c ≤ 90 ∨ 97 ≤ c ∧ c ≤ 127

instance (c : UInt8) : Decidable (ShiftsRight c) := inferInstanceAs (Decidable (_ ∨ _))

/-- A byte is shifted as it should be iff it is one of these. -/
theorem shiftedByte_eq_iff (c : UInt8) : shiftedByte c = loweredByte c ↔ ShiftsRight c := by
  revert c
  exact forall_byte (by decide +kernel)

/-- The loop does not tell capital from small letters. -/
theorem shiftedByte_asciiLower (c : UInt8) : shiftedByte (asciiLower c) = shiftedByte c := by
  revert c
  exact forall_byte (by decide +kernel)

/-! ## The loop -/

variable {m : Memory} {text : List UInt8} {distro buffer i fuel : ℕ}

/-- After a round the buffer has the shifted byte, and nothing but the two bytes has changed. -/
theorem lowerByte_spec (distro : ℕ) (hzero : m.byte (buffer + i) = 0) :
    (lowerByte distro buffer i m).byte (buffer + i) = shiftedByte (m.byte (distro + i)) ∧
      ∀ x, x ≠ distro + i → x ≠ buffer + i → (lowerByte distro buffer i m).byte x = m.byte x := by
  have hstore : ∀ (m : Memory) (a : ℕ) (b : UInt8) {x : ℕ}, x ≠ a →
      (m.store a [b]).byte x = m.byte x := by
    intro m a b x hx
    refine Memory.byte_store_of_notMem ?_
    rw [Set.mem_Ico, List.length_singleton]
    omega
  unfold lowerByte shiftedByte
  by_cases hspace : m.byte (distro + i) = 32
  · simp [hspace, hzero]
  · by_cases hbelow : (m.byte (distro + i)).toInt8 < 97
    · simp only [ne_eq, hspace, not_false_eq_true, if_true, if_false, hbelow]
      refine ⟨?_, fun x hd hb => ?_⟩
      · rw [Memory.byte_store_singleton, Memory.byte_store_singleton]
        rfl
      · rw [hstore _ _ _ hb, hstore _ _ _ hd]
    · simp only [ne_eq, hspace, not_false_eq_true, if_true, if_false, hbelow]
      refine ⟨?_, fun x _ hb => hstore _ _ _ hb⟩
      rw [Memory.byte_store_singleton]

/-- The loop over a text that ends in the array: the buffer has the shifted bytes of the text, and
what stands before them is kept. -/
theorem lowerLoop_eq (hfuel : text.length < fuel) (htext : 0 ∉ text)
    (hdistro : m.load (distro + i) (text.length + 1) = text ++ [0])
    (hbuffer : ∀ j < text.length, m.byte (buffer + i + j) = 0)
    (hapart : distro + i + fuel ≤ buffer) :
    ∃ m', lowerLoop distro buffer fuel i m = .ok (i + text.length, m') ∧
      m'.load (buffer + i) text.length = text.map shiftedByte ∧
      ∀ x, buffer ≤ x → x < buffer + i → m'.byte x = m.byte x := by
  induction text generalizing i fuel m with
  | nil =>
    obtain ⟨fuel, rfl⟩ := Nat.exists_eq_succ_of_ne_zero (Nat.ne_of_gt hfuel)
    have hend : m.byte (distro + i) = 0 := by simpa [Memory.load] using hdistro
    refine ⟨m, ?_, rfl, fun _ _ _ => rfl⟩
    simp [lowerLoop, hend]
  | cons c text ih =>
    obtain ⟨fuel, rfl⟩ := Nat.exists_eq_succ_of_ne_zero (Nat.ne_of_gt (Nat.zero_lt_of_lt hfuel))
    rw [List.length_cons] at hfuel hbuffer
    have hc : c ≠ 0 := fun h => htext (h ▸ List.mem_cons_self)
    have htext' : 0 ∉ text := fun h => htext (List.mem_cons_of_mem c h)
    rw [List.length_cons, Memory.load_succ, List.cons_append, List.cons.injEq] at hdistro
    obtain ⟨hfirst, hrest⟩ := hdistro
    have hzero : m.byte (buffer + i) = 0 := hbuffer 0 (by omega)
    obtain ⟨hshift, hkept⟩ := lowerByte_spec distro hzero
    -- the rest of either array is as it was
    have hdistro' : (lowerByte distro buffer i m).load (distro + (i + 1)) (text.length + 1) =
        text ++ [0] := by
      rw [← hrest]
      refine Memory.load_eq_of_eqOn fun x hx => hkept x ?_ ?_ <;> rw [Set.mem_Ico] at hx <;> omega
    have hbuffer' : ∀ j < text.length,
        (lowerByte distro buffer i m).byte (buffer + (i + 1) + j) = 0 := by
      intro j hj
      rw [hkept (buffer + (i + 1) + j) (by omega) (by omega)]
      have hzero := hbuffer (j + 1) (by omega)
      rwa [show buffer + i + (j + 1) = buffer + (i + 1) + j by omega] at hzero
    have hleft : text.length < fuel := by omega
    obtain ⟨m', hrun, hload, hbefore⟩ := ih hleft htext' hdistro' hbuffer' (by omega)
    refine ⟨m', ?_, ?_, fun x hle hlt => ?_⟩
    · rw [lowerLoop, hfirst, if_neg hc, hrun, List.length_cons, Nat.add_right_comm, Nat.add_assoc]
    · rw [List.length_cons, Memory.load_succ, List.map_cons, hbefore (buffer + i) (by omega)
        (by omega), hshift, hfirst]
      exact congrArg (_ :: ·) hload
    · rw [hbefore x hle (by omega), hkept x (by omega) (by omega)]

/-! ## The whole function -/

/-- `struct sys_device` as the arena hands it out. -/
def SysDevice.zeroed : SysDevice := ⟨Vector.replicate 256 0, Vector.replicate 256 0, (0, 0, 0), 0⟩

/-- `v` is the name of the system that `device_read` finds. -/
def OsVersion (h : Host) (v : List UInt8) : Prop :=
  (deviceRead h .zeroed).map (fun r => fieldString r.2.osVersion) = .ok (some v)

instance (h : Host) (v : List UInt8) : Decidable (OsVersion h v) :=
  inferInstanceAs (Decidable (_ = _))

/-- The function returns a buffer that begins with these bytes. -/
def LxdReturns (h : Host) (arena : ℕ) (s : Proc) (bytes : List UInt8) : Prop :=
  ∃ p s', findLxdPkgm h arena s = .ok (p, s') ∧ s'.mem.load p bytes.length = bytes

/-- The bytes of the three blocks. -/
def lxdRoom : ℕ := 544 + 256 + 256

variable {h : Host} {arena : ℕ} {capacity : UInt64} {s : Proc} {v : List UInt8}

theorem OsVersion.exists_device (hv : OsVersion h v) :
    ∃ code device, deviceRead h .zeroed = .ok (code, device) ∧
      fieldString device.osVersion = some v := by
  unfold OsVersion at hv
  cases hread : deviceRead h .zeroed with
  | error e => simp [hread, Except.map] at hv
  | ok r =>
    rw [hread] at hv
    exact ⟨r.1, r.2, rfl, Except.ok.inj hv⟩

/-- Of one length there are only one buffer's bytes. -/
theorem LxdReturns.unique {bytes bytes' : List UInt8} (hb : LxdReturns h arena s bytes)
    (hb' : LxdReturns h arena s bytes') (hlen : bytes.length = bytes'.length) : bytes = bytes' := by
  obtain ⟨p, s', hrun, hload⟩ := hb
  obtain ⟨p', s'', hrun', hload'⟩ := hb'
  obtain ⟨rfl, rfl⟩ := Prod.mk.inj (Except.ok.inj (hrun.symm.trans hrun'))
  rw [← hload, ← hload', hlen]

theorem decode_replicate_zero (n k : ℕ) :
    (Layout.decode (List.replicate k 0) : Vector UInt8 n) = Vector.replicate n 0 := by
  apply Vector.ext
  intro i hi
  show (Vector.ofFn fun j : Fin n => (List.replicate k (0 : UInt8)).getD j 0)[i] = _
  rw [Vector.getElem_ofFn, Vector.getElem_replicate]
  by_cases hik : i < k <;> simp [hik]

theorem decode_sysDevice_zeroed :
    (Layout.decode (List.replicate (Layout.size SysDevice) 0) : SysDevice) = .zeroed := by
  show SysDevice.mk (Layout.decode (List.replicate 544 0))
    (Layout.decode ((List.replicate 544 0).drop 256))
    (Layout.decode (((List.replicate 544 0).drop 256).drop 256))
    (Layout.decode ((((List.replicate 544 0).drop 256).drop 256).drop 24)) = _
  simp only [List.drop_replicate, decode_replicate_zero]
  rfl

/-- The name in the array: its bytes, the terminator, and what is left. -/
theorem toList_of_fieldString {field : Vector UInt8 256} (hfield : fieldString field = some v) :
    0 ∉ v ∧ ∃ rest, field.toList = v ++ 0 :: rest := by
  unfold fieldString at hfield
  split at hfield
  · next hzero => exact (cstr_eq_iff (by simpa using hzero)).mp (Option.some.inj hfield)
  · cases hfield

/-- The name is in its copy as long as the bytes of the copy are kept. -/
theorem load_name {m m' : Memory} {field : Vector UInt8 256} {rest : List UInt8} {distro : ℕ}
    (hlist : field.toList = v ++ 0 :: rest) (hcopy : m.load distro 256 = field.toList)
    (hkept : Set.EqOn m'.byte m.byte (Memory.range distro (v.length + 1))) :
    m'.load distro (v.length + 1) = v ++ [0] := by
  have hlen : v.length + 1 ≤ 256 := by
    have hcount := congrArg List.length hlist
    rw [Vector.length_toList, List.length_append, List.length_cons] at hcount
    omega
  calc m'.load distro (v.length + 1) = m.load distro (v.length + 1) :=
        Memory.load_eq_of_eqOn hkept
    _ = (m.load distro 256).take (v.length + 1) := (Memory.take_load hlen).symm
    _ = v ++ [0] := by
        have hsplit : v ++ 0 :: rest = v ++ [0] ++ rest := by simp
        rw [hcopy, hlist, hsplit, List.take_left' (by simp)]

/-- The three blocks: the struct with the device, the copy of the name, and the zeroed buffer. -/
theorem lxd_blocks (hat : ArenaAt arena capacity s)
    (hroom : HasRoom arena capacity s lxdRoom) (device : SysDevice) :
    ∃ (dev distro buffer : ℕ) (s₁ s₃ s₅ : Proc),
      deviceCreate arena s = .ok (dev, s₁) ∧ dev ≠ NULL ∧ s₁.mem.loadAs SysDevice dev = .zeroed ∧
      pushArray arena 1 256 (s₁.withMem (s₁.mem.storeAs dev device)) = .ok (distro, s₃) ∧
      distro ≠ NULL ∧ s₃.mem.loadAs SysDevice dev = device ∧
      pushArray arena 1 256 (s₃.withMem (s₃.mem.store distro device.osVersion.toList)) =
        .ok (buffer, s₅) ∧
      buffer ≠ NULL ∧ (∀ x ∈ Memory.range buffer 256, s₅.mem.byte x = 0) ∧
      Set.EqOn s₅.mem.byte (s₃.mem.store distro device.osVersion.toList).byte
        (Memory.range distro 256) ∧
      distro + 256 ≤ buffer := by
  have hsize : sizeofSysDevice.toNat = 544 := by decide
  have hsize' : ((1 : UInt64) * 256).toNat = 256 := by decide
  -- the struct
  have hroom₁ : HasRoom arena capacity s sizeofSysDevice.toNat := hroom.mono (by decide)
  obtain ⟨s₁, hdev, hzero₁, -, hstored₁⟩ := hat.alloc_store hroom₁
  obtain ⟨hat₂, hpos₂, hleft₂⟩ := hstored₁ (Layout.encode device)
  rw [hsize] at hpos₂ hzero₁
  obtain ⟨s₂, hs₂⟩ : ∃ s₂, s₂ = s₁.withMem
      (s₁.mem.store (arenaBase arena + position arena s) (Layout.encode device)) := ⟨_, rfl⟩
  rw [← hs₂] at hat₂ hpos₂
  simp only [← hs₂] at hleft₂
  have hdevice : s₂.mem.loadAs SysDevice (arenaBase arena + position arena s) = device := by
    rw [hs₂, Proc.mem_withMem, ← Memory.storeAs, Memory.loadAs_storeAs]
  -- the copy of the name
  have hroom₂ : HasRoom arena capacity s₂ (256 + 256) := hleft₂ _ hroom
  have hname : HasRoom arena capacity s₂ ((1 : UInt64) * 256).toNat := hroom₂.mono (by decide)
  obtain ⟨s₃, hdistro, -, hkept₃, hstored₃⟩ := hat₂.alloc_store hname
  obtain ⟨hat₄, hpos₄, hleft₄⟩ := hstored₃ device.osVersion.toList
  have hdevice₃ : s₃.mem.loadAs SysDevice (arenaBase arena + position arena s) = device := by
    refine (Memory.loadAs_eq_of_eqOn (hkept₃ _ 544 (Nat.le_add_right _ _) ?_)).trans hdevice
    omega
  obtain ⟨s₄, hs₄⟩ : ∃ s₄, s₄ = s₃.withMem
      (s₃.mem.store (arenaBase arena + position arena s₂) device.osVersion.toList) := ⟨_, rfl⟩
  rw [← hs₄] at hat₄ hpos₄
  simp only [← hs₄] at hleft₄
  -- the buffer
  have hroom₄ : HasRoom arena capacity s₄ ((1 : UInt64) * 256).toNat := hleft₄ 256 hroom₂
  obtain ⟨s₅, hbuffer, hzero₅, hkept₅, -⟩ := hat₄.alloc_store hroom₄
  have hapart : arenaBase arena + position arena s₂ + 256 ≤
      arenaBase arena + position arena s₄ := by
    omega
  refine ⟨_, _, _, s₁, s₃, s₅, hdev, arenaBase_add_ne_null _ _,
    (Memory.loadAs_of_zero hzero₁).trans decode_sysDevice_zeroed, ?_, arenaBase_add_ne_null _ _,
    hdevice₃, ?_, arenaBase_add_ne_null _ _, hzero₅, ?_, hapart⟩
  · rw [Memory.storeAs, ← hs₂]
    exact hdistro
  · rw [← hs₄]
    exact hbuffer
  · have hmem : s₄.mem = s₃.mem.store (arenaBase arena + position arena s₂)
        device.osVersion.toList := by rw [hs₄, Proc.mem_withMem]
    rw [← hmem]
    exact hkept₅ _ 256 (Nat.le_add_right _ _) hapart

/-- The buffer that is returned has the shifted bytes of the name and ends after them. -/
theorem findLxdPkgm_eq (hat : ArenaAt arena capacity s)
    (hroom : HasRoom arena capacity s lxdRoom) (hv : OsVersion h v) :
    LxdReturns h arena s (v.map shiftedByte ++ [0]) := by
  obtain ⟨code, device, hread, hfield⟩ := hv.exists_device
  obtain ⟨hnul, rest, hlist⟩ := toList_of_fieldString hfield
  obtain ⟨dev, distro, buffer, s₁, s₃, s₅, hdev, hdevNe, hstruct, hdistro, hdistroNe, hdevice,
    hbuffer, hbufferNe, hzero, hkept, hapart⟩ := lxd_blocks hat hroom device
  have hlen : v.length < 256 := by
    have hcount := congrArg List.length hlist
    rw [Vector.length_toList, List.length_append, List.length_cons] at hcount
    omega
  -- the loop reads the name in its copy and writes to the zeroed buffer
  have hname : s₅.mem.load (distro + 0) (v.length + 1) = v ++ [0] := by
    have hcopy := s₃.mem.load_store distro device.osVersion.toList
    rw [Vector.length_toList] at hcopy
    rw [Nat.add_zero]
    exact load_name hlist hcopy (hkept.mono (Set.Ico_subset_Ico_right (by omega)))
  have hbufferZero : ∀ j < v.length, s₅.mem.byte (buffer + 0 + j) = 0 := fun j hj =>
    hzero _ (by rw [Set.mem_Ico]; omega)
  obtain ⟨m', hrun, hload, -⟩ := lowerLoop_eq hlen hnul hname hbufferZero (by omega)
  refine ⟨buffer, s₅.withMem (m'.store (buffer + v.length) [0]), ?_, ?_⟩
  · unfold findLxdPkgm
    rw [hdev, Except.ok_bind]
    dsimp only
    rw [if_neg hdevNe, hstruct, hread, Except.ok_bind]
    dsimp only
    rw [hdistro, Except.ok_bind]
    dsimp only
    rw [if_neg hdistroNe, hdevice, hbuffer, Except.ok_bind]
    dsimp only
    rw [if_neg hbufferNe, hrun, Except.ok_bind, Nat.zero_add]
    rfl
  · rw [Nat.add_zero] at hload
    rw [List.length_append, List.length_map, List.length_singleton, Proc.mem_withMem,
      Memory.load_store_last, hload]

/-- A new arena has room for the three blocks. -/
theorem lxdRoom_created :
    ArenaAt 4096 (KiB 8) (arenaCreate Kernel.above (KiB 8) Proc.fresh).2 ∧
      HasRoom 4096 (KiB 8) (arenaCreate Kernel.above (KiB 8) Proc.fresh).2 lxdRoom := by
  have hgrant : Kernel.above.mmap Proc.fresh.maps (mappingLen (KiB 8)) = some 4096 := by
    decide +kernel
  obtain ⟨hat, hpos⟩ := arenaAt_of_granted hgrant
  exact ⟨hat, hat.hasRoom (by decide) (by rw [hpos]; decide)⟩

/-- The function puts the name in lower case, and so answers alike for names that differ in case
only, iff all bytes of the name are spaces, capital letters, or from `'a'` to 127. -/
theorem findLxdPkgm_lower_iff (hat : ArenaAt arena capacity s)
    (hroom : HasRoom arena capacity s lxdRoom) (hv : OsVersion h v) :
    (LxdReturns h arena s (v.map loweredByte ++ [0]) ∧
      ∀ h' v', OsVersion h' v' → v'.map asciiLower = v.map asciiLower →
        ∃ bytes, bytes.length = v.length + 1 ∧
          LxdReturns h arena s bytes ∧ LxdReturns h' arena s bytes) ↔
      ∀ c ∈ v, ShiftsRight c := by
  have hreturns := findLxdPkgm_eq hat hroom hv
  have hsame : LxdReturns h arena s (v.map loweredByte ++ [0]) ↔
      v.map shiftedByte = v.map loweredByte := by
    refine ⟨fun hlower => ?_, fun heq => heq ▸ hreturns⟩
    exact List.append_cancel_right (hreturns.unique hlower (by simp))
  rw [hsame, List.map_inj_left]
  simp only [shiftedByte_eq_iff]
  refine and_iff_left fun h' v' hv' hcase => ?_
  -- the shifted bytes depend on the lower case of the name only
  have hshift : v'.map shiftedByte = v.map shiftedByte := by
    have hlower := congrArg (List.map shiftedByte) hcase
    simpa only [List.map_map, Function.comp_def, shiftedByte_asciiLower] using hlower
  refine ⟨v.map shiftedByte ++ [0], by simp, hreturns, ?_⟩
  rw [← hshift]
  exact findLxdPkgm_eq hat hroom hv'

/-- A host with that name, and an arena with room. -/
theorem findLxdPkgm_lower_arch :
    LxdReturns (hostOf (ascii "NAME=\"Arch\"\n")) 4096
      (arenaCreate Kernel.above (KiB 8) Proc.fresh).2 (ascii "arch" ++ [0]) := by
  have hv : OsVersion (hostOf (ascii "NAME=\"Arch\"\n")) (ascii "Arch") := by decide +kernel
  exact ((findLxdPkgm_lower_iff lxdRoom_created.1 lxdRoom_created.2 hv).mpr (by decide +kernel)).1

/-- Punctuation does not stay what it is. -/
theorem not_findLxdPkgm_lower :
    ¬ ∀ (h : Host) (arena : ℕ) (capacity : UInt64) (s : Proc) (v : List UInt8),
      ArenaAt arena capacity s → HasRoom arena capacity s lxdRoom → OsVersion h v →
        LxdReturns h arena s (v.map loweredByte ++ [0]) := by
  intro hall
  obtain ⟨hat, hroom⟩ := lxdRoom_created
  have hv : OsVersion (hostOf (ascii "NAME=\"Pop!_OS\"\n")) (ascii "Pop!_OS") := by
    decide +kernel
  have hlower := hall _ _ _ _ _ hat hroom hv
  have heq := (findLxdPkgm_eq hat hroom hv).unique hlower (by simp)
  exact absurd heq (by decide +kernel)

end AgentResources
