import AgentResources.Libpkg.Pkg
import AgentResources.Libres.TrueLines

/-!
# The name and the uptime of the system

What `device_read` and `find_lxd_pkgm` make of the files: `/etc/os-release` is a file of lines, of
which those of the name have it in quotes (`OsReleaseLine`), and `/proc/uptime` begins with the
seconds since the start. The last name counts. What is printed for the uptime tells the minutes, and
no more (`uptimeText_eq_iff`).

## Main results

* `deviceRead_lines`: the two strings that `device_read` leaves;
* `deviceTexts_read`: these, what the uptime tells, and the buffer that `find_lxd_pkgm` returns.
-/

namespace AgentResources

variable {h : Host}

/-! ## The uptime -/

/-- The days, the hours and the minutes. -/
theorem uptimeText_natCast (n : ℕ) :
    uptimeText n = Scanf.digits (n / 86400) ++ (ascii "d " ++
      (Scanf.digits (n % 86400 / 3600) ++ (ascii "h " ++
        (Scanf.digits (n % 3600 / 60) ++ ascii "m")))) := by
  have hday : (n : ℤ).tdiv 86400 = (n / 86400 : ℕ) := by
    rw [Int.tdiv_eq_ediv_of_nonneg (by omega)]
    omega
  have hhour : ((n : ℤ).tmod 86400).tdiv 3600 = (n % 86400 / 3600 : ℕ) := by
    rw [Int.tmod_eq_emod_of_nonneg (by omega), Int.tdiv_eq_ediv_of_nonneg (by omega)]
    omega
  have hmin : ((n : ℤ).tmod 3600).tdiv 60 = (n % 3600 / 60 : ℕ) := by
    rw [Int.tmod_eq_emod_of_nonneg (by omega), Int.tdiv_eq_ediv_of_nonneg (by omega)]
    omega
  rw [uptimeText, hday, hhour, hmin, Scanf.decimal_natCast, Scanf.decimal_natCast,
    Scanf.decimal_natCast]
  simp only [List.append_assoc]

/-- Two uptimes are printed alike iff they are the same number of minutes. -/
theorem uptimeText_eq_iff {n n' : ℕ} : uptimeText n = uptimeText n' ↔ n / 60 = n' / 60 := by
  rw [uptimeText_natCast, uptimeText_natCast]
  constructor
  · intro heq
    -- a letter ends each number
    have hletter : ∀ (unit : String) (rest : List UInt8),
        unit ∈ ["d ", "h ", "m"] → ∀ c ∈ (ascii unit ++ rest).head?, ¬ isDigit c := by
      intro unit rest hunit c hc
      simp only [List.mem_cons, List.not_mem_nil, or_false] at hunit
      rcases hunit with rfl | rfl | rfl <;>
        obtain rfl := Option.some.inj hc <;> decide
    obtain ⟨hday, heq⟩ := Scanf.digits_append_inj (hletter "d " _ (by simp))
      (hletter "d " _ (by simp)) heq
    have heq := List.append_cancel_left heq
    obtain ⟨hhour, heq⟩ := Scanf.digits_append_inj (hletter "h " _ (by simp))
      (hletter "h " _ (by simp)) heq
    have heq := List.append_cancel_left heq
    have hend := hletter "m" [] (by simp)
    rw [List.append_nil] at hend
    obtain ⟨hmin, -⟩ := Scanf.digits_append_inj hend hend heq
    omega
  · intro heq
    have hday : n / 86400 = n' / 86400 := by omega
    have hhour : n % 86400 / 3600 = n' % 86400 / 3600 := by omega
    have hmin : n % 3600 / 60 = n' % 3600 / 60 := by omega
    rw [hday, hhour, hmin]

theorem zero_notMem_uptimeText (n : ℕ) : 0 ∉ uptimeText n := by
  have hdigits : ∀ m, 0 ∉ Scanf.digits m := fun m => Scanf.notMem_digits (by decide)
  have hd : 0 ∉ ascii "d " := by decide
  have hh : 0 ∉ ascii "h " := by decide
  have hm : 0 ∉ ascii "m" := by decide
  rw [uptimeText_natCast]
  simp [hdigits, hd, hh, hm]

/-! ## The lines of `/etc/os-release` -/

/-- A line of `/etc/os-release`, without its newline. -/
inductive OsReleaseLine
  | name (v : List UInt8)
  | other (content : List UInt8)

namespace OsReleaseLine

/-- A line as it is written. -/
def content : OsReleaseLine → List UInt8
  | name v => ascii "NAME=\"" ++ (v ++ [34])
  | other content => content

/-- The name of a line. -/
def name? : OsReleaseLine → Option (List UInt8)
  | name v => some v
  | other _ => none

/-- A name fits the buffer with its line and has no quote. Another line has another key; it may go
on beyond the buffer, but not with a quote. -/
def Plain : OsReleaseLine → Prop
  | name v => v.length < 248 ∧ 0 ∉ v ∧ Stream.newline ∉ v ∧ 34 ∉ v
  | other content => Stream.newline ∉ content ∧ ¬ ascii "NAME=" <+: content ∧
    34 ∉ content.drop (buffDefault - 1)

instance : DecidablePred Plain
  | name _ => inferInstanceAs (Decidable (_ ∧ _))
  | other _ => inferInstanceAs (Decidable (_ ∧ _))

variable {line : OsReleaseLine}

theorem Plain.newline_notMem (hline : line.Plain) : Stream.newline ∉ line.content := by
  cases line with
  | name v =>
    have hkey : Stream.newline ∉ ascii "NAME=\"" := by decide
    have hquote : Stream.newline ∉ [(34 : UInt8)] := by decide
    simp [content, hkey, hquote, hline.2.2.1]
  | other content => exact hline.1

/-- The name stands between the first two quotes. -/
theorem quotedName_name {v : List UInt8} (hzero : 0 ∉ v) (hquote : 34 ∉ v) :
    quotedName ((name v).content ++ [Stream.newline]) = some v := by
  have hcstr : cstr ((name v).content ++ [Stream.newline]) =
      ascii "NAME=\"" ++ (v ++ [34, 10]) := by
    have hkey : 0 ∉ ascii "NAME=\"" := by decide
    rw [content, cstr_of_notMem]
    · simp [Stream.newline]
    · simp [hkey, hzero, Stream.newline]
  have hstart : strchr (ascii "NAME=\"" ++ (v ++ [34, 10])) 34 = some (34 :: (v ++ [34, 10])) := rfl
  have hend : strchr (v ++ [34, 10]) 34 = some [34, 10] := by
    rw [strchr_append hquote, strchr_cons_self]
  have hprefix : (ascii "NAME=").isPrefixOf (ascii "NAME=\"" ++ (v ++ [34, 10])) := rfl
  rw [quotedName, hcstr]
  dsimp only
  rw [if_pos hprefix, hstart, Option.bind_eq_bind, Option.bind_some, List.drop_one, List.tail_cons,
    hend, Option.bind_some]
  simp

/-- The chunks of a line have the name of the line. -/
theorem Plain.flatMap_chunks (hline : line.Plain) :
    (Stream.chunks buffDefault (line.content ++ [Stream.newline])).flatMap osReleaseEntries =
      line.name?.toList := by
  have hisLine := Stream.isLine_concat hline.newline_notMem []
  cases line with
  | name v =>
    obtain ⟨hlen, hzero, hnewline, hquote⟩ := hline
    have hfit : ((name v).content ++ [Stream.newline]).length ≤ buffDefault - 1 := by
      have hkey : (ascii "NAME=\"").length = 6 := by decide
      rw [content, List.length_append, List.length_append, List.length_append, hkey,
        List.length_singleton, List.length_singleton]
      show _ ≤ 255
      omega
    have hlt : v.length < 256 := by omega
    rw [hisLine.chunks_eq_singleton (by simp) (by decide) hfit, List.flatMap_singleton,
      osReleaseEntries, quotedName_name hzero hquote]
    simp [hlt, name?]
  | other content =>
    obtain ⟨hnewline, hkey, hquote⟩ := hline
    have hsize : 2 ≤ buffDefault := by decide
    obtain ⟨later, hchunks, hlater⟩ := Stream.chunks_concat hsize hnewline
    have hfirst : quotedName ((content ++ [Stream.newline]).take (buffDefault - 1)) = none := by
      refine if_neg fun hpre => ?_
      rw [isPrefixOf_cstr (by decide)] at hpre
      exact Stream.not_isPrefixOf_take_concat (by decide) hkey _ hpre
    -- a later chunk has no quote
    have hnone : ∀ chunk ∈ later, osReleaseEntries chunk = [] := by
      intro chunk hchunk
      have hnot : 34 ∉ cstr chunk := by
        intro hmem
        have hdrop := hlater chunk hchunk ((List.takeWhile_prefix _).subset hmem)
        rcases List.mem_append.mp hdrop with hdrop | hdrop
        · exact hquote hdrop
        · exact absurd hdrop (by decide)
      have hquoted : quotedName chunk = none := by
        rw [quotedName]
        dsimp only
        rw [strchr_eq_none.mpr hnot]
        exact ite_self none
      rw [osReleaseEntries, hquoted]
      rfl
    rw [OsReleaseLine.content, hchunks, List.flatMap_cons, osReleaseEntries, hfirst]
    exact List.flatMap_eq_nil_iff.mpr hnone

end OsReleaseLine

/-- The file of these lines. -/
def osReleaseText (lines : List OsReleaseLine) : List UInt8 :=
  (lines.map OsReleaseLine.content).flatMap (· ++ [Stream.newline])

/-- The names of the lines, in order. -/
def osReleaseNames (lines : List OsReleaseLine) : List (List UInt8) :=
  lines.filterMap OsReleaseLine.name?

variable {lines : List OsReleaseLine}

/-- The reader finds the names of the lines. -/
theorem flatMap_osReleaseText (hlines : ∀ line ∈ lines, line.Plain) :
    (Stream.chunks buffDefault (osReleaseText lines)).flatMap osReleaseEntries =
      osReleaseNames lines := by
  have hcontents : ∀ content ∈ lines.map OsReleaseLine.content, Stream.newline ∉ content := by
    intro content hcontent
    obtain ⟨line, hline, rfl⟩ := List.mem_map.mp hcontent
    exact (hlines line hline).newline_notMem
  rw [osReleaseText, Stream.chunks_flatMap_concat (by decide) hcontents, List.flatMap_map,
    List.flatMap_assoc, osReleaseNames, List.filterMap_eq_flatMap_toList]
  exact List.flatMap_congr fun line hline => (hlines line hline).flatMap_chunks

/-- A name is a string that fits its field. -/
theorem fits_of_mem_osReleaseNames (hlines : ∀ line ∈ lines, line.Plain) {name : List UInt8}
    (hname : name ∈ osReleaseNames lines) : 0 ∉ name ∧ name.length < 256 := by
  obtain ⟨line, hline, hsome⟩ := List.mem_filterMap.mp hname
  have hplain := hlines line hline
  cases line with
  | name v =>
    obtain rfl := Option.some.inj hsome
    exact ⟨hplain.2.1, hplain.1.trans (by decide)⟩
  | other content => cases hsome

/-! ## The struct -/

/-- Names stored one after the other leave the last one. -/
theorem foldlM_storeOsVersion {names : List (List UInt8)}
    (hnames : ∀ name ∈ names, 0 ∉ name ∧ name.length < 256) {out : SysDevice} {v : List UInt8}
    (hout : fieldString out.osVersion = some v) :
    ∃ field, names.foldlM storeOsVersion out = .ok { out with osVersion := field } ∧
      fieldString field = some (names.getLast?.getD v) := by
  induction names generalizing out v with
  | nil => exact ⟨out.osVersion, rfl, hout⟩
  | cons name names ih =>
    obtain ⟨⟨hzero, hlt⟩, hnames⟩ := List.forall_mem_cons.mp hnames
    -- the induction goes on from the struct with the first name
    obtain ⟨out', hout'⟩ : ∃ out' : SysDevice, out' =
        { out with osVersion := overlay out.osVersion (name ++ [0]) } := ⟨_, rfl⟩
    have hstored : fieldString out'.osVersion = some name := by
      rw [hout']
      exact fieldString_overlay_concat_zero hzero hlt
    obtain ⟨field, hfold, hfield⟩ := ih hnames hstored
    rw [hout'] at hfold
    refine ⟨field, ?_, ?_⟩
    · rw [List.foldlM_cons, storeOsVersion, copyString_of_lt out.osVersion hlt]
      exact hfold
    · rw [List.getLast?_cons, Option.getD_some]
      exact hfield

/-- The two strings of a device. -/
structure SysDevice.Holds (device : SysDevice) (osVersion uptime : List UInt8) : Prop where
  osVersion_eq : fieldString device.osVersion = some osVersion
  uptime_eq : fieldString device.uptime = some uptime

/-- What the files say about the system: its names, and the seconds since its start. -/
structure DeviceFiles (h : Host) (lines : List OsReleaseLine) (seconds : ℕ) : Prop where
  release : h.file .osRelease = some (osReleaseText lines)
  plain : ∀ line ∈ lines, line.Plain
  uptime : ∃ rest, h.file .procUptime = some (Scanf.digits seconds ++ rest) ∧
    ∀ c ∈ rest.head?, ¬ isDigit c
  seconds_lt : seconds < 2 ^ 63

/-- The name that is left: the last one, or none. -/
def osName (lines : List OsReleaseLine) : List UInt8 := (osReleaseNames lines).getLast?.getD []

variable {seconds : ℕ}

/-- Read into a zeroed struct, the files leave the last name and the uptime. -/
theorem deviceRead_lines (hfiles : DeviceFiles h lines seconds) :
    ∃ device, deviceRead h .zeroed = .ok (errOk, device) ∧
      device.Holds (osName lines) (uptimeText seconds) := by
  have hblank : fieldString SysDevice.zeroed.osVersion = some [] := by decide +kernel
  obtain ⟨field, hfold, hfield⟩ := foldlM_storeOsVersion
    (fun name hname => fits_of_mem_osReleaseNames hfiles.plain hname) hblank
  have hchunks : (Stream.chunks buffDefault (osReleaseText lines)).foldlM osReleaseLine
      SysDevice.zeroed = .ok { SysDevice.zeroed with osVersion := field } := by
    rw [foldlM_eq_foldlM_flatMap osReleaseLine_eq, flatMap_osReleaseText hfiles.plain, hfold]
  -- `fscanf` stops at the point behind the seconds
  obtain ⟨rest, huptime, hrest⟩ := hfiles.uptime
  have hlt : (uptimeText seconds).length < 256 :=
    length_uptimeText_lt (by have := hfiles.seconds_lt; omega)
  refine ⟨{ SysDevice.zeroed with
    osVersion := field
    uptime := overlay SysDevice.zeroed.uptime (uptimeText seconds ++ [0]) }, ?_, hfield, ?_⟩
  · simp only [deviceRead, hfiles.release, hchunks, Except.ok_bind, deviceUpTime, huptime,
      Scanf.scanLd_digits hrest hfiles.seconds_lt, copyString_of_lt _ hlt]
    rfl
  · exact fieldString_overlay_concat_zero (zero_notMem_uptimeText seconds) hlt

/-- `device_read` leaves the last name of the release file and the uptime in days, hours and
minutes; the printed uptime tells the number of minutes, and no more; and what `find_lxd_pkgm`
returns is that name with its bytes shifted, from any arena with room. -/
theorem deviceTexts_read (h : Host) (lines : List OsReleaseLine) (seconds : ℕ)
    (hfiles : DeviceFiles h lines seconds) :
    (∃ device, deviceRead h .zeroed = .ok (errOk, device) ∧
      device.Holds (osName lines) (uptimeText seconds)) ∧
    (∀ seconds' : ℕ, uptimeText seconds' = uptimeText seconds ↔ seconds' / 60 = seconds / 60) ∧
    ∀ arena capacity s, ArenaAt arena capacity s → HasRoom arena capacity s lxdRoom →
      LxdReturns h arena s ((osName lines).map shiftedByte ++ [0]) := by
  obtain ⟨device, hread, hholds⟩ := deviceRead_lines hfiles
  refine ⟨⟨device, hread, hholds⟩, fun seconds' => uptimeText_eq_iff, ?_⟩
  intro arena capacity s hat hroom
  have hv : OsVersion h (osName lines) := by
    rw [OsVersion, hread]
    exact congrArg Except.ok hholds.osVersion_eq
  exact findLxdPkgm_eq hat hroom hv

/-- A release file whose second name counts. -/
def sampleRelease : List OsReleaseLine :=
  [.name (ascii "Debian"), .other (ascii "ID=debian"), .name (ascii "Linux Mint")]

/-- The files of a system that has run for a day and a half. -/
def releaseFile : Path → Option (List UInt8)
  | .osRelease => some (osReleaseText sampleRelease)
  | .procUptime => some (ascii "129600.25 80000.00\n")
  | _ => none

/-- A host with two names in its `os-release`. -/
def releaseHost : Host :=
  { Kernel.above with file := releaseFile, fclose := fun _ => 0, now := fun _ => 0 }

theorem deviceTexts_read_sample :
    (∃ device, deviceRead releaseHost .zeroed = .ok (errOk, device) ∧
      device.Holds (ascii "Linux Mint") (ascii "1d 12h 0m")) ∧
    LxdReturns releaseHost 4096 (arenaCreate Kernel.above (KiB 8) Proc.fresh).2
      (ascii "linux" ++ 0 :: ascii "mint" ++ [0]) := by
  have hfiles : DeviceFiles releaseHost sampleRelease 129600 := by
    refine ⟨rfl, by decide +kernel, ⟨ascii ".25 80000.00\n", by decide +kernel, ?_⟩, by decide⟩
    decide +kernel
  obtain ⟨⟨device, hread, hholds⟩, -, hreturns⟩ :=
    deviceTexts_read releaseHost sampleRelease 129600 hfiles
  have hname : osName sampleRelease = ascii "Linux Mint" := by decide +kernel
  have huptime : uptimeText (129600 : ℕ) = ascii "1d 12h 0m" := by decide +kernel
  have hlower : (ascii "Linux Mint").map shiftedByte ++ [0] =
      ascii "linux" ++ 0 :: ascii "mint" ++ [0] := by decide +kernel
  rw [hname, huptime] at hholds
  refine ⟨⟨device, hread, hholds⟩, ?_⟩
  rw [← hlower, ← hname]
  exact hreturns _ _ _ lxdRoom_created.1 lxdRoom_created.2

end AgentResources
