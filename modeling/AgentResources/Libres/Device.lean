import AgentResources.Base.Arena
import AgentResources.Base.Host
import AgentResources.Foundations.Layout
import AgentResources.Foundations.Scanf
import AgentResources.Foundations.Stream

/-!
# Reading the device

`device_read` and `device_up_time` of `resources.cc`, on the struct as a record.

-/

namespace AgentResources

/-- `struct sys_device`; `processes` stands for its list of three words. -/
structure SysDevice where
  osVersion : Vector UInt8 256
  uptime : Vector UInt8 256
  processes : UInt64 × UInt64 × UInt64
  port : UInt64
  deriving DecidableEq

instance : Layout SysDevice := Layout.ofFields
  (fun d => (d.osVersion, d.uptime, d.processes, d.port)) (fun (v, u, l, p) => ⟨v, u, l, p⟩)
  fun _ => rfl

/-- `sizeof(sys_device)` -/
def sizeofSysDevice : UInt64 := 544

/-- `device_create` -/
def deviceCreate (arena : ℕ) (s : Proc) : Except Halt (ℕ × Proc) :=
  arenaAlloc arena sizeofSysDevice s

/-- What `device_up_time` prints for `s` seconds. -/
def uptimeText (s : ℤ) : List UInt8 :=
  Scanf.decimal (s.tdiv 86400) ++ ascii "d " ++
    Scanf.decimal ((s.tmod 86400).tdiv 3600) ++ ascii "h " ++
    Scanf.decimal ((s.tmod 3600).tdiv 60) ++ ascii "m"

/-- `device_up_time` -/
def deviceUpTime (h : Host) (out : SysDevice) : Except Halt (ℤ × SysDevice) :=
  match h.file .procUptime with
  | none => .error .assertFailed
  | some text =>
    match Scanf.scanLd text with
    | none => .error .assertFailed
    | some (s, _) => do
      let uptime ← copyString out.uptime (uptimeText s)
      return (errOk, { out with uptime })

/-- The text between the first two quotes of a `NAME=` line. -/
def quotedName (chunk : List UInt8) : Option (List UInt8) :=
  let buffer := cstr chunk
  if (ascii "NAME=").isPrefixOf buffer then do
    let start ← strchr buffer 34
    let start := start.drop 1
    let rest ← strchr start 34
    return start.take (start.length - rest.length)
  else none

/-- What `device_read` does with a chunk of `/etc/os-release`. -/
def osReleaseLine (out : SysDevice) (chunk : List UInt8) : Except Halt SysDevice :=
  match quotedName chunk with
  | none => .ok out
  | some name =>
    if name.length < 256 then do
      let osVersion ← copyString out.osVersion name
      return { out with osVersion }
    else .ok out

/-- `device_read`: the code of `device_up_time` is not looked at. -/
def deviceRead (h : Host) (out : SysDevice) : Except Halt (ℤ × SysDevice) :=
  match h.file .osRelease with
  | none => .ok (errIo, out)
  | some text => do
    let out ← (Stream.chunks buffDefault text).foldlM osReleaseLine out
    let (_, out) ← deviceUpTime h out
    return (errOk, out)

/-! ## When the reader returns -/

variable {h : Host} {out : SysDevice}

/-- The file is there and begins with a number. -/
def UptimeReadable (h : Host) : Prop :=
  ∃ text, h.file .procUptime = some text ∧ (Scanf.scanLd text).isSome

/-- What is printed for any number of seconds fits the field. -/
theorem length_uptimeText_lt {s : ℤ} (hs : s.natAbs ≤ 2 ^ 63) : (uptimeText s).length < 256 := by
  have hday := Scanf.length_decimal_le (i := s.tdiv 86400) (by
    rw [Int.natAbs_tdiv]
    exact (Nat.div_le_self _ _).trans hs)
  have hhour := Scanf.length_decimal_le (i := (s.tmod 86400).tdiv 3600) (by
    rw [Int.natAbs_tdiv, Int.natAbs_tmod]
    exact (Nat.div_le_self _ _).trans ((Nat.mod_le _ _).trans hs))
  have hmin := Scanf.length_decimal_le (i := (s.tmod 3600).tdiv 60) (by
    rw [Int.natAbs_tdiv, Int.natAbs_tmod]
    exact (Nat.div_le_self _ _).trans ((Nat.mod_le _ _).trans hs))
  have hd : (ascii "d ").length = 2 := by decide
  have hh : (ascii "h ").length = 2 := by decide
  have hm : (ascii "m").length = 1 := by decide
  simp only [uptimeText, List.length_append, hd, hh, hm]
  omega

theorem deviceUpTime_returns :
    Except.Returns (deviceUpTime h out) (UptimeReadable h) fun r => r.1 = errOk := by
  unfold deviceUpTime
  cases hfile : h.file .procUptime with
  | none =>
    exact Except.Returns.error _ (by simp [UptimeReadable, hfile])
  | some text =>
    dsimp only
    cases hscan : Scanf.scanLd text with
    | none =>
      exact Except.Returns.error _ (by simp [UptimeReadable, hfile, hscan])
    | some v =>
      have hlt := length_uptimeText_lt (Scanf.natAbs_scanLd_le hscan)
      dsimp only
      rw [copyString_of_lt out.uptime hlt, Except.ok_bind]
      have hreadable : UptimeReadable h := ⟨text, hfile, by simp [hscan]⟩
      exact Except.Returns.ok_of hreadable rfl

/-- A chunk of `/etc/os-release` always goes through: a name too long for the field is left out. -/
theorem osReleaseLine_returns (chunk : List UInt8) :
    Except.Returns (osReleaseLine out chunk) True fun _ => True := by
  unfold osReleaseLine
  cases quotedName chunk with
  | none => exact Except.Returns.ok trivial
  | some name =>
    dsimp only
    split
    · next hlt =>
      rw [copyString_of_lt out.osVersion hlt, Except.ok_bind]
      exact Except.Returns.ok trivial
    · exact Except.Returns.ok trivial

/-- A missing `/etc/os-release` is reported; with it there, the reader returns iff the uptime is
readable, and reports success. -/
theorem deviceRead_returns :
    Except.Returns (deviceRead h out) (h.file .osRelease ≠ none → UptimeReadable h) fun r =>
      r.1 = if h.file .osRelease = none then errIo else errOk := by
  unfold deviceRead
  cases hfile : h.file .osRelease with
  | none => exact (Except.Returns.ok (by simp)).imp (by simp) fun _ hr => hr
  | some text =>
    refine ((Except.Returns.foldlM (fun _ => True)
      (fun out chunk _ => osReleaseLine_returns chunk) trivial).bind fun out' _ =>
        deviceUpTime_returns.bind fun r _ => Except.Returns.ok ?_).imp ?_ fun _ hr => hr
    · simp
    · simp

end AgentResources
