import AgentResources.Base.Arena
import AgentResources.Base.Host

/-!
# Wrapped system calls

`fs_read` and `process_kill` of `resources.cc` pass on what one system call says. The calls are
parameters: what `statfs` fills in for a path, and how `kill` fails.

## Main results

* `fsRead_used_add_free`: the used and the free bytes are the total, in machine words;
* `fsRead_exact_iff`: the sizes are exact iff the total is below `2 ^ 64`;
* `processKill_eq_ok`: no error code of `process_kill` is ever returned.
-/

namespace AgentResources

/-! ## `fs_read` -/

/-- `struct sys_filesystem` -/
structure SysFs where
  total : UInt64
  free : UInt64
  available : UInt64
  used : UInt64
  deriving DecidableEq

/-- `sizeof(sys_fs)` -/
def sizeofSysFs : UInt64 := 32

/-- `fs_create` -/
def fsCreate (arena : ℕ) (s : Proc) : Except Halt (ℕ × Proc) :=
  arenaAlloc arena sizeofSysFs s

/-- The fields of `struct statfs` that are read. -/
structure Statfs where
  bsize : Int64
  blocks : UInt64
  bfree : UInt64
  bavail : UInt64

/-- `fs_read` -/
def fsRead (statfs : List UInt8 → Option Statfs) (path : List UInt8) (fs : SysFs) : ℤ × SysFs :=
  match statfs path with
  | none => (errIo, fs)
  | some s =>
    let bsize := s.bsize.toUInt64
    (errOk,
      { total := s.blocks * bsize
        free := s.bfree * bsize
        available := s.bavail * bsize
        used := (s.blocks - s.bfree) * bsize })

variable {statfs : List UInt8 → Option Statfs} {path : List UInt8} {fs : SysFs} {s : Statfs}

/-- A call that fails leaves the struct alone. -/
theorem fsRead_of_none (hpath : statfs path = none) : fsRead statfs path fs = (errIo, fs) := by
  rw [fsRead, hpath]

/-- The used and the free bytes are the total, also where the products wrap around. -/
theorem fsRead_used_add_free (hpath : statfs path = some s) :
    (fsRead statfs path fs).2.used + (fsRead statfs path fs).2.free =
      (fsRead statfs path fs).2.total := by
  simp only [fsRead, hpath]
  rw [← UInt64.add_mul, UInt64.sub_add_cancel]

/-- No more blocks are free than there are, and none is available that is not free. -/
def Statfs.Sane (s : Statfs) : Prop := s.bavail ≤ s.bfree ∧ s.bfree ≤ s.blocks

/-- The sizes in bytes. -/
structure SysFs.InBytes (fs : SysFs) (s : Statfs) : Prop where
  total : fs.total.toNat = s.blocks.toNat * s.bsize.toUInt64.toNat
  free : fs.free.toNat = s.bfree.toNat * s.bsize.toUInt64.toNat
  available : fs.available.toNat = s.bavail.toNat * s.bsize.toUInt64.toNat
  used : fs.used.toNat = (s.blocks.toNat - s.bfree.toNat) * s.bsize.toUInt64.toNat

/-- The sizes of a sane file system are exact iff the total fits a machine word. -/
theorem fsRead_exact_iff (hpath : statfs path = some s) (hs : s.Sane) :
    (fsRead statfs path fs).2.InBytes s ↔ s.blocks.toNat * s.bsize.toUInt64.toNat < 2 ^ 64 := by
  obtain ⟨havail, hfree⟩ := hs
  have hproduct : ∀ a b : UInt64, (a * b).toNat = a.toNat * b.toNat ↔
      a.toNat * b.toNat < 2 ^ 64 := by
    intro a b
    rw [UInt64.toNat_mul]
    exact ⟨fun heq => heq ▸ Nat.mod_lt _ (by decide), Nat.mod_eq_of_lt⟩
  simp only [fsRead, hpath]
  constructor
  · intro hexact
    exact (hproduct _ _).mp hexact.total
  · intro hlt
    -- the other products are no larger
    have hle : ∀ {a : UInt64}, a ≤ s.blocks → (a * s.bsize.toUInt64).toNat =
        a.toNat * s.bsize.toUInt64.toNat := fun ha =>
      (hproduct _ _).mpr ((Nat.mul_le_mul_right _ (UInt64.le_iff_toNat_le.mp ha)).trans_lt hlt)
    refine ⟨hle UInt64.le_rfl, hle hfree, hle (UInt64.le_trans havail hfree), ?_⟩
    have hsub : (s.blocks - s.bfree).toNat = s.blocks.toNat - s.bfree.toNat :=
      UInt64.toNat_sub_of_le _ _ hfree
    have hused : s.blocks - s.bfree ≤ s.blocks := by
      rw [UInt64.le_iff_toNat_le, hsub]
      exact Nat.sub_le _ _
    rw [← hsub]
    exact hle hused

/-! ## `process_kill` -/

/-- The value of `errno` after a `kill` that failed. -/
inductive KillError
  | eperm
  | esrch
  | other

/-- `process_kill` -/
def processKill (kill : Int32 → Int32 → Option KillError) (pid signal : Int32) : Except Halt ℤ :=
  if pid ≤ 0 then .error .assertFailed
  else
    match kill pid signal with
    | none => .ok errOk
    | some .eperm => .error .assertFailed
    | some .esrch => .error .assertFailed
    | some .other => .error .assertFailed

/-- It returns iff the signal is sent, and then `ERR_OK`: an assertion fails before each of the
codes that are documented for errors. -/
theorem processKill_eq_ok {kill : Int32 → Int32 → Option KillError} {pid signal : Int32}
    {code : ℤ} : processKill kill pid signal = .ok code ↔
      ¬ pid ≤ 0 ∧ kill pid signal = none ∧ code = errOk := by
  unfold processKill
  by_cases hpid : pid ≤ 0
  · rw [if_pos hpid]
    simp [hpid]
  · rw [if_neg hpid]
    rcases kill pid signal with _ | (_ | _ | _) <;> simp [hpid, eq_comm]

end AgentResources
