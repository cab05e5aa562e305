import AgentResources.Base.Arena
import AgentResources.Base.Host
import AgentResources.Base.Parse

/-!
# Reading the ports

`port_read_tcp4` and `port_read_tcp6` of `net.cc`.
-/

namespace AgentResources

/-- The loop that reads a byte into the start of `buffer` and goes on while the buffer holds a
newline. At the end of the file a read leaves the buffer as it is, and so the loop there either ends
at once or never. -/
def portReadLoop (buffer : ℕ) : List UInt8 → Proc → Except Halt Proc
  | [], s => do
    if (← compareString (s.mem.load buffer buffSmall) [10, 0]) = 0 then .error .hang
    return s
  | b :: rest, s => do
    let s := s.withMem (s.mem.store buffer [b])
    if (← compareString (s.mem.load buffer buffSmall) [10, 0]) = 0 then portReadLoop buffer rest s
    else return s

/-- The common body of the two functions, for the path it opens. A read into the null pointer
fails, and then the comparison reads from it. -/
def portRead (path : Path) (h : Host) (device : ℕ) (s : Proc) : Except Halt (ℤ × Proc) :=
  if device = NULL then .ok (errInvalid, s)
  else
    let (tempArena, s) := arenaCreate h.toKernel (KiB 8) s
    match h.file path with
    | none => .ok (errIo, s)
    | some text => do
      let (buffer, s) ← pushArray tempArena 1 (UInt64.ofNat buffSmall) s
      if buffer = NULL then .error (.undefined .nullPointer)
      let s ← portReadLoop buffer text s
      return (errOk, arenaDestroy tempArena s)

/-- `port_read_tcp4` -/
def portReadTcp4 (h : Host) (device : ℕ) (s : Proc) : Except Halt (ℤ × Proc) :=
  portRead .etcTcp h device s

/-- `port_read_tcp6` -/
def portReadTcp6 (h : Host) (device : ℕ) (s : Proc) : Except Halt (ℤ × Proc) :=
  portRead .etcTcp6 h device s

end AgentResources
