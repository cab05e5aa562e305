import AgentResources.Base.Arena
import AgentResources.Base.ArenaAlign
import AgentResources.Base.ArenaResize
import AgentResources.Base.ArenaRun
import AgentResources.Base.ArenaSafety
import AgentResources.Base.Host
import AgentResources.Base.Parse
import AgentResources.Base.ResizeContract
import AgentResources.Base.Stack
import AgentResources.Base.StackRun
import AgentResources.Base.TempScope
import AgentResources.Foundations.CString
import AgentResources.Foundations.Except
import AgentResources.Foundations.Layout
import AgentResources.Foundations.LineScan
import AgentResources.Foundations.LittleEndian
import AgentResources.Foundations.Memory
import AgentResources.Foundations.Nesting
import AgentResources.Foundations.Process
import AgentResources.Foundations.Run
import AgentResources.Foundations.Scanf
import AgentResources.Foundations.Stream
import AgentResources.Foundations.Watermark
import AgentResources.Grpc.Failures
import AgentResources.Grpc.HandlerOutcome
import AgentResources.Grpc.Replies
import AgentResources.Grpc.ResourceHandler
import AgentResources.Libnet.Net
import AgentResources.Libres.Cpu
import AgentResources.Libres.CpuReadable
import AgentResources.Libres.Device
import AgentResources.Libres.Disk
import AgentResources.Libres.FieldBounds
import AgentResources.Libres.ProcessRead
import AgentResources.Libres.Ram
import AgentResources.Libres.TrueLines
import AgentResources.Base.ArenaList
import AgentResources.Libres.ProcessList
import AgentResources.Libres.DiskList
import AgentResources.Libres.ListRun
import AgentResources.Libres.ListReads
import AgentResources.Base.StackResize
import AgentResources.Base.StackPop
import AgentResources.Base.ProcEntries
import AgentResources.Libres.CpuValues
import AgentResources.Libres.CpuList
import AgentResources.Libres.ProcessStatus
import AgentResources.Base.TextScan
import AgentResources.Libnet.PortLoop
import AgentResources.Libpkg.Pkg
import AgentResources.Base.ListGrowth
import AgentResources.Libres.PartitionTable
import AgentResources.Libres.ProcessNames
import AgentResources.Libres.MemInfo
import AgentResources.Libres.CpuUsage
import AgentResources.Base.WriteInt
import AgentResources.Foundations.Ownership
import AgentResources.Foundations.Threads
import AgentResources.Foundations.MappedParts
import AgentResources.Foundations.Isolation
import AgentResources.Base.Locality
import AgentResources.Base.Heap
import AgentResources.Base.AllocatorModel
import AgentResources.Base.HeapModel
import AgentResources.Base.StackUnwind
import AgentResources.Grpc.Server
import AgentResources.Grpc.CallsInFlight
import AgentResources.Libres.CpuText
import AgentResources.Grpc.Service
import AgentResources.Libpkg.Release
import AgentResources.Libres.SystemCalls
