import AegisSoc.Lib.Machine
import AegisSoc.Lib.PortMemory
import AegisSoc.Lib.PortClient
import AegisSoc.Lib.RoundRobin
import AegisSoc.Lib.Lanes
import AegisSoc.Lib.Fields
import AegisSoc.Lib.Transactions
import AegisSoc.Types
import AegisSoc.Memory.HBM3Stack
import AegisSoc.Memory.SplitPrioritizer
import AegisSoc.Memory.Fairness
import AegisSoc.Cpu.CoreMemToHBM
import AegisSoc.Cpu.StoreExact
import AegisSoc.Memory.Fabric
import AegisSoc.Bridge.AXIToMemReq
import AegisSoc.Bridge.AxiSlave
import AegisSoc.Gpu.GPUL2Cache
import AegisSoc.Gpu.ClusterData
import AegisSoc.Gpu.ClusterPort
import AegisSoc.Gpu.GpuPath
import AegisSoc.Gpu.SimtCore
import AegisSoc.Gpu.SimtKernel
import AegisSoc.LostUpdate
import AegisSoc.Cpu.RiscVICore
import AegisSoc.Cpu.StallInsensitive
import AegisSoc.Cpu.Asm
import AegisSoc.Cpu.Transfers
import AegisSoc.Cpu.CpuLane
import AegisSoc.Cpu.DataPaths
import AegisSoc.FixedFunc.GemmToMem
import AegisSoc.FixedFunc.GemmRun
import AegisSoc.FixedFunc.GemmPace
import AegisSoc.FixedFunc.GemmShared
import AegisSoc.FixedFunc.GemmHistory
import AegisSoc.Top
import AegisSoc.LockStep
import AegisSoc.Noninterference
import AegisSoc.SimtShared
import AegisSoc.Memory.PageTable
import AegisSoc.Cpu.Compute
import AegisSoc.Cpu.Loads
import AegisSoc.Techlib.Cmos
import AegisSoc.Lib.Switch
import AegisSoc.Cpu.Rv32i
import AegisSoc.Cpu.Hart
import AegisSoc.Memory.Service
import AegisSoc.Liveness
import AegisSoc.Program
import AegisSoc.GpuService
import AegisSoc.SimtCompletes
import AegisSoc.FixedFunc.GemmStored
import AegisSoc.GemmCompletes
import AegisSoc.Refresh
import AegisSoc.Mirror
import AegisSoc.Techlib.Techmap
import AegisSoc.Elaborate
