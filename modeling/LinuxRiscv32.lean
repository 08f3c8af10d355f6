import LinuxRiscv32.Common.Machine
import LinuxRiscv32.Common.Measure
import LinuxRiscv32.Common.Permits
import LinuxRiscv32.Kernel.SysVSem
import LinuxRiscv32.C.Shm
import LinuxRiscv32.C.PiSem
import LinuxRiscv32.C.PiSemStartup
import LinuxRiscv32.C.SharedLock
import LinuxRiscv32.C.PosixShm
import LinuxRiscv32.C.PosixShmLife
import LinuxRiscv32.C.PosixShmCount
import LinuxRiscv32.C.EpollServer
import LinuxRiscv32.C.PaymentQueue
import LinuxRiscv32.Common.ByteLog
import LinuxRiscv32.Common.CInt
import LinuxRiscv32.Kernel.Vfs
import LinuxRiscv32.Modules.Chardev
import LinuxRiscv32.Modules.ChardevSafe
import LinuxRiscv32.Modules.ChardevFile
import LinuxRiscv32.Modules.ChardevMap
import LinuxRiscv32.C.ReadCounter
import LinuxRiscv32.C.ShmCrash
import LinuxRiscv32.Modules.Mychardev
import LinuxRiscv32.Modules.ChardevFault
import LinuxRiscv32.Modules.GpioSimInt
import LinuxRiscv32.Modules.GpioIrq
import LinuxRiscv32.C.Logger
import LinuxRiscv32.C.Health
import LinuxRiscv32.C.SharedLog
import LinuxRiscv32.C.EpollDescriptors
import LinuxRiscv32.C.EpollPeers
import LinuxRiscv32.Modules.ChardevLoops
import LinuxRiscv32.Modules.ChardevReturn
import LinuxRiscv32.Modules.ChardevChunks
import LinuxRiscv32.C.ForkServer
import LinuxRiscv32.C.BusyWait
import LinuxRiscv32.C.TimerAccuracy
import LinuxRiscv32.C.FreerunFreq
import LinuxRiscv32.C.HandleClient
import LinuxRiscv32.Modules.VirtInt
import LinuxRiscv32.Modules.VirtIntLed
import LinuxRiscv32.Modules.VirtIntCount
import LinuxRiscv32.Modules.GpioLed
import LinuxRiscv32.Kernel.PlatformDriver
import LinuxRiscv32.Modules.GpioSimDemo
import LinuxRiscv32.Modules.GpioReady
import LinuxRiscv32.C.LoggerFifo
import LinuxRiscv32.Common.Lines
import LinuxRiscv32.C.EpollReplies
import LinuxRiscv32.C.HealthLog
import LinuxRiscv32.C.Inversion
import LinuxRiscv32.Common.PriorityLock
import LinuxRiscv32.Riscv.Exec
import LinuxRiscv32.Riscv.Instr
import LinuxRiscv32.C.MemEx
import LinuxRiscv32.C.RdtimeAsm
import LinuxRiscv32.Common.Stages
import LinuxRiscv32.Kernel.Module
import LinuxRiscv32.Modules.ChardevLife
import LinuxRiscv32.Modules.Sysfs
import LinuxRiscv32.Modules.GpioHeld
import LinuxRiscv32.Kernel.Hrtimer
import LinuxRiscv32.Modules.HrTimer
import LinuxRiscv32.Kernel.Process
import LinuxRiscv32.Kernel.ProcessTree
import LinuxRiscv32.C.Pipe2
import LinuxRiscv32.C.Pipe2Ends
import LinuxRiscv32.C.Pipe2Screen
import LinuxRiscv32.C.ClientDate
import LinuxRiscv32.C.ClientDateServed
import LinuxRiscv32.C.Select
