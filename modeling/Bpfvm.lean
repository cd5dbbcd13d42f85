import Bpfvm.Memory.HostAccess
import Bpfvm.Memory.Shared
import Bpfvm.Memory.Solo
import Bpfvm.Cpu.Conformance
import Bpfvm.Cpu.Faults
import Bpfvm.Cpu.FramePointer
import Bpfvm.Jit.ControlFlow
import Bpfvm.Jit.Probe
import Bpfvm.Jit.Safepoints
import Bpfvm.Jit.Tables
import Bpfvm.Process.ExitStatus
import Bpfvm.Process.GroupEnd
import Bpfvm.Process.GroupStop
import Bpfvm.Process.Sleep
import Bpfvm.Process.StackBounds
import Bpfvm.Process.WaitOptions
import Bpfvm.Process.Wakeup
import Bpfvm.Signal.Conservation
import Bpfvm.Signal.Depth
import Bpfvm.Signal.Interrupts
import Bpfvm.Signal.Jump
import Bpfvm.Signal.Mask
import Bpfvm.Signal.Pending
import Bpfvm.Posix.GroupSignals
import Bpfvm.Posix.Pump
import Bpfvm.Posix.Sockaddr
import Bpfvm.Debug.AllStop
import Bpfvm.Debug.Packets
import Bpfvm.Linker.DebugFrame
import Bpfvm.Linker.Hash
import Bpfvm.Passes.Int128
import Bpfvm.Passes.Vla
import Bpfvm.Ffi.Gap
