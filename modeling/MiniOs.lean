import MiniOs.Driven
import MiniOs.Lts
import MiniOs.Positional
import MiniOs.NullChain
import MiniOs.ResourcePool
import MiniOs.ByteMemory
import MiniOs.Machine
import MiniOs.PageAlloc
import MiniOs.PagePool
import MiniOs.PageOwnership
import MiniOs.Watermark
import MiniOs.PagePeak
import MiniOs.RingIndex
import MiniOs.UartRx
import MiniOs.UartFifo
import MiniOs.UartAccounting
import MiniOs.UartDrain
import MiniOs.Periods
import MiniOs.Timer
import MiniOs.EventRegister
import MiniOs.Wakeup
import MiniOs.SleepTicks
import MiniOs.PageWalk
import MiniOs.Mmu
import MiniOs.Registers
import MiniOs.PackedFields
import MiniOs.GicDistributor
import MiniOs.MmuIdentity
import MiniOs.MmuInit
import MiniOs.TaskSwitch
import MiniOs.CyclicScan
import MiniOs.Task
import MiniOs.TaskInvariant
import MiniOs.TaskRun
import MiniOs.TaskFairness
import MiniOs.TaskStats
import MiniOs.TaskOwnership
import MiniOs.TaskQuarantine
import MiniOs.TaskContext
import MiniOs.TaskHandover
import MiniOs.CString
import MiniOs.ShellParse
import MiniOs.WordSplit
import MiniOs.ShellTokenize
import MiniOs.ShellQuoting
import MiniOs.Console
import MiniOs.ConsoleHistory
import MiniOs.ConsoleEditor
import MiniOs.ConsoleRun
import MiniOs.ShellCommands
import MiniOs.ShellRun
import MiniOs.Memtest
import MiniOs.ConsoleCall
import MiniOs.ConsoleNavigation
import MiniOs.Terminal
import MiniOs.ConsoleDisplay
import MiniOs.ConsoleEscape
import MiniOs.Decimal
import MiniOs.ExceptionVectors
import MiniOs.TaskDemo
import MiniOs.TaskDemoRun
import MiniOs.TaskDemoLaunch
import MiniOs.PageUnwind
import MiniOs.GicController
import MiniOs.Interrupts
import MiniOs.InterruptRun
import MiniOs.InterruptTraffic
import MiniOs.InterruptProgress
import MiniOs.InterruptWakeup
import MiniOs.ShellSession
import MiniOs.InterruptShell
import MiniOs.Transmitter
import MiniOs.UartInit
import MiniOs.UartTransmit
import MiniOs.ShellShutdown
import MiniOs.Disturbed
import MiniOs.InterruptedSwitch
import MiniOs.Boot
import MiniOs.ExceptionReport
import MiniOs.ShellTyping
import MiniOs.ShellPrinting
import MiniOs.KernelMain
