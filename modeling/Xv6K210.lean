import Xv6K210.Ipc.Pipe
import Xv6K210.Lock.Registry
import Xv6K210.Vm.EncodingRuns
import Xv6K210.Signal.Handler
import Xv6K210.Files.Devices
import Xv6K210.Mount.Invalidate
import Xv6K210.Burn.OneLoss
import Xv6K210.Shell.RoundTrip
import Xv6K210.Alloc.Conservation
import Xv6K210.Slab.Objects
import Xv6K210.Wait.Accounting
import Xv6K210.Vm.Placement
import Xv6K210.Mount.Create
import Xv6K210.Fs.Table
import Xv6K210.Fs.ReadOnly
import Xv6K210.Fs.NameBuffer
import Xv6K210.Ecache.Getcwd
import Xv6K210.Buffer.Race
import Xv6K210.Oled.Image
import Xv6K210.Burn.Trim
import Xv6K210.Spi.Message
import Xv6K210.Spi.Transfers
import Xv6K210.Burn.Resync
import Xv6K210.Shell.LineEdit
import Xv6K210.Sched.Demotion
import Xv6K210.Dma.Wait
import Xv6K210.Driver.Capacity
import Xv6K210.Oled.Line
import Xv6K210.Printf.Numbers
import Xv6K210.Printf.Kernel
import Xv6K210.Vm.Realization
import Xv6K210.Umalloc.Runs
import Xv6K210.Vm.ExecRuns
import Xv6K210.Vm.ForkRuns
import Xv6K210.Vm.Copies
import Xv6K210.Console.Tty
import Xv6K210.Console.Foreground
import Xv6K210.Shell.Grep
import Xv6K210.Shell.Run
import Xv6K210.Driver.VirtioRuns
import Xv6K210.Driver.Uarths
import Xv6K210.Driver.UarthsWrite
