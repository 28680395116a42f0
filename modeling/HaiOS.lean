import HaiOS.Log.Group
import HaiOS.Fs.Checksums
import HaiOS.Fs.Merged
import HaiOS.Fs.Reclaim
import HaiOS.Console.Lines
import HaiOS.Dir.Reading
import HaiOS.Pipe.Wakeup
import HaiOS.Proc.Pick
import HaiOS.Boot.Bss
import HaiOS.Info.Calls
import HaiOS.Vm.Argv
import HaiOS.File.SysPipe
import HaiOS.Vm.Spawn
import HaiOS.Vm.Lazy
import HaiOS.Fs.Statfs
import HaiOS.Sysfile.Resolve
import HaiOS.Sysfile.Rollback
import HaiOS.Sysfile.Budget
import HaiOS.Fs.Adler
import HaiOS.Console.Printint
import HaiOS.Vm.Alarms
import HaiOS.Vm.Mapping
import HaiOS.Proc.Sleeplock
import HaiOS.Console.Uart
import HaiOS.Proc.Pause
