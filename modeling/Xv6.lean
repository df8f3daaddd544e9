import Xv6.Sched.Selection
import Xv6.Sched.Dispatch
import Xv6.Sched.Deadlock
import Xv6.Sched.Sleep
import Xv6.Sched.Priority
import Xv6.Sched.Demotion
import Xv6.Sched.ModeSwitch
import Xv6.Thread.Consistency
import Xv6.Thread.LostWakeup
import Xv6.Thread.Reaping
import Xv6.Thread.Kill
import Xv6.Thread.Join
import Xv6.Thread.Grow
import Xv6.Thread.MainFrame
import Xv6.Thread.Clone
import Xv6.Vm.ForkFailure
import Xv6.Vm.Argv
import Xv6.Vm.Copyinstr
import Xv6.Vm.Pipe
import Xv6.Fs.Crash
import Xv6.Fs.Symlink
import Xv6.Fs.Reserve
import Xv6.Fs.Writing
import Xv6.Fs.Refine
import Xv6.Fs.Dinode
import Xv6.Fs.Directory
import Xv6.Vm.Eager
