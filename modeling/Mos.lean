import Mos.Lib.TailQueue
import Mos.Lib.RefCount
import Mos.Lib.Program
import Mos.Lib.System
import Mos.Kern.Mmu
import Mos.Kern.State
import Mos.Kern.Pmap
import Mos.Kern.Env
import Mos.Kern.Syscall
import Mos.Kern.Trap
import Mos.Kern.Rules
import Mos.Sched
import Mos.Kern.Specs
import Mos.Security.Privilege
import Mos.Kern.Effects
import Mos.Ipc.ExactlyOnce
import Mos.Kern.Slots
import Mos.Kern.Records
import Mos.Mem.AddressSpace
import Mos.Mem.Counting
import Mos.Mem.PageSpecs
import Mos.Ipc.ReturnValue
import Mos.Mem.Spaces
import Mos.Lib.Process
import Mos.Shell.Lexer
import Mos.Shell.Parse
import Mos.Shell.Rules
import Mos.Shell.Report
import Mos.Shell.Skip
import Mos.Shell.Line
import Mos.Shell.ShortCircuit
import Mos.Lib.Bytes
import Mos.Fs.Disk
import Mos.Fs.File
import Mos.Fs.Serve
import Mos.Fs.Effects
import Mos.Fs.Image
import Mos.Fs.Edit
import Mos.Fs.Specs
import Mos.Fs.Init
import Mos.Fs.Run
import Mos.Fs.Sync
import Mos.Fs.Access
import Mos.Lib.Ring
import Mos.Pipe.Stream
import Mos.Kern.Identity
import Mos.Kern.Reuse
import Mos.Jobs.Table
import Mos.Jobs.Kill
import Mos.Jobs.Status
import Mos.Ipc.PageSent
import Mos.Mem.Vm
import Mos.Mem.Coherence
import Mos.Mem.Calls
import Mos.Mem.Boot
import Mos.Mem.Range
import Mos.Mem.Tlb
import Mos.User.File
import Mos.User.Window
import Mos.Ipc.Failure
import Mos.Shell.Bounds
import Mos.Kern.Asids
import Mos.Elf.Loader
import Mos.Mem.Exact
import Mos.Elf.Callbacks
import Mos.Elf.Segment
import Mos.Shell.Words
import Mos.Mem.Unspent
import Mos.Fs.Lookup
import Mos.Fs.Create
import Mos.Spawn.Stack
import Mos.User.Answers
import Mos.User.Open
import Mos.Fork.Cow
import Mos.Fork.Handler
import Mos.Fork.Permissions
import Mos.Fs.Resize
import Mos.User.Truncate
import Mos.Lib.RoundRobin
import Mos.RoundRobin
import Mos.Fs.Alloc
import Mos.Shell.Readline
import Mos.User.Remove
import Mos.Lib.Ghost
import Mos.Shell.Argv
import Mos.Fs.Format
import Mos.Fs.Ide
import Mos.Print
import Mos.Strings
import Mos.User.Debugf
import Mos.Spawn.Suffix
import Mos.Spawn.Headers
import Mos.Mem.Assertions
import Mos.Mem.References
import Mos.Mem.Spares
import Mos.Security.Isolation
import Mos.Fs.Requests
import Mos.Fs.Names
import Mos.Fs.Naming
import Mos.Fs.NameMap
import Mos.User.Dup
