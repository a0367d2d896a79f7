import NorlitOS.Lib.Dyadic
import NorlitOS.Lib.Chain
import NorlitOS.Machine
import NorlitOS.Memory.Heap
import NorlitOS.Memory.FreeList
import NorlitOS.Memory.Alloc
import NorlitOS.Lib.Run
import NorlitOS.Memory.Invariant
import NorlitOS.Memory.Session
import NorlitOS.Memory.Client
import NorlitOS.Lib.Loop
import NorlitOS.Process.Kernel
import NorlitOS.Process.Page
import NorlitOS.Process.Proc
import NorlitOS.Lib.Ledger
import NorlitOS.Lib.Ring
import NorlitOS.Process.Owner
import NorlitOS.Process.Layout
import NorlitOS.Process.Mapping
import NorlitOS.Process.Schedule
import NorlitOS.Process.Threads
import NorlitOS.Process.Queue
import NorlitOS.Process.Wake
import NorlitOS.Process.Interrupt
import NorlitOS.Process.Send
import NorlitOS.Process.Receive
import NorlitOS.Process.MapCalls
import NorlitOS.Process.Switch
import NorlitOS.Process.Spawn
import NorlitOS.Process.Create
import NorlitOS.Process.Boot
import NorlitOS.Process.Recycle
import NorlitOS.Process.Depart
import NorlitOS.Process.Bookkeeping
import NorlitOS.Process.Delivery
import NorlitOS.Process.Devices
import NorlitOS.Process.Ownership
import NorlitOS.Process.Steadiness
import NorlitOS.Process.Isolation
import NorlitOS.Lib.Select
import NorlitOS.Process.Authentic
import NorlitOS.Process.Mailbox
import NorlitOS.Process.Selective
import NorlitOS.Process.Rotation
import NorlitOS.Driver.Input
import NorlitOS.Driver.Interleave
import NorlitOS.Memory.BootMap
import NorlitOS.Lib.Share
import NorlitOS.Process.Identifiers
import NorlitOS.Process.Resume
import NorlitOS.Process.Search
import NorlitOS.Process.Selection
import NorlitOS.Process.Share
import NorlitOS.Process.Windows
import NorlitOS.FileSystem.Create
import NorlitOS.FileSystem.Format
import NorlitOS.FileSystem.Heads
import NorlitOS.FileSystem.Accounts
import NorlitOS.FileSystem.Names
import NorlitOS.FileSystem.Space
import NorlitOS.FileSystem.Seek
import NorlitOS.FileSystem.Trace
import NorlitOS.FileSystem.Stable
import NorlitOS.FileSystem.Inside
import NorlitOS.HardDisk.Confine
import NorlitOS.HardDisk.Replies
import NorlitOS.HardDisk.Boot
import NorlitOS.HardDisk.Table
import NorlitOS.HardDisk.Window
import NorlitOS.Memory.Decompose
import NorlitOS.Memory.Adequate
import NorlitOS.Memory.Canonical
import NorlitOS.Memory.Paging
import NorlitOS.HardDisk.Address
import NorlitOS.Lib.Gregorian
import NorlitOS.Clock.Time
import NorlitOS.Clock.Division
import NorlitOS.Clock.Calendar
import NorlitOS.Clock.Seconds
import NorlitOS.Clock.Rtc
import NorlitOS.Format.Itoa
import NorlitOS.Format.Buffer
import NorlitOS.Format.Vsprintf
import NorlitOS.Format.Directive
import NorlitOS.Format.Scan
import NorlitOS.Format.Star
import NorlitOS.Process.Access
import NorlitOS.Process.Teardown
import NorlitOS.HardDisk.PartName
import NorlitOS.Lib.Reading
import NorlitOS.Acpi.Madt
import NorlitOS.Acpi.TempMap
import NorlitOS.Acpi.Covered
import NorlitOS.Video.Console
import NorlitOS.Lib.Rings
import NorlitOS.LinkedList
import NorlitOS.Format.Total
import NorlitOS.Process.Pages
import NorlitOS.Process.Memory
import NorlitOS.Process.Contents
import NorlitOS.Process.Privilege
import NorlitOS.Lib.Ia32
import NorlitOS.Process.Stubs
import NorlitOS.Process.Traps
import NorlitOS.Lib.Calls
import NorlitOS.Lib.Volume
import NorlitOS.FileSystem.Enter
import NorlitOS.FileSystem.Program
import NorlitOS.FileSystem.Volume
import NorlitOS.FileSystem.Moments
import NorlitOS.FileSystem.Recovery
import NorlitOS.FileSystem.Mkfs
import NorlitOS.HardDisk.Stack
import NorlitOS.HardDisk.Session
