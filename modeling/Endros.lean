import Endros.Lib.Run
import Endros.Lib.RefCount
import Endros.Lib.Patch
import Endros.Lib.Chain
import Endros.Lib.Word
import Endros.Lib.Loop
import Endros.Lib.Radix
import Endros.Lib.Span
import Endros.Mem
import Endros.Block.Device
import Endros.Block.Cache
import Endros.Block.Refine
import Endros.Block.Sync
import Endros.Fs.File
import Endros.Fs.Bitmap
import Endros.Fs.Inode
import Endros.Fs.Truncate
import Endros.Fs.WellFormed
import Endros.Fs.Grow
import Endros.Fs.Flat
import Endros.Mkfs.Layout
import Endros.Mkfs.RoundTrip
import Endros.Mkfs.Create
import Endros.Mkfs.Blocks
import Endros.Mkfs.Consistent
import Endros.Proc.Table
import Endros.Proc.Wait
import Endros.Proc.Effect
import Endros.Proc.Files
import Endros.Proc.Roles
import Endros.Proc.Parents
import Endros.Virtio.Queue
import Endros.Virtio.Completion
import Endros.Virtio.Descriptors
import Endros.Virtio.Transfer
import Endros.Paging.Entry
import Endros.Paging.Kernel
import Endros.Paging.Tree
import Endros.Paging.Init
import Endros.Paging.Agree
import Endros.Paging.Fault
import Endros.Alloc.Heap
import Endros.Space.Memory
import Endros.Space.Tables
import Endros.Space.Heap
import Endros.Space.Map
import Endros.Fs.Outcome
import Endros.Proc.Access
import Endros.Io.File
import Endros.Io.Unwritable
import Endros.Block.Contract
import Endros.Block.Faults
import Endros.Mkfs.Walk
import Endros.Fs.Undo
import Endros.Io.Descriptors
import Endros.Mkfs.Ids
import Endros.Fs.Path
import Endros.Fs.Extend
import Endros.Fs.Resolve
import Endros.Fs.Create
import Endros.Io.UserCopy
import Endros.Io.Write
import Endros.Space.Sbrk
import Endros.Fdt.Parse
import Endros.Fdt.Tree
import Endros.Fdt.Correct
import Endros.Space.Build
import Endros.Space.Load
import Endros.Space.Free
import Endros.Space.Copy
import Endros.Space.Isolation
import Endros.Io.UserStore
import Endros.Io.UserScan
import Endros.Io.UserResult
import Endros.Space.Fork
import Endros.Space.Teardown
import Endros.Paging.Guard
import Endros.Space.ForkFree
import Endros.Space.Elf
import Endros.Space.User
import Endros.Exec.Buffers
import Endros.Exec.Stack
import Endros.Exec.Block
import Endros.Exec.Regions
import Endros.Exec.Image
import Endros.Exec.Arguments
import Endros.Fs.Handout
import Endros.Block.Lru
import Endros.Proc.Schedule
import Endros.Io.Overflow
import Endros.Lib.Cut
import Endros.Utils.Strsep
import Endros.Utils.Itoa
import Endros.Fdt.Grammar
import Endros.Fdt.Tables
import Endros.Fdt.Accept
import Endros.Proc.Deadlock
import Endros.Space.Integrity
import Endros.Trap.Hart
import Endros.Trap.Enter
