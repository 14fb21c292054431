import Osx64.Mm.PageRun
import Osx64.Ext2.OwnedRun
import Osx64.Ext2.DirMap
import Osx64.Ext2.FreeCounts
import Osx64.Ext2.FileBytes
import Osx64.Fs.PipeFifo
import Osx64.Fs.PipeSleep
import Osx64.Console.Pty
import Osx64.Console.PtySleep
import Osx64.Fs.Fd
import Osx64.Fs.Vfs
import Osx64.Fs.VfsCount
import Osx64.Fs.VfsShape
import Osx64.Fs.VfsWalk
import Osx64.Fs.VfsCalls
import Osx64.Fs.VfsRemove
import Osx64.Fs.VfsRename
import Osx64.Fs.VfsMount
import Osx64.Fs.VfsUmount
import Osx64.Fs.FdFiles
import Osx64.Fs.VfsRef
import Osx64.Fs.Namespace
import Osx64.Fs.NamespaceRun
import Osx64.Lib.Places
import Osx64.Task.RunQueue
import Osx64.Task.Sched
import Osx64.Task.Preempt
import Osx64.Task.Family
import Osx64.Task.Exit
import Osx64.Task.Table
import Osx64.Ext2.WriteInode
import Osx64.Fs.DentryCache
import Osx64.Lib.TableTree
import Osx64.Mm.PageTable
import Osx64.Mm.PageMap
import Osx64.Mm.Translate
import Osx64.Mm.Fork
import Osx64.Mm.ForkCopy
import Osx64.Mm.ForkFree
import Osx64.Ext2.Tally
import Osx64.Ext2.Supply
import Osx64.Ext2.TruncateTail
import Osx64.Ext2.BlocksCounted
import Osx64.Ext2.WriteBytes
import Osx64.Ext2.WriteExact
import Osx64.Fs.SplitPath
import Osx64.Fs.VfsRoute
import Osx64.Fs.VfsCreated
import Osx64.Lib.Hex
import Osx64.Ext2.SetUuid
import Osx64.Fs.RamfsFile
import Osx64.Ext2.DirScan
import Osx64.Ext2.DirWalk
import Osx64.Ext2.Mount
import Osx64.Ext2.InodeCodec
import Osx64.Lib.Extents
import Osx64.Machine.AhciSend
import Osx64.Task.ExecArgs
import Osx64.Machine.UsbStatus
import Osx64.Machine.UsbToggle
import Osx64.Machine.AhciQueue
import Osx64.Machine.UsbCommand
import Osx64.Task.Locks
import Osx64.Fs.Block
import Osx64.Fs.Append
import Osx64.Usr.Ed
