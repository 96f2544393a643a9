import Nachos.Base.Run
import Nachos.Base.Bytes
import Nachos.Base.Buffer
import Nachos.Base.CString
import Nachos.Base.Decimal
import Nachos.Base.WriteLog
import Nachos.Base.Placement
import Nachos.Base.KeyedSlots
import Nachos.Base.BoundedMap
import Nachos.Base.Chain
import Nachos.Base.Cursor
import Nachos.Base.Buckets
import Nachos.Base.StableSort
import Nachos.Base.Blocks
import Nachos.Lib.Bitmap
import Nachos.Lib.BitmapSet
import Nachos.Lib.LinkedList
import Nachos.Lib.ListNodes
import Nachos.Lib.ListSequence
import Nachos.Lib.SortedNodes
import Nachos.Lib.ListModels
import Nachos.Lib.SortedInsert
import Nachos.Lib.HashTable
import Nachos.Lib.HashIterator
import Nachos.Threads.Semaphore
import Nachos.Threads.Lock
import Nachos.Threads.Condition
import Nachos.Threads.SynchList
import Nachos.Threads.CriticalSection
import Nachos.Threads.SynchDevice
import Nachos.Threads.Scheduler
import Nachos.Threads.ThreadPlaces
import Nachos.Threads.ContextSwitch
import Nachos.Threads.InterruptLevels
import Nachos.Threads.PTable
import Nachos.Threads.Rendezvous
import Nachos.Threads.PTableSafety
import Nachos.Threads.ProcessSteps
import Nachos.Threads.TableInvariant
import Nachos.Threads.ExecUpdate
import Nachos.Threads.Parenthood
import Nachos.Threads.NumWait
import Nachos.Threads.STable
import Nachos.Machine.Translate
import Nachos.Machine.TranslateInPlace
import Nachos.Machine.FlatStore
import Nachos.Machine.UserMemory
import Nachos.Machine.Confinement
import Nachos.Machine.Registers
import Nachos.Machine.Instruction
import Nachos.Machine.OneInstruction
import Nachos.Machine.PreciseExceptions
import Nachos.Machine.LoadDelay
import Nachos.Machine.Arithmetic
import Nachos.Machine.Overflow
import Nachos.Machine.Unaligned
import Nachos.Machine.Interrupt
import Nachos.Machine.InterruptTiming
import Nachos.Machine.HandlerInterrupts
import Nachos.Machine.Timer
import Nachos.Machine.Disk
import Nachos.Filesys.OpenFile
import Nachos.Filesys.SharedFiles
import Nachos.Filesys.FileHeader
import Nachos.Filesys.Allocation
import Nachos.Filesys.DiskFileSystem
import Nachos.Filesys.DirectoryMap
import Nachos.Filesys.Requests
import Nachos.Filesys.FileArray
import Nachos.Filesys.FileStore
import Nachos.Filesys.DiskSession
import Nachos.Filesys.SectorTrail
import Nachos.Filesys.PowerCut
import Nachos.Filesys.CopyFile
import Nachos.Userprog.Addrspace
import Nachos.Userprog.Translators
import Nachos.Userprog.Frames
import Nachos.Userprog.ConcurrentLoads
import Nachos.Userprog.LoadImage
import Nachos.Userprog.LoadIsolation
import Nachos.Userprog.LoadCorrectness
import Nachos.Userprog.ExitStatus
import Nachos.Userprog.StartProcess
import Nachos.Userprog.FileCalls
import Nachos.Userprog.FileTable
import Nachos.Userprog.FileBytes
import Nachos.Userprog.StandardOutput
import Nachos.Userprog.Cursors
import Nachos.Userprog.UserStrings
import Nachos.Userprog.ReadString
import Nachos.Userprog.Numbers
import Nachos.Userprog.Exception
import Nachos.Userprog.SystemCalls
import Nachos.Userprog.Isolation
import Nachos.Userprog.CallFrame
import Nachos.Userprog.WholeCalls
import Nachos.Userprog.UserRegisters
import Nachos.Userprog.SynchConsole
import Nachos.Network.Packet
import Nachos.Network.PostOffice
import Nachos.Network.NetworkTest
import Nachos.Coff2noff.Convert
import Nachos.Coff2noff.BssSections
import Nachos.Coff2noff.LinkedProgram
import Nachos.Base.LeadsTo
import Nachos.Userprog.Stubs
