import TecnicoFS.Lib.Machine
import TecnicoFS.Lib.Memory
import TecnicoFS.Lib.Words
import TecnicoFS.Lib.CString
import TecnicoFS.Lib.Table
import TecnicoFS.Lib.Ownership
import TecnicoFS.Lib.Stream
import TecnicoFS.Part2.State
import TecnicoFS.Part2.Operations
import TecnicoFS.Part2.Directory
import TecnicoFS.Part2.Invariant
import TecnicoFS.Part2.Steps
import TecnicoFS.Part2.Runs
import TecnicoFS.Part2.Integrity
import TecnicoFS.Part2.Handles
import TecnicoFS.Part2.Offsets
import TecnicoFS.Part2.Abstract
import TecnicoFS.Part2.Refinement
import TecnicoFS.Part2.Protocol
import TecnicoFS.Part2.Receiver
import TecnicoFS.Part2.Framing
import TecnicoFS.Part2.RequestStream
import TecnicoFS.Lib.Pipe
import TecnicoFS.Part2.Reply
import TecnicoFS.Part2.Conversation
import TecnicoFS.Part2.Handoff
import TecnicoFS.Part2.HandoffInv
import TecnicoFS.Part2.HandoffSteps
import TecnicoFS.Part2.ExactlyOnce
import TecnicoFS.Part2.Buffers
import TecnicoFS.Part2.Sessions
import TecnicoFS.Part2.Secrecy
import TecnicoFS.Lib.Discipline
import TecnicoFS.Lib.Soundness
import TecnicoFS.Part1.Operations
import TecnicoFS.Lib.Schedule
import TecnicoFS.Part1.Start
import TecnicoFS.Part1.Handles
import TecnicoFS.Part1.Directory
import TecnicoFS.Part1.Locking
import TecnicoFS.Part1.Creation
import TecnicoFS.Part1.LockOrder
import TecnicoFS.Lib.Balance
import TecnicoFS.Part1.Release
import TecnicoFS.Part2.MainLoop
import TecnicoFS.Part2.LoopRuns
import TecnicoFS.Lib.Serial
import TecnicoFS.Part1.OneFile
import TecnicoFS.Part2.Concurrent
import TecnicoFS.Part2.Closing
import TecnicoFS.Part2.Namespace
import TecnicoFS.Part2.Lifecycle
import TecnicoFS.Part2.Shutdown
import TecnicoFS.Lib.Phase
import TecnicoFS.Part2.OpenAfterDestroy
import TecnicoFS.Part1.Blocks
import TecnicoFS.Part1.FileBlocks
import TecnicoFS.Part1.WriteBlocks
import TecnicoFS.Part1.WriteLoop
import TecnicoFS.Part1.Layout
import TecnicoFS.Part1.DirectWrite
import TecnicoFS.Part1.SizeLimit
import TecnicoFS.Part1.Consistency
import TecnicoFS.Part1.Truncation
import TecnicoFS.Part1.Opening
import TecnicoFS.Part1.Runs
import TecnicoFS.Lib.Alone
import TecnicoFS.Part1.LockedRuns
import TecnicoFS.Part1.TableGrowth
import TecnicoFS.Part1.FailedWrite
import TecnicoFS.Part1.ReadLoop
import TecnicoFS.Part1.FileRead
import TecnicoFS.Part1.Names
import TecnicoFS.Part1.CopyOut
import TecnicoFS.Part1.Sizes
import TecnicoFS.Part1.CopyLocks
import TecnicoFS.Part1.CopyHandles
import TecnicoFS.Part1.IndexSafety
import TecnicoFS.Part1.OpenTruncate
import TecnicoFS.Part2.ReadBuffer
import TecnicoFS.Part2.FailedOpen
import TecnicoFS.Part1.Abstract
import TecnicoFS.Part1.Chunks
import TecnicoFS.Part1.Coupling
import TecnicoFS.Part1.ManyFiles
import TecnicoFS.Part2.Served
import TecnicoFS.Lib.Linear
import TecnicoFS.Part2.GlobalLock
import TecnicoFS.Part2.Work
import TecnicoFS.Part2.Answered
import TecnicoFS.Part1.AnyLengths
import TecnicoFS.Lib.Progress
import TecnicoFS.Part1.Progress
import TecnicoFS.Part2.Progress
import TecnicoFS.Part2.Restart
