import FulgurLogging.Lib.Machine
import FulgurLogging.Lib.Object
import FulgurLogging.Lib.Placement
import FulgurLogging.Lib.Window
import FulgurLogging.Lib.Census
import FulgurLogging.Lib.Mutex
import FulgurLogging.Lib.Monitor
import FulgurLogging.Lib.Doubling
import FulgurLogging.Lib.Storage
import FulgurLogging.Lib.Delimited
import FulgurLogging.BufferPool.Circular
import FulgurLogging.BufferPool.ProducerConsumer
import FulgurLogging.BufferPool.CallSequences
import FulgurLogging.BufferPool.GetSize
import FulgurLogging.BufferPool.Destruction
import FulgurLogging.BufferPool.InProgress
import FulgurLogging.BufferPool.Mover
import FulgurLogging.BufferPool.Traffic
import FulgurLogging.BufferPool.Circulation
import FulgurLogging.BufferPool.Sharing
import FulgurLogging.BufferPool.Latched
import FulgurLogging.LogBuffer.WriteData
import FulgurLogging.LogBuffer.Content
import FulgurLogging.LogBuffer.FailedAllocation
import FulgurLogging.LogBuffer.Changes
import FulgurLogging.LogBuffer.Recycling
import FulgurLogging.LogRecord.GetInfo
import FulgurLogging.BufferLogger.WaitForFlush
import FulgurLogging.BufferLogger.Durability
import FulgurLogging.LogManager.GetBufferLogger
import FulgurLogging.LogManager.LookupBounds
import FulgurLogging.LogManager.Assignment
import FulgurLogging.LogManager.ModeTransition
import FulgurLogging.BufferPool.OnePutter
import FulgurLogging.BufferPool.Progress
import FulgurLogging.BufferPool.InTurn
import FulgurLogging.BufferPool.Memset
import FulgurLogging.BufferPool.SharedMemset
import FulgurLogging.BufferPool.SpeedTest
import FulgurLogging.BufferPool.TwoLoads
import FulgurLogging.Common.Cache
import FulgurLogging.Common.ItemPointer
import FulgurLogging.Common.Spinlock
import FulgurLogging.Common.ThreadPool
