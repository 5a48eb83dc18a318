import TransDB.BlockLayout
import TransDB.BlockManager
import TransDB.BlockManagerSpec
import TransDB.BlockManagerOps
import TransDB.BlockManagerRuns
import TransDB.Assign
import TransDB.Config
import TransDB.ConfigReload
import TransDB.LRUCache
import TransDB.Region
import TransDB.KeyMap
import TransDB.FreeSpace
import TransDB.IndexBlock
import TransDB.IndexBlockSpec
import TransDB.IndexBlockRuns
import TransDB.Machine
import TransDB.BlockManagerLoad
import TransDB.Storage
import TransDB.DiskWriter
import TransDB.DataFile
import TransDB.System
import TransDB.StorageOps
import TransDB.StorageInv
import TransDB.DiskWriterSpec
import TransDB.DiskWriterInv
import TransDB.DiskWriterDelete
import TransDB.StorageInit
import TransDB.SystemInv
import TransDB.SystemQueue
import TransDB.SystemEvict
import TransDB.SystemMemory
import TransDB.SystemProcess
import TransDB.SystemFreeSpace
import TransDB.BlockRefines
import TransDB.SystemResident
import TransDB.BlockBuilt
import TransDB.BlockManagerRead
import TransDB.BlockManagerPack
import TransDB.BlockManagerDefrag
import TransDB.BlockManagerLayout
import TransDB.ClientSocketRead
import TransDB.ClientSocketSend
import TransDB.CrashPoint
import TransDB.SystemCrash
import TransDB.ServerReclaim
import TransDB.SystemFlush
import TransDB.ServerReload
import TransDB.FreeSpaceRuns
import TransDB.FreeSpaceLoad
import TransDB.IndexBlockPlace
import TransDB.BlockManagerRoom
import TransDB.BlockManagerTerminates
import TransDB.BlockManagerCount
import TransDB.BlockManagerNewest
import TransDB.ClientSocketWorkerTask
import TransDB.StorageExport
import TransDB.SystemDirty
import TransDB.SystemRefused
import TransDB.BlockLookup
import TransDB.LRUCacheRuns
import TransDB.IndexBlockCache
import TransDB.Attempts
import TransDB.ClientSocketRetry
import TransDB.ClientSocketRoom
import TransDB.ClientSocketWorkerLists
import TransDB.PythonClient
import TransDB.Refinement
import TransDB.RecordStore
import TransDB.BlockManagerView
import TransDB.SystemReplies
import TransDB.SystemHistory
import TransDB.ClientSocketWorker
import TransDB.ClientSocketWorkerAnswers
import TransDB.ClientSocketWorkerHistory
import TransDB.ClientSocketStream
import TransDB.Connection
import TransDB.ConnectionCalls
import TransDB.FreeSpaceReport
import TransDB.SystemCounted
import TransDB.SystemLimit
import TransDB.SystemKeys
