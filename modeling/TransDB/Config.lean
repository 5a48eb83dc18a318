/-
`CfgDefines.cpp`: the server configuration and how it is loaded.

`g_cfg` is a record of named fields shared by all threads. `LoadConfig` runs on
the watcher thread and stores into it field by field, so what matters about it
here is the order of its stores: the model of `LoadConfig` is that list of
assignments, made from the configuration file. The parser of the file is in the
missing `shared/` submodule; a file is what its three getters return.
-/
import TransDB.Assign
import TransDB.BlockManager

set_option autoImplicit false

namespace TransDB

/-- The fields of `ConfigDefines`. -/
inductive CfgField
  | ActivityID
  | DataFilePath | IndexFilePath | DataFileName
  | EnableRecordLimit | RecordLimit | DiskFlushCoef | ReallocSize
  | StartupCrc32Check | DefragAfterRecordDelete | FreeSpaceDefrag
  | MemoryLimit | LRUCacheMemReserve | IndexBlockCacheSize
  | ListenHost | ListenPort | WebSocketHost | WebSocketPort
  | SocketReadBufferSize | SocketWriteBufferSize
  | PingTimeout | PingSendInterval | NagleLatency
  | MaxParallelTasks | MaxParallelReadTasks | MaxTasksInQueue | MaxReadTasksInQueue
  | TaskQueueTimeout
  | PythonEnable | PythonHome | PythonScriptsFolderPath | PythonModuleName | PythonClassName
  | PythonRunableMethod | PythonShutdownMethod | PythonScriptVersion
  | GzipCompressionLevel | ZlibBufferSize | DataSizeForCompression | RecordSizeForCompression
  deriving DecidableEq, Repr

/-- The type of a field. -/
@[reducible] def CfgField.Val : CfgField → Type
  | ActivityID | DataFilePath | IndexFilePath | DataFileName | ListenHost | WebSocketHost
  | PythonHome | PythonScriptsFolderPath | PythonModuleName | PythonClassName
  | PythonRunableMethod | PythonShutdownMethod | PythonScriptVersion => String
  | EnableRecordLimit | StartupCrc32Check | PythonEnable => Bool
  | RecordLimit | DiskFlushCoef | ReallocSize | DefragAfterRecordDelete | FreeSpaceDefrag
  | MemoryLimit | LRUCacheMemReserve | IndexBlockCacheSize | ListenPort | WebSocketPort
  | SocketReadBufferSize | SocketWriteBufferSize | PingTimeout | PingSendInterval | NagleLatency
  | MaxParallelTasks | MaxParallelReadTasks | MaxTasksInQueue | MaxReadTasksInQueue
  | TaskQueueTimeout | GzipCompressionLevel | ZlibBufferSize | DataSizeForCompression
  | RecordSizeForCompression => Int

/-- `ConfigDefines` -/
abbrev ConfigDefines := ∀ f : CfgField, f.Val

/-- A store into `g_cfg`. -/
abbrev CfgAssign := Assign CfgField CfgField.Val

/-- The values `init_config_default_values` stores. -/
def defaultValues : ConfigDefines
  | .ActivityID => "pool-3"
  | .DataFilePath => ""
  | .IndexFilePath => ""
  | .DataFileName => "data"
  | .EnableRecordLimit => true
  | .RecordLimit => 1000
  | .DiskFlushCoef => 100
  | .ReallocSize => 128
  | .StartupCrc32Check => true
  | .DefragAfterRecordDelete => 5
  | .FreeSpaceDefrag => 24 * 60 * 60
  | .MemoryLimit => 64 * 1024 * 1024
  | .LRUCacheMemReserve => 1 * 1024 * 1024
  | .IndexBlockCacheSize => 1 * 1024 * 1024
  | .ListenHost => "0.0.0.0"
  | .ListenPort => 5555
  | .WebSocketHost => "0.0.0.0"
  | .WebSocketPort => 8888
  | .SocketReadBufferSize => 32
  | .SocketWriteBufferSize => 32
  | .PingTimeout => 60
  | .PingSendInterval => 15
  | .NagleLatency => 250
  | .MaxParallelTasks => 4
  | .MaxParallelReadTasks => 4
  | .MaxTasksInQueue => 64
  | .MaxReadTasksInQueue => 64
  | .TaskQueueTimeout => 10
  | .PythonEnable => true
  | .PythonHome => ""
  | .PythonScriptsFolderPath => "/Users/miroslavkudrnac/SVN/TransStorageServer/trunk/Python/"
  | .PythonModuleName => "main"
  | .PythonClassName => "TestClass"
  | .PythonRunableMethod => "run"
  | .PythonShutdownMethod => "OnShutdown"
  | .PythonScriptVersion => "0"
  | .GzipCompressionLevel => 5
  | .ZlibBufferSize => 512 * 1024
  | .DataSizeForCompression => 1024
  | .RecordSizeForCompression => 256

/-- The order in which `init_config_default_values` stores them. -/
def defaultOrder : List CfgField :=
  [.ActivityID, .DataFilePath, .IndexFilePath, .DataFileName, .EnableRecordLimit, .RecordLimit,
   .DiskFlushCoef, .ReallocSize, .StartupCrc32Check, .DefragAfterRecordDelete, .FreeSpaceDefrag,
   .MemoryLimit, .LRUCacheMemReserve, .IndexBlockCacheSize, .ListenHost, .ListenPort,
   .WebSocketHost, .WebSocketPort, .SocketReadBufferSize, .SocketWriteBufferSize, .PingTimeout,
   .PingSendInterval, .NagleLatency, .MaxParallelTasks, .MaxParallelReadTasks, .MaxTasksInQueue,
   .MaxReadTasksInQueue, .TaskQueueTimeout, .PythonEnable, .PythonHome, .PythonScriptsFolderPath,
   .PythonModuleName, .PythonClassName, .PythonRunableMethod, .PythonShutdownMethod,
   .PythonScriptVersion, .GzipCompressionLevel, .ZlibBufferSize, .DataSizeForCompression,
   .RecordSizeForCompression]

/-- `init_config_default_values` -/
def init_config_default_values : List CfgAssign := Assign.reset defaultOrder defaultValues

/-- `g_rConfig.MainConfig` as its getters see it: section and key to value. -/
structure ConfigFile where
  GetBool : String → String → Option Bool
  GetInt : String → String → Option Int
  GetString : String → String → Option String

/-- One statement of `LoadConfig` that may store into `g_cfg`. -/
structure CfgLoad where
  field : CfgField
  value : ConfigFile → Option field.Val

section

variable (MAX_PATH : ℕ)

/-- `GET_CONFIG_BOOL_VALUE`; a missing key leaves the variable alone. -/
def GET_CONFIG_BOOL_VALUE (sec key : String) (file : ConfigFile) : Option Bool :=
  file.GetBool sec key

/-- `GET_CONFIG_INT_VALUE` into a field. -/
def GET_CONFIG_INT_VALUE (sec key : String) (file : ConfigFile) : Option Int :=
  file.GetInt sec key

/-- `GET_CONFIG_STRING_VALUE`; a value that does not fit is ignored. -/
def GET_CONFIG_STRING_VALUE (sec key : String) (len : ℕ) (file : ConfigFile) : Option String :=
  match file.GetString sec key with
  | none => none
  | some val => if len - 1 < val.utf8ByteSize then none else some val

/-- `GET_CONFIG_INT_VALUE` into a local of `LoadConfig`, which holds the default
of the field. -/
def localInt (sec key : String) (default : Int) (file : ConfigFile) : Int :=
  (file.GetInt sec key).getD default

/-- The statements of `LoadConfig` after the defaults, in order. The six sizes go
through locals and are stored last. -/
def loadStatements : List CfgLoad :=
  [⟨.ActivityID, GET_CONFIG_STRING_VALUE "Activity" "ID" 32⟩,
   ⟨.DataFilePath, GET_CONFIG_STRING_VALUE "Storage" "DataFilePath" MAX_PATH⟩,
   ⟨.IndexFilePath, GET_CONFIG_STRING_VALUE "Storage" "IndexFilePath" MAX_PATH⟩,
   ⟨.EnableRecordLimit, GET_CONFIG_BOOL_VALUE "Storage" "EnableRecordLimit"⟩,
   ⟨.RecordLimit, GET_CONFIG_INT_VALUE "Storage" "RecordLimit"⟩,
   ⟨.DiskFlushCoef, GET_CONFIG_INT_VALUE "Storage" "DiskFlushCoef"⟩,
   ⟨.StartupCrc32Check, GET_CONFIG_BOOL_VALUE "Storage" "StartupCrc32Check"⟩,
   ⟨.DataFileName, GET_CONFIG_STRING_VALUE "Storage" "DataFileName" 32⟩,
   ⟨.DefragAfterRecordDelete, GET_CONFIG_INT_VALUE "Storage" "DefragAfterRecordDelete"⟩,
   ⟨.FreeSpaceDefrag, GET_CONFIG_INT_VALUE "Storage" "FreeSpaceDefrag"⟩,
   ⟨.ListenHost, GET_CONFIG_STRING_VALUE "PublicSocket" "Host" 32⟩,
   ⟨.ListenPort, GET_CONFIG_INT_VALUE "PublicSocket" "Port"⟩,
   ⟨.WebSocketHost, GET_CONFIG_STRING_VALUE "PublicSocket" "WebSocketHost" 32⟩,
   ⟨.WebSocketPort, GET_CONFIG_INT_VALUE "PublicSocket" "WebSocketPort"⟩,
   ⟨.PingTimeout, GET_CONFIG_INT_VALUE "PublicSocket" "PingTimeout"⟩,
   ⟨.PingSendInterval, GET_CONFIG_INT_VALUE "PublicSocket" "PingSendInterval"⟩,
   ⟨.NagleLatency, GET_CONFIG_INT_VALUE "PublicSocket" "NagleLatency"⟩,
   ⟨.MaxParallelTasks, GET_CONFIG_INT_VALUE "PublicSocket" "MaxParallelTasks"⟩,
   ⟨.MaxParallelReadTasks, GET_CONFIG_INT_VALUE "PublicSocket" "MaxParallelReadTasks"⟩,
   ⟨.MaxTasksInQueue, GET_CONFIG_INT_VALUE "PublicSocket" "MaxTasksInQueue"⟩,
   ⟨.MaxReadTasksInQueue, GET_CONFIG_INT_VALUE "PublicSocket" "MaxReadTasksInQueue"⟩,
   ⟨.TaskQueueTimeout, GET_CONFIG_INT_VALUE "PublicSocket" "TaskQueueTimeout"⟩,
   ⟨.GzipCompressionLevel, GET_CONFIG_INT_VALUE "Compression" "Level"⟩,
   ⟨.ZlibBufferSize, GET_CONFIG_INT_VALUE "Compression" "BufferSize"⟩,
   ⟨.DataSizeForCompression, GET_CONFIG_INT_VALUE "Compression" "DataSizeForCompression"⟩,
   ⟨.RecordSizeForCompression, GET_CONFIG_INT_VALUE "Compression" "RecordSizeForCompression"⟩,
   ⟨.PythonEnable, GET_CONFIG_BOOL_VALUE "Python" "PythonEnable"⟩,
   ⟨.PythonHome, GET_CONFIG_STRING_VALUE "Python" "PythonHome" MAX_PATH⟩,
   ⟨.PythonScriptsFolderPath,
    GET_CONFIG_STRING_VALUE "Python" "PythonScriptsFolderPath" MAX_PATH⟩,
   ⟨.PythonModuleName, GET_CONFIG_STRING_VALUE "Python" "PythonModuleName" 32⟩,
   ⟨.PythonClassName, GET_CONFIG_STRING_VALUE "Python" "PythonClassName" 32⟩,
   ⟨.PythonRunableMethod, GET_CONFIG_STRING_VALUE "Python" "PythonRunableMethod" 32⟩,
   ⟨.PythonShutdownMethod, GET_CONFIG_STRING_VALUE "Python" "PythonShutdownMethod" 32⟩,
   ⟨.PythonScriptVersion, GET_CONFIG_STRING_VALUE "Python" "PythonScriptVersion" 32⟩,
   --adjust to bytes from MB
   ⟨.ReallocSize, fun file => some
      (localInt "Storage" "ReallocSize" (defaultValues .ReallocSize) file * 1024 * 1024)⟩,
   ⟨.MemoryLimit, fun file => some
      (localInt "Memory" "MemoryLimit" (defaultValues .MemoryLimit) file * 1024 * 1024 % 2 ^ 64)⟩,
   ⟨.SocketReadBufferSize, fun file => some (localInt "PublicSocket" "ReadBufferSize"
      (defaultValues .SocketReadBufferSize) file * 1024 % 2 ^ 32)⟩,
   ⟨.SocketWriteBufferSize, fun file => some (localInt "PublicSocket" "WriteBufferSize"
      (defaultValues .SocketWriteBufferSize) file * 1024 % 2 ^ 32)⟩,
   ⟨.IndexBlockCacheSize, fun file => some (localInt "Memory" "IndexBlockCache"
      (defaultValues .IndexBlockCacheSize) file * 1024 * 1024 % 2 ^ 64)⟩,
   ⟨.LRUCacheMemReserve, fun file => some (localInt "Memory" "LRUCacheMemReserve"
      (defaultValues .LRUCacheMemReserve) file * 1024 * 1024 % 2 ^ 64)⟩]

/-- The stores of the statements, given the file. -/
def loadAssignments (file : ConfigFile) : List CfgAssign :=
  (loadStatements MAX_PATH).filterMap fun s => (s.value file).map (Assign.mk s.field)

/-- `LoadConfig`: its stores into `g_cfg`, in order. -/
def LoadConfig (file : ConfigFile) : List CfgAssign :=
  init_config_default_values ++ loadAssignments MAX_PATH file

end

theorem mem_defaultOrder (f : CfgField) : f ∈ defaultOrder := by
  cases f <;> decide

/-- The statements after the defaults are about all fields, each once. -/
theorem mem_loadStatements (MAX_PATH : ℕ) (f : CfgField) :
    f ∈ (loadStatements MAX_PATH).map CfgLoad.field := by
  simp only [loadStatements, List.map_cons, List.map_nil]
  cases f <;> decide

theorem fields_loadStatements (MAX_PATH : ℕ) :
    ((loadStatements MAX_PATH).map CfgLoad.field).Nodup := by
  simp only [loadStatements, List.map_cons, List.map_nil]
  decide

theorem fields_loadAssignments (MAX_PATH : ℕ) (file : ConfigFile) :
    (Assign.fields (loadAssignments MAX_PATH file)).Nodup := by
  have hsub : (Assign.fields (loadAssignments MAX_PATH file)).Sublist
      ((loadStatements MAX_PATH).map CfgLoad.field) := by
    rw [loadAssignments]
    induction loadStatements MAX_PATH with
    | nil => exact List.Sublist.refl _
    | cons s ss ih =>
      rw [List.filterMap_cons]
      rcases s.value file with _ | v
      · exact ih.cons s.field
      · exact ih.cons_cons s.field
  exact (fields_loadStatements MAX_PATH).sublist hsub

end TransDB
