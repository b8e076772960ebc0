import VmodCfg.File.CJson
import VmodCfg.File.CJsonStrings
import VmodCfg.File.Dump
import VmodCfg.File.DumpBounds
import VmodCfg.File.DumpRoundTrip
import VmodCfg.File.Ini
import VmodCfg.File.IniCalls
import VmodCfg.File.IniDocuments
import VmodCfg.File.IniErrorLine
import VmodCfg.File.IniGrammar
import VmodCfg.File.IniKeys
import VmodCfg.File.IniLines
import VmodCfg.File.IniReader
import VmodCfg.File.IniSafety
import VmodCfg.File.IniVariables
import VmodCfg.File.Json
import VmodCfg.File.JsonDocuments
import VmodCfg.File.JsonFlatten
import VmodCfg.File.JsonNumbers
import VmodCfg.File.JsonSafety
import VmodCfg.File.JsonWalk
import VmodCfg.File.Readers
import VmodCfg.Lib.Accounting
import VmodCfg.Lib.Arena
import VmodCfg.Lib.Atomic
import VmodCfg.Lib.Binary64
import VmodCfg.Lib.Blocks
import VmodCfg.Lib.CString
import VmodCfg.Lib.Decimal
import VmodCfg.Lib.Footprint
import VmodCfg.Lib.JsonGrammar
import VmodCfg.Lib.JsonText
import VmodCfg.Lib.Linearize
import VmodCfg.Lib.Locking
import VmodCfg.Lib.Machine
import VmodCfg.Lib.Monitor
import VmodCfg.Lib.Numeral
import VmodCfg.Lib.NumeralText
import VmodCfg.Lib.Printf
import VmodCfg.Lib.Purge
import VmodCfg.Lib.Rebalance
import VmodCfg.Lib.RedBlack
import VmodCfg.Lib.RwLock
import VmodCfg.Remote.Backup
import VmodCfg.Remote.Check
import VmodCfg.Remote.Coherence
import VmodCfg.Remote.Expiry
import VmodCfg.Remote.Leaks
import VmodCfg.Remote.Lifetime
import VmodCfg.Remote.Memory
import VmodCfg.Remote.Ownership
import VmodCfg.Remote.Readers
import VmodCfg.Remote.Refresh
import VmodCfg.Remote.RoundTrip
import VmodCfg.Remote.Sources
import VmodCfg.Remote.Threads
import VmodCfg.Rules.Grammar
import VmodCfg.Rules.Parse
import VmodCfg.Rules.Restore
import VmodCfg.Script.Accounting
import VmodCfg.Script.CleanEngines
import VmodCfg.Script.Commands
import VmodCfg.Script.Counter
import VmodCfg.Script.Execute
import VmodCfg.Script.Functions
import VmodCfg.Script.Globals
import VmodCfg.Script.Headers
import VmodCfg.Script.Incr
import VmodCfg.Script.Init
import VmodCfg.Script.Interp
import VmodCfg.Script.Isolation
import VmodCfg.Script.Leaves
import VmodCfg.Script.LockOrder
import VmodCfg.Script.Marshal
import VmodCfg.Script.Pool
import VmodCfg.Script.PoolBounds
import VmodCfg.Script.PoolThreads
import VmodCfg.Script.PoolWakeup
import VmodCfg.Script.Program
import VmodCfg.Script.Progress
import VmodCfg.Script.RegexpCache
import VmodCfg.Script.RegexpErrors
import VmodCfg.Script.Register
import VmodCfg.Script.Shared
import VmodCfg.Script.SharedStore
import VmodCfg.Script.SharedValues
import VmodCfg.Script.TableAccess
import VmodCfg.Script.TaskScope
import VmodCfg.Vtree.Cells
import VmodCfg.Vtree.Detach
import VmodCfg.Vtree.Environment
import VmodCfg.Vtree.Insert
import VmodCfg.Vtree.Program
import VmodCfg.Vtree.Remove
import VmodCfg.Vtree.Shapes
import VmodCfg.Vtree.Store
import VmodCfg.Vtree.Walk
