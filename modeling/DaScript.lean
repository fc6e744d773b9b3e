import DaScript.Runtime.TableLoad
import DaScript.Runtime.TableSteps
import DaScript.Machinery.OpenMap
import DaScript.Misc.HashMap
import DaScript.Misc.HashMapRuns
import DaScript.Runtime.TableAot
import DaScript.Runtime.TableMap
import DaScript.Simulate.HeapLimits
import DaScript.Simulate.StringHeapRuns
import DaScript.Runtime.ScriptArrayHeap
import DaScript.Simulate.BinLoadBounds
import DaScript.Simulate.BinRoundTrip
import DaScript.Simulate.QsortRuns
import DaScript.Simulate.StableSortMerge
import DaScript.Daslib.FlatHashTableRuns
import DaScript.Daslib.CuckooHashTableRuns
import DaScript.Daslib.JsonRoundTrip
import DaScript.Daslib.ArchiveRoundTrip
import DaScript.Ast.BlockFolding
import DaScript.Ast.CondFolding
import DaScript.Ast.SideEffects
import DaScript.Daslib.RegexComplete
import DaScript.Daslib.RegexEarlyOut
import DaScript.Daslib.ArchiveBounds
import DaScript.Daslib.BoolArrayRuns
import DaScript.Daslib.Utf8Exact
import DaScript.Ast.Unused
import DaScript.Daslib.DecsReuse
import DaScript.Misc.HandleRegistryRuns
import DaScript.Misc.SafeboxRuns
import DaScript.Simulate.HeapHints
import DaScript.Jobs.Channel
import DaScript.Jobs.JobQueRuns
import DaScript.Simulate.Selection
import DaScript.Simulate.QsortAskedRuns
import DaScript.Ast.TypeLayoutAgrees
import DaScript.Ast.MangledNameRoundTrip
import DaScript.Simulate.LineInfo
import DaScript.Simulate.HumanReadable
import DaScript.Simulate.JsonFixedArray
import DaScript.Simulate.JsonWriter
import DaScript.Ast.CallFolding
import DaScript.Simulate.BinVariants
import DaScript.Runtime.TableZeroed
import DaScript.Simulate.JsonBlanks
import DaScript.Runtime.TablePresent
import DaScript.Runtime.TableIterator
import DaScript.Daslib.HashTableDefaults
import DaScript.Daslib.RegexSpellings
import DaScript.Daslib.RegexReplace
import DaScript.Daslib.RegexNul
import DaScript.Daslib.RegexGen
import DaScript.Daslib.JsonStringAgree
import DaScript.Daslib.JsonFixing
import DaScript.Daslib.Base64RoundTrip
import DaScript.Daslib.RegexCapturesRight
import DaScript.Jobs.ParallelFor
import DaScript.Daslib.BoolArrayEach
import DaScript.Daslib.Base64Total
import DaScript.Daslib.BinarySearch
import DaScript.Daslib.TopologicalSort
import DaScript.Daslib.DecsPanics
import DaScript.Ast.UnusedLocalsRuns
import DaScript.Ast.RelocateNames
import DaScript.Ast.ResultBufferSame
import DaScript.Daslib.NearMatch
import DaScript.Daslib.ReplaceMultiple
import DaScript.Jobs.ParallelForConsume
import DaScript.Ast.ExactTypeCache
import DaScript.Ast.CircularTypeExact
import DaScript.Ast.DebugInfoExact
import DaScript.Daslib.TomlKeyPaths
import DaScript.Daslib.GlobMatch
import DaScript.Daslib.Levenshtein
import DaScript.Daslib.SplitJoin
import DaScript.Daslib.FlattenReassoc
import DaScript.Daslib.Clargs
import DaScript.Daslib.FlattenSelect
