import SynthLC.Sva
import SynthLC.Loop
import SynthLC.HBTemplate
import SynthLC.Visit
import SynthLC.OrderCovers
import SynthLC.Verdict
import SynthLC.PairwiseDep
import SynthLC.HBPerf
import SynthLC.PerfLocSubset
import SynthLC.TextFile
import SynthLC.PlsetCnt
import SynthLC.Held
import SynthLC.OrdSram
import SynthLC.Difference
import SynthLC.DiGraph
import SynthLC.MySolver
import SynthLC.Warshall
import SynthLC.OrderGraph
import SynthLC.Concurrent
import SynthLC.OrderTiming
import SynthLC.Leaving
import SynthLC.Orders
import SynthLC.CollectReEval
import SynthLC.ConstructPaths
import SynthLC.MyGraph
import SynthLC.Summarize
import SynthLC.Pipeline
import SynthLC.Realised
import SynthLC.Complete
import SynthLC.EnteringOrders
import SynthLC.Feasible
import SynthLC.Followers
import SynthLC.LeavingVerdicts
import SynthLC.OrdSram2Flags
import SynthLC.BitField
import SynthLC.Opcodes
import SynthLC.GroupCover
import SynthLC.Dict
import SynthLC.PruningUfsm
import SynthLC.DynPerfield
import SynthLC.DynSteps
import SynthLC.PostProcAll
import SynthLC.Rebuilt
import SynthLC.Bisect
import SynthLC.CycleCount
import SynthLC.CycleSets
import SynthLC.Occurs
import SynthLC.LeavingGen
import SynthLC.LeavingNames
import SynthLC.LeavingSteps
import SynthLC.DecisionQueries
import SynthLC.DuvPls
import SynthLC.GenDfg
import SynthLC.SvExpr
import SynthLC.ConstraintText
import SynthLC.IntragpFile
import SynthLC.OrdSramMemory
import SynthLC.HeaderSquash
import SynthLC.SquashDetect
import SynthLC.NodeColors
import SynthLC.IntrinsicPerfield
import SynthLC.IntrinsicEntries
import SynthLC.Interleave
import SynthLC.BatchRun
import SynthLC.BatchHistory
import SynthLC.IntrinSteps
import SynthLC.IntrinRuns
import SynthLC.IntrinDriver
import SynthLC.IftHeader
import SynthLC.IftStatic
import SynthLC.TaintCover
import SynthLC.DecisionText
import SynthLC.DuvAnnotation
import SynthLC.DuvHeader
import SynthLC.DuvFiles
import SynthLC.CheckSet
import SynthLC.ResultTable
import SynthLC.TableCells
