import Tortis.Transaction.Locks
import Tortis.BorrowCheck.InScope
import Tortis.DataStructures.SortedMapOps
import Tortis.Interpret.ReadBack
import Tortis.BorrowCheck.RegionSolve
import Tortis.DataStructures.SnapshotMap
import Tortis.DataStructures.VecGraph
import Tortis.DataStructures.Dominators
import Tortis.DataStructures.Postdominators
import Tortis.Index.SparseRows
import Tortis.Lexer.Agreement
import Tortis.Obligation.Runs
import Tortis.Collections.PriorityQueue
import Tortis.Sort.RunStack
import Tortis.Sort.Selection
import Tortis.Collections.Deque.Refines
import Tortis.Collections.Deque.FromVec
import Tortis.Collections.Deque.Hashing
import Tortis.DepGraph.Sound
import Tortis.Net.RoundTrip
import Tortis.Slice.Memchr
import Tortis.Str.Lossy
import Tortis.DataStructures.Implementation
import Tortis.SysCommon.Lossy
import Tortis.SysCommon.SizeHints
import Tortis.Transaction.Nested
import Tortis.Transaction.Visited
import Tortis.Path.Joins
import Tortis.Path.Windows
import Tortis.Num.Programs
import Tortis.Num.DragonShortest
import Tortis.Num.Duration
import Tortis.BorrowCheck.OutOfScopeExact
import Tortis.Dataflow.Cursors
import Tortis.Mir.PatchBuilder
import Tortis.Mir.SizeHint
import Tortis.Pattern.Missing
import Tortis.BorrowCheck.NoOverlap
import Tortis.Mir.AddCallGuards
import Tortis.Interpret.ImpossibleVariant
import Tortis.Hir.Brackets
import Tortis.Interpret.MaskRuns
import Tortis.Interpret.OverlappingCopy
import Tortis.Layout.NicheCount
import Tortis.Layout.SizeBound
import Tortis.Lexer.Ends
import Tortis.Lexer.Ranges
import Tortis.SyntaxPos.SpanEncoding
