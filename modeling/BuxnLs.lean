import BuxnLs.Lib.Table
import BuxnLs.Lib.Digraph
import BuxnLs.Lib.Run
import BuxnLs.Model.Analyzer
import BuxnLs.Model.Analyze
import BuxnLs.Model.Machine
import BuxnLs.Analysis.Context
import BuxnLs.Analysis.Effect
import BuxnLs.Analysis.Invariant
import BuxnLs.Model.Completion
import BuxnLs.Model.AsciiEnv
import BuxnLs.Analysis.Acyclic
import BuxnLs.Analysis.Whole
import BuxnLs.Analysis.Publish
import BuxnLs.Analysis.Reports
import BuxnLs.Analysis.Store
import BuxnLs.Analysis.Session
import BuxnLs.Analysis.Listing
import BuxnLs.Analysis.Carry
import BuxnLs.Analysis.Once
import BuxnLs.Analysis.Navigation
import BuxnLs.Analysis.Completion
import BuxnLs.Analysis.Queries
import BuxnLs.Analysis.Split
import BuxnLs.Lib.Decimal
import BuxnLs.Lib.Lines
import BuxnLs.Model.Lsp
import BuxnLs.Analysis.Header
import BuxnLs.Analysis.Framing
import BuxnLs.Analysis.Handshake
import BuxnLs.Lib.Contiguous
import BuxnLs.Model.Sending
import BuxnLs.Analysis.Sending
import BuxnLs.Lib.Preorder
import BuxnLs.Analysis.Schedule
import BuxnLs.Analysis.Assembled
import BuxnLs.Lib.Heap
import BuxnLs.Model.Memory
import BuxnLs.Analysis.Tracked
import BuxnLs.Analysis.Generations
import BuxnLs.Analysis.Offsets
import BuxnLs.Analysis.LineCache
import BuxnLs.Analysis.Positions
import BuxnLs.Analysis.Bounds
import BuxnLs.Analysis.Annotations
import BuxnLs.Analysis.ZeroPage
import BuxnLs.Lib.Family
import BuxnLs.Lib.Grouping
import BuxnLs.Analysis.Family
import BuxnLs.Analysis.Filters
import BuxnLs.Analysis.SortKeys
import BuxnLs.Analysis.Edges
import BuxnLs.Analysis.Identity
import BuxnLs.Analysis.Gate
import BuxnLs.Analysis.Streams
import BuxnLs.Analysis.Slices
import BuxnLs.Analysis.EditRange
import BuxnLs.Analysis.Ghosts
import BuxnLs.Analysis.Related
import BuxnLs.Lib.Log
import BuxnLs.Model.Index
import BuxnLs.Analysis.Index
import BuxnLs.Analysis.Indexing
import BuxnLs.Analysis.History
import BuxnLs.Lib.Relay
import BuxnLs.Model.ServerMode
import BuxnLs.Analysis.ServerMode
import BuxnLs.Model.Shim
import BuxnLs.Analysis.Shim
import BuxnLs.Model.Rpc
import BuxnLs.Analysis.Rpc
import BuxnLs.Analysis.Freshness
import BuxnLs.Analysis.Healing
import BuxnLs.Lib.Blocks
import BuxnLs.Model.Ownership
import BuxnLs.Analysis.Ownership
import BuxnLs.Analysis.Progress
import BuxnLs.Analysis.Settling
