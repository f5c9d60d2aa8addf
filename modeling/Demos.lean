import Demos.Lib.Run
import Demos.Lib.TicketWindow
import Demos.Lib.Assoc
import Demos.Lib.BoundedQueue
import Demos.Lib.SlotLoop
import Demos.Lib.Heap
import Demos.Lib.Ownership
import Demos.Lib.Ledger
import Demos.Lib.Holders
import Demos.Lib.Byte
import Demos.Lib.Bits
import Demos.Lib.Utf8Encoding
import Demos.Lib.LinkedRing
import Demos.Lib.RootedGraph
import Demos.Lib.TreeContext
import Demos.Lib.Search
import Demos.Lib.ThreeWay
import Demos.Lib.Scan
import Demos.Lib.Segments
import Demos.Lib.PathNames
import Demos.Lib.Patch
import Demos.Lib.StableSort
import Demos.Lib.CompareExchange
import Demos.Lib.Allocator
import Demos.Lib.Backoff
import Demos.Lib.Timer
import Demos.Lib.Cells
import Demos.Lib.Transfer
import Demos.Lib.DirTree
import Demos.Lib.Processes
import Demos.Lib.Network
import Demos.Lib.Locks
import Demos.Oak.Text
import Demos.Oak.Decimal
import Demos.Oak.Format
import Demos.Oak.Logging
import Demos.Oak.FailureHandler
import Demos.Oak.Fs.DirectoryName
import Demos.Oak.Fs.CreateDirectory
import Demos.Oak.Fs.GuardFile
import Demos.Oak.Fs.File
import Demos.Oak.Config.Types
import Demos.Oak.Config.Json
import Demos.Oak.Config.ReadWrite
import Demos.Oak.Config.Modules
import Demos.Oak.Config.RoundTrip
import Demos.Oak.Config.Files
import Demos.Oak.Channel.Model
import Demos.Oak.Channel.Invariant
import Demos.Oak.Channel.Preservation
import Demos.Oak.Channel.Sequential
import Demos.Oak.Channel.Safety
import Demos.Oak.Channel.Fifo
import Demos.Oak.Channel.Creation
import Demos.Oak.Event.Model
import Demos.Oak.Event.Effects
import Demos.Oak.Event.Atomicity
import Demos.Oak.Event.Consistency
import Demos.Oak.Event.Recovery
import Demos.Oak.Event.Settings
import Demos.Oak.Event.Acceptance
import Demos.Oak.Event.FileName
import Demos.Oak.Event.Persist
import Demos.Oak.Worker.Model
import Demos.Oak.Worker.Ownership
import Demos.Oak.Worker.Metrics
import Demos.Oak.Worker.Dispatch
import Demos.Oak.Worker.OutputData
import Demos.Oak.Worker.ReadBack
import Demos.Oak.Worker.Backoff
import Demos.Oak.Worker.ReportTimer
import Demos.Oak.Pipeline.Model
import Demos.Oak.Pipeline.Moves
import Demos.Oak.Pipeline.StartUp
import Demos.Oak.Pipeline.Records
import Demos.Oak.Pipeline.History
import Demos.Oak.Loader.Model
import Demos.Oak.Loader.Moves
import Demos.Oak.Loader.Libraries
import Demos.Oak.Loader.Modules
import Demos.Oak.Handles.Model
import Demos.Oak.Handles.Moves
import Demos.Oak.Handles.Safety
import Demos.Oak.Handles.Refinement
import Demos.Oak.Server.Model
import Demos.Oak.Server.Echo
import Demos.Oak.Buffer.Model
import Demos.Oak.Buffer.Calls
import Demos.Oak.Buffer.Ownership
import Demos.Oak.Buffer.Bounds
import Demos.Oak.Buffer.Contents
import Demos.Oak.Buffer.Compare
import Demos.Oak.Any.Model
import Demos.Oak.Any.Holdings
import Demos.Oak.Any.Functions
import Demos.Oak.Any.Optional
import Demos.Oak.Url.Percent
import Demos.Oak.Url.Model
import Demos.Oak.Url.Pieces
import Demos.Oak.Url.Parse
import Demos.Oak.Url.Returns
import Demos.Oak.Url.Components
import Demos.Oak.Url.Query
import Demos.Oak.Url.Texts
import Demos.Oak.Url.AuthorityParts
import Demos.Oak.Url.Assemble
import Demos.Oak.Url.Lookup
import Demos.Oak.Url.Decode
import Demos.Oak.Url.Escapes
import Demos.Oak.Url.Accepted
import Demos.Oak.Url.Normalize
import Demos.Oak.Url.Reread
import Demos.Oak.Url.RoundTrip
import Demos.Oak.Url.Script
import Demos.Oak.Url.Reuse
import Demos.Oak.Codec
import Demos.Oak.Codec.Boundaries
import Demos.Oak.Codec.ZigZag
import Demos.Oak.Ring.Model
import Demos.Oak.Ring.Refinement
import Demos.Oak.Ring.Add
import Demos.Oak.StringPiece.Model
import Demos.Oak.StringPiece.Search
import Demos.Oak.StringPiece.FindHelper
import Demos.Oak.StringPiece.Compare
import Demos.Oak.StringPiece.Substr
import Demos.Oak.StringPiece.Stream
import Demos.Oak.System.ThreadId
import Demos.Oak.System.LogicCore
import Demos.Utf8.Check
import Demos.ThreadId
import Demos.Algorithm.Bloom.Model
import Demos.Algorithm.Bloom.Probes
import Demos.Algorithm.SearchTree.Model
import Demos.Algorithm.SearchTree.Links
import Demos.Algorithm.SearchTree.Shape
import Demos.Algorithm.SearchTree.Order
import Demos.Algorithm.SearchTree.Walk
import Demos.Algorithm.SearchTree.Search
import Demos.Algorithm.LowerBound
import Demos.Algorithm.Sort.Model
import Demos.Algorithm.Sort.Refinement
import Demos.Algorithm.Sort.Frame
