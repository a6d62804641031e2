import Bunx.Semver.Version
import Bunx.Semver.Range
import Bunx.Semver.Query
import Bunx.Install.Lockfile
import Bunx.Install.Tree
import Bunx.Lib.Run
import Bunx.Install.HoistRun
import Bunx.Install.TreeShape
import Bunx.Install.FolderNames
import Bunx.Lib.Forest
import Bunx.Install.Occurrences
import Bunx.Install.HoistTermination
import Bunx.Install.NodeLookup
import Bunx.Install.HoistSound
import Bunx.Lib.Bytes
import Bunx.SourceMap.Varint
import Bunx.Lib.Bits
import Bunx.SourceMap.Builder
import Bunx.SourceMap.WindowBytes
import Bunx.SourceMap.Reader
import Bunx.SourceMap.WindowRead
import Bunx.SourceMap.Windows
import Bunx.SourceMap.RoundTrip
import Bunx.Lib.BinarySearch
import Bunx.SourceMap.Lookup
import Bunx.SourceMap.Find
import Bunx.SourceMap.CacheRuns
import Bunx.SourceMap.CursorRuns
import Bunx.Io.Heap
import Bunx.Io.HeapRep
import Bunx.Io.HeapRuns
import Bunx.Collections.LinearFifo
import Bunx.Collections.FifoQueue
import Bunx.Collections.FifoItems
import Bunx.Collections.FifoRuns
import Bunx.Semver.SemverString
import Bunx.Semver.StringBuilder
import Bunx.Semver.StringReadBack
import Bunx.Semver.Parse
import Bunx.Semver.ParseFmt
import Bunx.Paths.CommonDirectory
import Bunx.Lib.Segments
import Bunx.Paths.Normalize
import Bunx.Paths.Resolve
import Bunx.Paths.Relative
import Bunx.Lib.Decimal
import Bunx.Patch.ApplyPatch
import Bunx.Patch.ApplyDiff
import Bunx.Patch.ReadDiff
import Bunx.Patch.NewText
import Bunx.Lib.Resumable
import Bunx.Valkey.ValkeyProtocol
import Bunx.Valkey.ReaderSteps
import Bunx.Valkey.ScanResume
import Bunx.Valkey.ScanTree
import Bunx.Valkey.ReplyFraming
import Bunx.Shell.Braces
import Bunx.Shell.BraceTokens
import Bunx.Shell.BraceLexer
import Bunx.Shell.BraceAmount
import Bunx.Shell.BraceFlat
import Bunx.Shell.BraceNested
import Bunx.Shell.BraceExpansion
import Bunx.Patch.ApplyPart
import Bunx.Patch.Misfit
import Bunx.Url.QueryReference
import Bunx.Url.QueryPairs
import Bunx.Lib.ChunkLoop
import Bunx.Websocket.Header
import Bunx.Websocket.Frame
import Bunx.Websocket.Client
import Bunx.Websocket.Output
import Bunx.Websocket.Receive
import Bunx.Websocket.ReceiveTurns
import Bunx.Websocket.Resume
import Bunx.Websocket.Segmentation
import Bunx.Websocket.Messages
import Bunx.Websocket.ReceiveFrame
import Bunx.Websocket.Arrival
import Bunx.Collections.BitSet
import Bunx.Collections.BitSetMembers
import Bunx.Collections.BitSetResize
import Bunx.Collections.BitSetQueries
import Bunx.Collections.BitSetRuns
import Bunx.Collections.StaticHashMap
import Bunx.Collections.HashMapSlots
import Bunx.Collections.HashMapUpdates
import Bunx.Collections.HashMapGrow
import Bunx.Collections.HashMapRuns
import Bunx.Timer.All
import Bunx.Timer.FireOrder
import Bunx.Timer.FireRuns
import Bunx.Lib.Gregorian
import Bunx.Cron.CronParser
import Bunx.Cron.NextOccurrence
import Bunx.Lib.Tarjan
import Bunx.Lib.TarjanCorrect
import Bunx.IsolatedInstall.Wyhash
import Bunx.IsolatedInstall.DfsCorrect
import Bunx.IsolatedInstall.SccCorrect
import Bunx.IsolatedInstall.Numbering
import Bunx.IsolatedInstall.StoreKeys
import Bunx.Lib.Marking
import Bunx.Bundler.LinkerGraph
import Bunx.Bundler.TreeShaking
import Bunx.Lib.HopDistance
import Bunx.Bundler.CodeSplitting
import Bunx.Bundler.ScanImportsAndExports
import Bunx.Bundler.ExportStars
import Bunx.Bundler.WrapDependencies
import Bunx.Lib.OrderedMap
import Bunx.Bundler.ComputeChunks
import Bunx.Bundler.EntryChunks
import Bunx.Renamer.NumberRenamer
import Bunx.Renamer.FreshNames
import Bunx.Renamer.NamesApart
import Bunx.SourceMap.LineColumnOffset
import Bunx.Lib.IndexOf
import Bunx.Bundler.OutputPieces
import Bunx.Bundler.ClosingTags
import Bunx.Bundler.OutputKeys
import Bunx.Bundler.OutputText
import Bunx.Bundler.OutputShifts
import Bunx.Hashing.Wyhash11
import Bunx.Hashing.Streaming
import Bunx.Lib.Utf8
import Bunx.SourceMap.Characters
import Bunx.SourceMap.LineOffsetTable
import Bunx.SourceMap.ScanTotal
import Bunx.SourceMap.OriginalPosition
import Bunx.SourceMap.GeneratedPosition
import Bunx.Router.Pattern
import Bunx.Router.RouteNames
import Bunx.Router.MatchRoute
import Bunx.Dotenv.EnvLoader
import Bunx.Dotenv.ParseTotal
import Bunx.Dotenv.Entries
import Bunx.Dotenv.ExpandTotal
import Bunx.Dotenv.EnvFile
import Bunx.Dotenv.ReadFile
import Bunx.Dotenv.ParseFile
import Bunx.WindowsShim.BinLinkingShim
import Bunx.WindowsShim.ShimRoundTrip
import Bunx.Cron.FormatNumeric
import Bunx.Cron.NormalisedSchedule
import Bunx.Renamer.MinifyRenamer
import Bunx.Renamer.MinifiedNames
import Bunx.Semver.VersionOrder
import Bunx.Semver.QueryParse
import Bunx.Semver.PartialVersions
import Bunx.Semver.Desugaring
import Bunx.Url.UrlParse
import Bunx.Url.UrlText
import Bunx.Url.UrlComponents
import Bunx.SourceMap.SourceMapPieces
import Bunx.SourceMap.MappingsText
import Bunx.SourceMap.MappingParse
import Bunx.SourceMap.ParsedText
import Bunx.SourceMap.ShiftedColumns
import Bunx.SourceMap.FromVlq
import Bunx.SourceMap.ReadersAgree
import Bunx.SourceMap.VlqExport
import Bunx.Http2.Wire
import Bunx.Http2.Session
import Bunx.Http2.Encode
import Bunx.Http2.Dispatch
import Bunx.Http2.Connection
import Bunx.Http2.Framing
import Bunx.Http2.HeaderSync
import Bunx.Http2.HeaderFrames
import Bunx.Http2.QuietSending
import Bunx.Http2.Accounts
import Bunx.Http2.Runs
