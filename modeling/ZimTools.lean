import ZimTools.Lib.Loop
import ZimTools.Std.Bytes
import ZimTools.Std.Decimal
import ZimTools.Tools.AbsolutePath
import ZimTools.Tools.DecodeUrl
import ZimTools.Tools.HtmlEntities
import ZimTools.Tools.LinkResolver
import ZimTools.Lib.DotSegments
import ZimTools.Tools.LinkDirectories
import ZimTools.Tools.LinkReference
import ZimTools.Tools.LinkSlashes
import ZimTools.Lib.Orbit
import ZimTools.Zimcheck.RedirectionTable
import ZimTools.Lib.Transition
import ZimTools.Zimcheck.TaskDispatcher
import ZimTools.Zimcheck.TaskStream
import ZimTools.Cache.LruCache
import ZimTools.Cache.ConcurrentCache
import ZimTools.Cache.FailingCalls
import ZimTools.Lib.Progress
import ZimTools.Cache.CacheProgress
import ZimTools.Lib.Interleaving
import ZimTools.Lib.LastUse
import ZimTools.Cache.LruRuns
import ZimTools.Lib.Utf8
import ZimTools.Lib.Json
import ZimTools.Zimcheck.JsonTools
import ZimTools.Zimcheck.JsonScopes
import ZimTools.Zimcheck.ErrorLogger
import ZimTools.Zimcheck.Report
import ZimTools.Zimcheck.JsonReport
import ZimTools.Tools.RelativePath
import ZimTools.Tools.RelativeSegments
import ZimTools.Tools.RelativeResolution
import ZimTools.Tools.UrlEncode
import ZimTools.Zimdump.DumpFiles
import ZimTools.Zimdump.Containment
import ZimTools.Zimdump.RedirectLinks
import ZimTools.Zimdump.OutputPaths
import ZimTools.Zimdump.NamespaceFilter
import ZimTools.Incremental.Archive
import ZimTools.Incremental.Lines
import ZimTools.Incremental.Zimdiff
import ZimTools.Incremental.Zimpatch
import ZimTools.Incremental.DiffBounds
import ZimTools.Incremental.RoundTrip
import ZimTools.Incremental.Update
import ZimTools.Incremental.TextLists
import ZimTools.Incremental.Attributes
import ZimTools.Incremental.Pruning
import ZimTools.Incremental.Chains
import ZimTools.Incremental.OwnDiffs
import ZimTools.Lib.MapM
import ZimTools.Lib.Packing
import ZimTools.Zimsplit.Splitter
import ZimTools.Zimsplit.Parts
import ZimTools.Zimsplit.Cuts
import ZimTools.Zimsplit.Suffixes
import ZimTools.Tools.HtmlLinks
import ZimTools.Tools.LinkBounds
import ZimTools.Tools.LinkPasses
import ZimTools.Tools.LinkBalance
import ZimTools.Tools.LinkGrammar
import ZimTools.Tools.LinkFragments
import ZimTools.Tools.LinkLayout
import ZimTools.Tools.LinkSeparators
import ZimTools.Std.Regex
import ZimTools.Tools.UriKinds
import ZimTools.Metadata.Constraints
import ZimTools.Metadata.Counter
import ZimTools.Metadata.Errors
import ZimTools.Metadata.LongDescription
import ZimTools.Metadata.Written
import ZimTools.Lib.Buckets
import ZimTools.Lib.Duplicates
import ZimTools.Zimcheck.ArticleChecker
import ZimTools.Lib.RunningSums
import ZimTools.Zimcheck.Adler32
import ZimTools.Zimcheck.EntryMessages
import ZimTools.Zimcheck.Independence
import ZimTools.Zimcheck.InternalLinks
import ZimTools.Zimcheck.Redundancy
import ZimTools.Zimcheck.TestStatus
import ZimTools.Zimcheck.WaitSet
import ZimTools.Zimcheck.CheckOrder
import ZimTools.Zimcheck.Run
import ZimTools.Zimcheck.RedirectLoops
import ZimTools.Zimcheck.Quick
import ZimTools.Zimcheck.QuickCounts
import ZimTools.Zimcheck.TaskProgress
import ZimTools.Zimcheck.CheckerThreads
import ZimTools.Tools.ReplaceString
import ZimTools.Lib.BitGroups
import ZimTools.Tools.Base64
import ZimTools.Std.Captures
import ZimTools.Zimrecreate.PatchItem
import ZimTools.Zimrecreate.PatchedLinks
import ZimTools.Zimrecreate.Create
import ZimTools.Zimwriterfs.Redirects
import ZimTools.Zimwriterfs.HtmlDirectory
import ZimTools.Zimwriterfs.MetaRefresh
import ZimTools.Lib.FileTree
import ZimTools.Zimwriterfs.VisitDirectory
import ZimTools.Zimwriterfs.WrittenZim
import ZimTools.Zimwriterfs.PackedLinks
import ZimTools.Zimdump.DumpedTree
import ZimTools.Zimwriterfs.PackedDump
import ZimTools.Zimwriterfs.RedirectPages
import ZimTools.Zimwriterfs.PackedPages
