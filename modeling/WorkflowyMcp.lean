import WorkflowyMcp.Lib.Proc
import WorkflowyMcp.Lib.Rewriting
import WorkflowyMcp.Lib.Runs
import WorkflowyMcp.Lib.StableSort
import WorkflowyMcp.Lib.Worklist
import WorkflowyMcp.Lib.KeyMap
import WorkflowyMcp.Lib.Replica
import WorkflowyMcp.Lib.Overlay
import WorkflowyMcp.Lib.Blocks
import WorkflowyMcp.Types
import WorkflowyMcp.Text
import WorkflowyMcp.ApiCall
import WorkflowyMcp.NodeAtPath
import WorkflowyMcp.NodeCache
import WorkflowyMcp.Client
import WorkflowyMcp.Upstream
import WorkflowyMcp.ClientEffects
import WorkflowyMcp.Transaction
import WorkflowyMcp.TransactionUndo
import WorkflowyMcp.TransactionRollback
import WorkflowyMcp.FindByTagAndPath
import WorkflowyMcp.Handler
import WorkflowyMcp.StoredTags
import WorkflowyMcp.SubtreeWalk
import WorkflowyMcp.WalkRecovery
import WorkflowyMcp.WalkOrder
import WorkflowyMcp.WalkSkipped
import WorkflowyMcp.WalkCap
import WorkflowyMcp.WalkLog
import WorkflowyMcp.WalkPrefix
import WorkflowyMcp.Exclusion
import WorkflowyMcp.NameIndex
import WorkflowyMcp.NameIndexView
import WorkflowyMcp.IndexReplica
import WorkflowyMcp.IndexDisk
import WorkflowyMcp.IndexPrivacy
import WorkflowyMcp.SharedIndex
import WorkflowyMcp.Html
import WorkflowyMcp.IndexConvergence
import WorkflowyMcp.IndexGraves
import WorkflowyMcp.IndexSaver
import WorkflowyMcp.LinkParser
import WorkflowyMcp.ListingCache
import WorkflowyMcp.CacheRaces
import WorkflowyMcp.RequestLoop
import WorkflowyMcp.Lib.Outline
import WorkflowyMcp.Connection
import WorkflowyMcp.InsertContent
import WorkflowyMcp.InsertResume
import WorkflowyMcp.Lib.Forest
import WorkflowyMcp.DeepCopy
import WorkflowyMcp.EditNode
import WorkflowyMcp.CopyOrder
import WorkflowyMcp.AuditWalk
import WorkflowyMcp.IndexInvariant
import WorkflowyMcp.IndexRoundTrip
import WorkflowyMcp.Reindex
import WorkflowyMcp.ServerTools
import WorkflowyMcp.StoreLedger
import WorkflowyMcp.IndexFootprint
import WorkflowyMcp.IndexGhosts
import WorkflowyMcp.ServerCreates
import WorkflowyMcp.IndexResolve
import WorkflowyMcp.BookedCreates
import WorkflowyMcp.IndexFrame
import WorkflowyMcp.ShortHashHistory
import WorkflowyMcp.RateLimiter
import WorkflowyMcp.RetryWindow
import WorkflowyMcp.Traffic
import WorkflowyMcp.Audit
import WorkflowyMcp.MirrorAudit
import WorkflowyMcp.Lib.Locks
import WorkflowyMcp.NameIndexLocks
import WorkflowyMcp.TagParser
import WorkflowyMcp.NameIndexQuery
import WorkflowyMcp.ScopedSearch
import WorkflowyMcp.ResolveWalk
import WorkflowyMcp.Reorder
import WorkflowyMcp.NameRaces
import WorkflowyMcp.IndexObservations
import WorkflowyMcp.TagCaptures
import WorkflowyMcp.AddTag
import WorkflowyMcp.TagRemoval
import WorkflowyMcp.OpLog
import WorkflowyMcp.Lib.Selection
import WorkflowyMcp.DateParser
import WorkflowyMcp.Aggregation
import WorkflowyMcp.RecentChanges
import WorkflowyMcp.Idempotency
import WorkflowyMcp.SubtreeTraversal
import WorkflowyMcp.ConvertMarkdown
import WorkflowyMcp.AuditResolve
import WorkflowyMcp.Previews
import WorkflowyMcp.Lib.Rounding
import WorkflowyMcp.RetryDelay
import WorkflowyMcp.Windows
import WorkflowyMcp.Lib.Infix
import WorkflowyMcp.ErrorClass
import WorkflowyMcp.JobQueue
import WorkflowyMcp.ToolCalls
import WorkflowyMcp.ToolHealth
import WorkflowyMcp.CancelMarks
import WorkflowyMcp.Lib.TreeOutline
import WorkflowyMcp.IndentedContent
import WorkflowyMcp.MarkdownExport
import WorkflowyMcp.ConvertedContent
import WorkflowyMcp.Lib.Flight
import WorkflowyMcp.BatchCreate
import WorkflowyMcp.KeyedCreates
import WorkflowyMcp.ParentChain
import WorkflowyMcp.UpstreamProbe
import WorkflowyMcp.SmartInsert
import WorkflowyMcp.Backlinks
