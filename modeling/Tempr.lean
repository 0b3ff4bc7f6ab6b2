import Tempr.Support.Weighted
import Tempr.Support.Splice
import Tempr.Support.Runs
import Tempr.Support.Transition
import Tempr.Support.LittleEndian
import Tempr.Support.InjectiveFold
import Tempr.Support.HashMap
import Tempr.Support.Buckets
import Tempr.Support.SpanTree
import Tempr.Support.TopN
import Tempr.Support.Cyclic
import Tempr.Support.SortedScan
import Tempr.Support.Subsequence
import Tempr.Support.SplitJoin
import Tempr.Support.Timeline
import Tempr.Support.Executor
import Tempr.Editor.Rope
import Tempr.Editor.Selection
import Tempr.Editor.Buffer
import Tempr.Editor.Lines
import Tempr.Editor.Positions
import Tempr.Editor.Motion
import Tempr.Editor.WordMotion
import Tempr.Editor.Arrows
import Tempr.Editor.Statements
import Tempr.Editor.EditOps
import Tempr.Editor.Batch
import Tempr.Editor.History
import Tempr.Editor.Outcome
import Tempr.Editor.Typing
import Tempr.Editor.Blocks
import Tempr.Editor.LineOps
import Tempr.Editor.MoveLines
import Tempr.Editor.MoveSelections
import Tempr.Editor.MoveOutcome
import Tempr.Editor.TextLines
import Tempr.Editor.TouchedLines
import Tempr.Editor.WholeLines
import Tempr.Editor.ExchangedLines
import Tempr.Editor.MovedLines
import Tempr.Editor.IncrementalSyntax
import Tempr.Events.Bus
import Tempr.Services.Basic
import Tempr.Services.Connection
import Tempr.Services.PoolOwnership
import Tempr.Services.PoolsClosed
import Tempr.Services.Disconnect
import Tempr.Services.Query
import Tempr.Services.Cancel
import Tempr.Services.SchemaCatalog
import Tempr.Services.SchemaRefresh
import Tempr.Services.SchemaObjects
import Tempr.Services.SchemaDelta
import Tempr.Services.SchemaDifference
import Tempr.Services.SchemaSplice
import Tempr.Services.SchemaWellFormed
import Tempr.Services.SchemaTracking
import Tempr.Services.SchemaIncremental
import Tempr.Services.SchemaRuns
import Tempr.Services.SchemaAgreement
import Tempr.DbPostgres.Placeholders
import Tempr.DbPostgres.Fingerprints
import Tempr.Services.Lifecycle
import Tempr.Services.Publication
import Tempr.Services.SchemaCalls
import Tempr.Services.SchemaSteps
import Tempr.Services.SnapshotVersions
import Tempr.Workspace.CatalogFile
import Tempr.Workspace.CatalogCorruption
import Tempr.Intel.Text
import Tempr.Intel.Catalog
import Tempr.Intel.CatalogArena
import Tempr.Intel.Analysis
import Tempr.Intel.Navigation
import Tempr.Intel.Syntax
import Tempr.Intel.Semantic
import Tempr.Intel.Resolve
import Tempr.Intel.Walk
import Tempr.Intel.Silence
import Tempr.Intel.SyntaxErrors
import Tempr.Intel.BrokenSyntax
import Tempr.Intel.ColumnCompletion
import Tempr.Intel.Lexer
import Tempr.Intel.LexerRounds
import Tempr.Intel.SkippedText
import Tempr.Intel.CursorWord
import Tempr.Intel.QuotedNames
import Tempr.Intel.Completion
import Tempr.Intel.RelationCandidates
import Tempr.Intel.PrefixSearch
import Tempr.Intel.FuzzySubsequence
import Tempr.Intel.RankBands
import Tempr.Intel.Ranking
import Tempr.Intel.Hover
import Tempr.Intel.QuotedHover
import Tempr.Services.SnapshotFlow
import Tempr.Services.CatalogLifecycle
import Tempr.Services.CatalogIdentity
import Tempr.Services.CatalogFollowing
import Tempr.Services.MirrorText
import Tempr.Intel.Engine
import Tempr.Intel.Requests
import Tempr.Intel.ContextAlone
import Tempr.Intel.EngineCalls
import Tempr.Intel.ScopeRanges
import Tempr.Intel.ScopeAgreement
import Tempr.Intel.Moved
import Tempr.Intel.Outer
import Tempr.Intel.Isolation
import Tempr.Intel.Reached
import Tempr.Intel.RelationItems
import Tempr.Intel.RecursiveCte
import Tempr.Intel.OutputAlias
import Tempr.Intel.BareReferences
import Tempr.Intel.BareHover
import Tempr.Intel.Spelling
import Tempr.Intel.DerivedColumns
import Tempr.Intel.InsertSelect
import Tempr.Services.Analyses
import Tempr.Services.AnalysisRevisions
import Tempr.Services.AnalysisCoherence
import Tempr.Ui.EditorView
import Tempr.Ui.Actions
import Tempr.Ui.Screens
import Tempr.Ui.Session
import Tempr.Ui.SessionRuns
import Tempr.Ui.CompletionSession
import Tempr.Ui.Composition
import Tempr.DbPostgres.Stream
import Tempr.Ui.MainWindow
import Tempr.Ui.QueryRows
import Tempr.Ui.ResultDelivery
import Tempr.Support.Disk
import Tempr.Support.AtomicStore
import Tempr.Support.FileJobs
import Tempr.Support.AtomicReplace
import Tempr.Workspace.Storage
import Tempr.Workspace.StorageRuns
import Tempr.Workspace.AtomicSaves
import Tempr.Support.Overlay
import Tempr.Support.RunLength
import Tempr.Editor.Highlights
import Tempr.Ui.Paint
