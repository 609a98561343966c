import MavenMcp.ProjectCache.Generations
import MavenMcp.ProjectCache.FullRebuild
import MavenMcp.ProjectCache.Budget
import MavenMcp.ProjectCache.Markers
import MavenMcp.Server.Revalidation
import MavenMcp.Server.Freshness
import MavenMcp.Server.Refresh
import MavenMcp.Server.Budget
import MavenMcp.Server.SingleFlight
import MavenMcp.Server.ResponseLimit
import MavenMcp.Server.Paging
import MavenMcp.Lib.Utf8
import MavenMcp.Index.Archive
import MavenMcp.Index.Preflight
import MavenMcp.Index.Persisted
import MavenMcp.Index.Build
import MavenMcp.IndexCache.Recovery
import MavenMcp.Lib.Regex
import MavenMcp.Lib.Unicode
import MavenMcp.Redaction.Rules
import MavenMcp.RuntimeStats
import MavenMcp.Redaction.Shapes
import MavenMcp.Redaction.Names
import MavenMcp.Lib.Forest
import MavenMcp.Dependencies.Coordinate
import MavenMcp.Dependencies.Tree
import MavenMcp.Dependencies.Resolution
import MavenMcp.Dependencies.Verbose
import MavenMcp.Dependencies.Explained
import MavenMcp.DeclarationSource.Lexer
import MavenMcp.DeclarationSource.Lines
import MavenMcp.DeclarationSource.Outline
import MavenMcp.DeclarationSource.Modifiers
import MavenMcp.DeclarationSource.Erasure
import MavenMcp.DeclarationSource.Members
import MavenMcp.DeclarationSource.Locate
import MavenMcp.DeclarationSource.Slices
import MavenMcp.DeclarationSource.Brackets
import MavenMcp.DeclarationSource.Scan
import MavenMcp.DeclarationSource.Scopes
import MavenMcp.DeclarationSource.Bounds
import MavenMcp.DeclarationSource.Groups
import MavenMcp.DeclarationSource.CutOff
import MavenMcp.DeclarationSource.Comments
import MavenMcp.DeclarationSource.Blanking
import MavenMcp.Lib.Decimal
import MavenMcp.Index.MultiRelease
import MavenMcp.Index.Manifest
import MavenMcp.Index.SpringFactories
import MavenMcp.Index.Locations
import MavenMcp.Index.ClassSearch
import MavenMcp.Index.Layout
import MavenMcp.Index.Sources
import MavenMcp.Index.ClassTools
import MavenMcp.Index.Hierarchy
import MavenMcp.Index.Descendants
import MavenMcp.Index.Stats
import MavenMcp.Index.CentralDirectory
import MavenMcp.Index.Skipping
import MavenMcp.Project.Output
import MavenMcp.Lib.Orders
import MavenMcp.Project.EffectivePom
import MavenMcp.Project.FocusedTest
import MavenMcp.Lib.Glob
import MavenMcp.Dependencies.Wildcard
import MavenMcp.Lib.Merging
import MavenMcp.LogAnalysis.Deduplicate
import MavenMcp.LogAnalysis.Shell
import MavenMcp.LogAnalysis.Continuation
import MavenMcp.LogAnalysis.Privacy
import MavenMcp.LogAnalysis.SecretValues
import MavenMcp.Lib.Attempt
import MavenMcp.LogAnalysis.Maven
import MavenMcp.LogAnalysis.Time
import MavenMcp.Lib.Json
import MavenMcp.LogAnalysis.Sources
import MavenMcp.LogAnalysis.Accounting
import MavenMcp.Index.Interpolation
import MavenMcp.IndexCache.Entries
import MavenMcp.IndexCache.Scope
import MavenMcp.IndexCache.Digest
import MavenMcp.IndexCache.References
import MavenMcp.Lib.Machine
import MavenMcp.Project.Totals
import MavenMcp.IndexCache.Writing
import MavenMcp.Lib.Calendar
import MavenMcp.LogAnalysis.Timestamps
import MavenMcp.Lib.Slots
import MavenMcp.Server.HeavyWork
import MavenMcp.Config
import MavenMcp.Lib.Traversal
import MavenMcp.Project.Modules
import MavenMcp.IndexCache.ModelInputs
import MavenMcp.Index.Containment
import MavenMcp.Server.PageLength
import MavenMcp.Index.Truncation
import MavenMcp.DeclarationSource.Descriptors
import MavenMcp.Index.FactStrings
import MavenMcp.Index.ContentSearch
import MavenMcp.LogAnalysis.GroupedReport
import MavenMcp.LogAnalysis.Report
import MavenMcp.Server.Downloads
import MavenMcp.RuntimeStats.Publication
import MavenMcp.RuntimeStats.Liveness
import MavenMcp.Server.Progress
import MavenMcp.Index.ApiDiff
import MavenMcp.Index.References
import MavenMcp.IndexCache.Settled
import MavenMcp.Index.Reactor
