import ArtifactCache.CommandLine.Run
import ArtifactCache.Main
import ArtifactCache.Sync.Context
import ArtifactCache.Proofs.KeyMap
import ArtifactCache.Proofs.Sync.Lock
import ArtifactCache.Proofs.Sync.Run
import ArtifactCache.Proofs.Sync.Accounting
import ArtifactCache.Proofs.Sync.Deadlock
import ArtifactCache.Proofs.Sync.Settling
import ArtifactCache.Proofs.Sync.Queueing
import ArtifactCache.Proofs.Text
import ArtifactCache.Proofs.Tracking.Syntax
import ArtifactCache.Proofs.Result
import ArtifactCache.Proofs.Tracking.Format
import ArtifactCache.Proofs.Files.Path
import ArtifactCache.Proofs.Tracking.RoundTrip
import ArtifactCache.Proofs.Files.Walk
import ArtifactCache.Proofs.Files.Below
import ArtifactCache.Proofs.Files.Beside
import ArtifactCache.Proofs.Files.Tree
import ArtifactCache.Proofs.Files.Making
import ArtifactCache.Proofs.Files.Lasting
import ArtifactCache.Proofs.Tracking.Store
import ArtifactCache.Proofs.Tracking.Prepared
import ArtifactCache.Proofs.Tracking.Order
import ArtifactCache.Proofs.Files.Plain
import ArtifactCache.Proofs.Files.Change
import ArtifactCache.Proofs.Tracking.Kept
import ArtifactCache.Proofs.Manager.Ledger
import ArtifactCache.Proofs.Manager.Origin
import ArtifactCache.Proofs.Manager.Places
import ArtifactCache.Proofs.Manager.Refinement
import ArtifactCache.Proofs.Manager.Run
import ArtifactCache.Proofs.Manager.Registered
import ArtifactCache.Proofs.Manager.Installed
import ArtifactCache.Proofs.Manager.Downloaded
import ArtifactCache.Proofs.Files.Straight
import ArtifactCache.Proofs.Manager.Siblings
import ArtifactCache.Proofs.Config
import ArtifactCache.Proofs.Selection
import ArtifactCache.Proofs.Selection.Outcome
import ArtifactCache.Proofs.Numeral.Value
import ArtifactCache.Proofs.Registry
import ArtifactCache.Proofs.Ranking
import ArtifactCache.Proofs.Ranking.Others
import ArtifactCache.Proofs.Manager.Availability
import ArtifactCache.Proofs.Provider
import ArtifactCache.Proofs.Session.History
import ArtifactCache.Proofs.Session.Lifecycle
import ArtifactCache.Proofs.Files.Inward
import ArtifactCache.Proofs.Layout.DocumentName
import ArtifactCache.Proofs.Layout
import ArtifactCache.Proofs.Split
import ArtifactCache.Proofs.Repository.Remote
import ArtifactCache.Proofs.Version
import ArtifactCache.Proofs.Manager.Item
import ArtifactCache.Proofs.Manager.Inside
import ArtifactCache.Proofs.Files.FileName
import ArtifactCache.Proofs.Tracking.Exactness
import ArtifactCache.Proofs.Tracking.Confined
import ArtifactCache.Proofs.Manager.Failing
import ArtifactCache.Proofs.Manager.Undivided
import ArtifactCache.Proofs.Repository.Key
import ArtifactCache.Proofs.Files.Written
import ArtifactCache.Proofs.Manager.Branches
import ArtifactCache.Proofs.Manager.Shared
import ArtifactCache.Proofs.Manager.Documents
import ArtifactCache.Proofs.Coordinate
import ArtifactCache.Proofs.Tracking.Lines
import ArtifactCache.Proofs.Manager.Grouping
import ArtifactCache.Proofs.CommandLine.Walk
import ArtifactCache.Proofs.CommandLine.Work
import ArtifactCache.Proofs.CommandLine.Listing
