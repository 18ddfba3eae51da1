import Nipa.Support.Checks
import Nipa.Support.Lists
import Nipa.Support.Maps
import Nipa.Support.Strings
import Nipa.Support.Base64
import Nipa.Support.Hierarchy
import Nipa.Support.Ancestry
import Nipa.Support.Runs
import Nipa.Support.Attempts
import Nipa.Support.VersionedCache
import Nipa.Support.TableSync
import Nipa.Support.EditGraph
import Nipa.TreeHash
import Nipa.Domain
import Nipa.Store.Tables
import Nipa.Store.Invariant
import Nipa.Store.Read
import Nipa.Store.Rehash
import Nipa.Push.Paths
import Nipa.Push.Validate
import Nipa.Push.Usecase
import Nipa.Push.Accepted
import Nipa.Push.Run
import Nipa.Push.Placement
import Nipa.Push.RootHash
import Nipa.Push.Metadata
import Nipa.Push.LockPlan
import Nipa.Locks
import Nipa.Prefixes
import Nipa.LockTable
import Nipa.Branches
import Nipa.Diff
import Nipa.TreeWalk
import Nipa.Merge.MergeBase
import Nipa.Merge.ThreeWay
import Nipa.Merge.Decisions
import Nipa.Merge.Strategies
import Nipa.Merge.MergedTree
import Nipa.Merge.LandingPlan
import Nipa.Merge.MergedChunks
import Nipa.Server.WritePlan
import Nipa.Server.System
import Nipa.Server.PrefixFree
import Nipa.Server.CanonicalHash
import Nipa.Server.Heads
import Nipa.Server.CommitHash
import Nipa.Server.ReadBack
import Nipa.Server.LandedTrees
import Nipa.Server.LockProtection
import Nipa.Manifests
import Nipa.Permissions
import Nipa.PermissionCache
import Nipa.VisibleChunks
import Nipa.ChunkProof
import Nipa.ChunkUploads
import Nipa.Possession
import Nipa.Ledger.Tables
import Nipa.Ledger.Confirmations
import Nipa.Ledger.Recount
import Nipa.Ledger.History
import Nipa.Ledger.Coverage
import Nipa.Review.Tables
import Nipa.Review.Runs
import Nipa.Review.CarryOver
import Nipa.Review.Gate
import Nipa.Review.Lifecycle
import Nipa.Review.Reopen
import Nipa.Review.BranchNames
import Nipa.Review.Summaries
import Nipa.Client.WorkingCopy
import Nipa.Client.ThreeWay
import Nipa.Client.Push
import Nipa.Client.Merge
import Nipa.Client.Conflicts
import Nipa.Client.MergeAgreement
import Nipa.Client.Abort
import Nipa.Client.MergeCommit
import Nipa.Client.WorkTree
import Nipa.Client.CleanMerge
import Nipa.Client.Revert
import Nipa.Client.Uncommitted
import Nipa.Client.ObjectCache
import Nipa.Client.DryRun
import Nipa.Client.Plan
import Nipa.Client.Landings
import Nipa.Client.Forecast
import Nipa.Client.SnapshotStore
import Nipa.Daemon.Coordinator
import Nipa.Text.LineDiff
import Nipa.Text.Scripts
import Nipa.Text.ShortestScript
import Nipa.Text.Newlines
import Nipa.Text.Hunks
import Nipa.Text.PatchApply
import Nipa.Text.HunkGroups
import Nipa.Text.Merge
import Nipa.Text.ChangeRanges
import Nipa.Text.Regions
import Nipa.Text.MergeRegions
import Nipa.Text.CleanTextMerge
import Nipa.Text.MergeSymmetry
import Nipa.Text.ConflictSections
import Nipa.Text.Conflicts
import Nipa.Text.ConflictMarkers
import Nipa.Support.Cutting
import Nipa.Chunker.Splitter
import Nipa.Chunker.Boundaries
import Nipa.Chunker.Encode
import Nipa.Chunker.RoundTrip
import Nipa.Webhook.Dispatcher
import Nipa.Webhook.Steps
import Nipa.Webhook.Claims
import Nipa.Webhook.Deliveries
import Nipa.Client.StatCache
import Nipa.Client.StatTrust
import Nipa.Support.Programs
import Nipa.Review.LandingRun
import Nipa.Review.RefusedLanding
import Nipa.Preimages
import Nipa.Support.Loops
import Nipa.Merge.NearestBase
import Nipa.History.FirstParents
import Nipa.History.CommitRange
import Nipa.History.RebaseSelection
import Nipa.History.RequestCommits
import Nipa.History.PathLog
import Nipa.Support.Greedy
import Nipa.Diff.Renames
import Nipa.Diff.ConservedChanges
import Nipa.Diff.Patch
import Nipa.Support.Regexp
import Nipa.Client.Ignore
import Nipa.Client.IgnoreGlob
import Nipa.Client.IgnorePatterns
import Nipa.Client.WorkingFiles
import Nipa.Store.Pruned
import Nipa.History.TreeHistory
import Nipa.History.EntryHistory
import Nipa.History.HistoryAgreement
import Nipa.History.SeenPaths
import Nipa.Snowflake
import Nipa.NodeLease
import Nipa.Client.FlatTree
import Nipa.Push.Batches
import Nipa.Client.TransferLimiter
import Nipa.Client.ChunkUploader
import Nipa.Client.TransferPool
import Nipa.Support.Increasing
import Nipa.Preview.Tables
import Nipa.Preview.Alignment
import Nipa.Preview.Conserved
import Nipa.Support.Faults
import Nipa.Preview.Image
import Nipa.Preview.TGA
import Nipa.Preview.Radiance
import Nipa.Preview.PSD
import Nipa.Preview.PSDLayers
import Nipa.Preview.EXR
import Nipa.Preview.EXRHeaders
import Nipa.Preview.EXRBlocks
import Nipa.Preview.Decoders
import Nipa.Support.Interleaving
import Nipa.Support.Rows
import Nipa.Accounts.Tables
import Nipa.Accounts.Requests
import Nipa.Accounts.Auth
import Nipa.Accounts.Users
import Nipa.Accounts.Registration
import Nipa.Accounts.OAuth
import Nipa.Accounts.Changes
import Nipa.Accounts.Evidence
import Nipa.Accounts.Rules
import Nipa.Accounts.Flows
import Nipa.Accounts.UserFlows
import Nipa.Accounts.OnboardingFlows
import Nipa.Accounts.Sessions
