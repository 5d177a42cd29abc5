import MurlSystem.Resolution.Pins
import MurlSystem.Resolution.Isolation
import MurlSystem.Resolution.Selection
import MurlSystem.Resolution.Gauntlet
import MurlSystem.Cli.Context
import MurlSystem.Dispatch.Opened
import MurlSystem.Activation.Exclusion
import MurlSystem.Consent.Ticked
import MurlSystem.Reference.Agreement
import MurlSystem.Canonical.Lossless
import MurlSystem.Reference.SignedAlike
import MurlSystem.Bundling.RoundTrip
import MurlSystem.Cli.Import
import MurlSystem.Cli.Installed
import MurlSystem.Resolution.Spliced
import MurlSystem.Dispatch.Required
import MurlSystem.Activation.ExitCode
import MurlSystem.Foundation.Registers
import MurlSystem.Core.TrustFile
import MurlSystem.Trusting.Updates
import MurlSystem.Trusting.Revoked
import MurlSystem.Caching.Files
import MurlSystem.Foundation.Nesting
import MurlSystem.Resolution.Sequence
import MurlSystem.Resolution.Ordered
import MurlSystem.Foundation.Relational
import MurlSystem.Resolution.Replay
import MurlSystem.Resolution.RootBudget
import MurlSystem.Resolution.Distinct
import MurlSystem.Cli.Refreshed
import MurlSystem.Resolution.Offline
import MurlSystem.Cli.Directory
import MurlSystem.Cli.Exported
import MurlSystem.Foundation.Toposort
import MurlSystem.Foundation.DepthFirst
import MurlSystem.Resolution.Priority
import MurlSystem.Dispatch.Isolated
import MurlSystem.Targets.Accepted
import MurlSystem.Targets.Remote
import MurlSystem.Foundation.WebUrl
import MurlSystem.Targets.Web
import MurlSystem.Dispatch.Arguments
import MurlSystem.Dispatch.Chosen
import MurlSystem.Cli.Handlers
import MurlSystem.Foundation.PathPush
import MurlSystem.Foundation.PathVerbatim
import MurlSystem.Targets.Paths
import MurlSystem.Targets.Expanded
import MurlSystem.Targets.Smuggling
import MurlSystem.Reference.Cycles
import MurlSystem.Canonical.Injective
import MurlSystem.Trusting.Signed
import MurlSystem.Trusting.Authorities
import MurlSystem.Trusting.Saved
import MurlSystem.Trusting.Held
import MurlSystem.Trusting.Collision
import MurlSystem.Cli.Classified
import MurlSystem.Trusting.Failing
import MurlSystem.Foundation.PathUnder
import MurlSystem.Storing.Contained
import MurlSystem.Foundation.FileAccess
import MurlSystem.Storing.Independent
import MurlSystem.Trusting.Stamped
import MurlSystem.Cli.Signing
import MurlSystem.Trusting.Satisfiable
import MurlSystem.Net.Address
import MurlSystem.Net.Fetcher
import MurlSystem.Daemon.Protocol
import MurlSystem.Canonical.Strict
import MurlSystem.Foundation.Calendar
import MurlSystem.Resolution.Rechecks
import MurlSystem.Dates.Counted
import MurlSystem.Dates.Stamp
import MurlSystem.Dates.Accepted
import MurlSystem.Dates.Sliced
import MurlSystem.Dates.Windows
import MurlSystem.Cli.Created
import MurlSystem.Foundation.Fresh
import MurlSystem.Playground.Ids
import MurlSystem.Daemon.Connection
import MurlSystem.Daemon.Framed
import MurlSystem.Foundation.Traverse
import MurlSystem.Storing.Current
import MurlSystem.Storing.Listed
import MurlSystem.Foundation.Revalidate
import MurlSystem.Resolution.Freshness
import MurlSystem.Core.Report
import MurlSystem.Foundation.Segments
import MurlSystem.Daemon.Server
import MurlSystem.Canonical.Compact
import MurlSystem.Daemon.Exchange
import MurlSystem.Daemon.Opening
import MurlSystem.Foundation.Cut
import MurlSystem.Resolution.Limited
import MurlSystem.Foundation.Lockstep
import MurlSystem.Trusting.Labels
import MurlSystem.Consent.Eased
import MurlSystem.Cli.Inspection
import MurlSystem.Caching.Directory
import MurlSystem.Cli.CacheCommands
import MurlSystem.Cli.HandlerStore
import MurlSystem.Daemon.Discovery
