import Ppv2Auth.Support.BigEndian
import Ppv2Auth.Support.BitPrefix
import Ppv2Auth.Support.Intervals
import Ppv2Auth.Support.Radix
import Ppv2Auth.Support.Batches
import Ppv2Auth.Support.RefCount
import Ppv2Auth.Support.Tlv
import Ppv2Auth.Support.Labels
import Ppv2Auth.Rust.Text
import Ppv2Auth.Rust.Net
import Ppv2Auth.Rust.NetText
import Ppv2Auth.Ppv2
import Ppv2Auth.Ppv2.Incremental
import Ppv2Auth.Ppv2.Indexed
import Ppv2Auth.Ppv2.Grammar
import Ppv2Auth.Cidr
import Ppv2Auth.Cidr.Membership
import Ppv2Auth.Identity.Sweep
import Ppv2Auth.Identity.Scheme
import Ppv2Auth.Identity.Counts
import Ppv2Auth.Identity.Refinement
import Ppv2Auth.Identity.Synthesis
import Ppv2Auth.Identity.Spaces
import Ppv2Auth.Identity.Members
import Ppv2Auth.Identity.Meeting
import Ppv2Auth.Graph
import Ppv2Auth.Graph.Reach
import Ppv2Auth.Config
import Ppv2Auth.Config.Keys
import Ppv2Auth.Config.Onboarding
import Ppv2Auth.Config.Precedence
import Ppv2Auth.Config.Wildcards
import Ppv2Auth.Config.Loading
import Ppv2Auth.Config.Expansion
import Ppv2Auth.Filters.Envoy
import Ppv2Auth.Filters.Tcp
import Ppv2Auth.Filters.Udp
import Ppv2Auth.Filters.Agreement
import Ppv2Auth.Filters.Accounting
import Ppv2Auth.Support.Transition
import Ppv2Auth.Support.Traversal
import Ppv2Auth.Runs.World
import Ppv2Auth.Runs.Coherence
import Ppv2Auth.Runs.Lanes
import Ppv2Auth.Runs.Judgements
import Ppv2Auth.Runs.Freshness
import Ppv2Auth.Runs.Pairing
import Ppv2Auth.Runs.Chain
import Ppv2Auth.Filters.Admission
import Ppv2Auth.Filters.Segmentation
import Ppv2Auth.Support.Reactive
import Ppv2Auth.Filters.Factory
import Ppv2Auth.Pods.Pod
import Ppv2Auth.Pods.Cacheless
import Ppv2Auth.Pods.Mediation
import Ppv2Auth.Config.Policy
import Ppv2Auth.Pods.Exactness
import Ppv2Auth.Pods.Modes
import Ppv2Auth.Filters.Progress
import Ppv2Auth.Identity.Principal
import Ppv2Auth.Config.Logged
import Ppv2Auth.Support.Contest
import Ppv2Auth.Identity.Growth
import Ppv2Auth.Config.Growth
import Ppv2Auth.Support.Factoring
import Ppv2Auth.Config.Grouping
import Ppv2Auth.Filters.Conversation
import Ppv2Auth.Pods.Accounts
import Ppv2Auth.Config.Attested
import Ppv2Auth.Runs.Settling
import Ppv2Auth.Config.Rejection
import Ppv2Auth.Support.Widening
import Ppv2Auth.Config.Edits
import Ppv2Auth.Pods.Isolation
