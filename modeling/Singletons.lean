import Singletons.Report
import Singletons.Proofs.Registry.Effects
import Singletons.Proofs.Session.Life
import Singletons.Proofs.Session.Execution
import Singletons.Proofs.Registry.InCreation
import Singletons.Proofs.Registry.Stability
import Singletons.Proofs.Registry.Delivery
import Singletons.Proofs.Circular.Blueprint
import Singletons.Proofs.Circular.Phase
import Singletons.Proofs.Circular.Growth
import Singletons.Proofs.Circular.Resolution
import Singletons.Proofs.Registry.LeftBehind
import Singletons.Proofs.Registry.Destruction
import Singletons.Proofs.Teardown.Dismantling
import Singletons.Proofs.Teardown.Quiet
import Singletons.Proofs.Teardown.Stripped
import Singletons.Proofs.Teardown.Stages
import Singletons.Proofs.Teardown.Closure
import Singletons.Proofs.Graph.Links
import Singletons.Proofs.Teardown.Order
import Singletons.Proofs.Teardown.Acyclic
import Singletons.Proofs.Teardown.Cycles
import Singletons.Proofs.Session.Trace
import Singletons.Proofs.Session.Return
import Singletons.Proofs.Handles.Dealing
import Singletons.Proofs.Handles.Steps
import Singletons.Proofs.Handles.Ledger
import Singletons.Proofs.Handles.Clearing
import Singletons.Proofs.Cache.Access
import Singletons.Proofs.Cache.Tiers
import Singletons.Proofs.Cache.Mirror
import Singletons.Proofs.Registry.Suppression
import Singletons.Proofs.Graph.Indexes
import Singletons.Proofs.Teardown.Indexes
import Singletons.Proofs.Graph.Chains
import Singletons.Proofs.Teardown.Aliases
import Singletons.Proofs.Teardown.Recursion
import Singletons.Proofs.Graph.Walks
import Singletons.Proofs.Json.Documents
import Singletons.Proofs.Json.Strings
import Singletons.Proofs.Logging.Push
import Singletons.Proofs.Logging.Settings
import Singletons.Proofs.Logging.Setup
import Singletons.Proofs.Logging.Configured
import Singletons.Proofs.Logging.Refusals
import Singletons.Proofs.Session.Nesting
import Singletons.Proofs.Cache.Entries
import Singletons.Proofs.Early.Calls
import Singletons.Proofs.Early.Promotion
import Singletons.Proofs.Early.Losses
import Singletons.Proofs.Early.Registrations
import Singletons.Proofs.Early.Visibility
import Singletons.Proofs.Registry.Failure
import Singletons.Proofs.Handles.Failures
import Singletons.Proofs.Cache.Registration
import Singletons.Proofs.Handles.Disposal
import Singletons.Proofs.Teardown.Successive
import Singletons.Proofs.Logging.History
import Singletons.Proofs.Logging.Levels
import Singletons.Proofs.Logging.Recipients
import Singletons.Proofs.Config.Shapes
import Singletons.Proofs.Json.Escaped
