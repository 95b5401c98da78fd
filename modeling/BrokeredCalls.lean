import BrokeredCalls.Broker.Builder
import BrokeredCalls.Proofs.Enqueueing
import BrokeredCalls.Proofs.Hub.Groups
import BrokeredCalls.Proofs.Hub.Waking
import BrokeredCalls.Proofs.Hub.Wellformed
import BrokeredCalls.Proofs.Network.Correlation
import BrokeredCalls.Proofs.Network.DeferredReplies
import BrokeredCalls.Proofs.Network.FiringOrder
import BrokeredCalls.Proofs.Network.Reloading
import BrokeredCalls.Proofs.Network.Settlement
import BrokeredCalls.Proofs.Provisioning.Recovery
import BrokeredCalls.Proofs.Redis.Carrying
import BrokeredCalls.Proofs.Redis.Enqueueing
import BrokeredCalls.Proofs.Shutdown.Graceful
import BrokeredCalls.Proofs.Solo.Refinement
import BrokeredCalls.Proofs.Solo.Refusal
import BrokeredCalls.Proofs.Solo.Timing
import BrokeredCalls.Redis.Endpoint
import BrokeredCalls.Redis.Peer
import BrokeredCalls.Simulation.Scenario
import BrokeredCalls.Proofs.Hub.Passing
import BrokeredCalls.Proofs.Shutdown.Following
import BrokeredCalls.Proofs.Shutdown.Invariant
import BrokeredCalls.Proofs.Redis.Timing
import BrokeredCalls.Proofs.Lifetime.Claiming
import BrokeredCalls.Proofs.Redis.Trimming
import BrokeredCalls.Proofs.Redis.Repairing
import BrokeredCalls.Proofs.Batches
import BrokeredCalls.Proofs.Hub.Popping
import BrokeredCalls.Proofs.Hub.Failing
import BrokeredCalls.Proofs.Retry.Capping
import BrokeredCalls.Proofs.Sending
import BrokeredCalls.Proofs.Settings
import BrokeredCalls.Proofs.Solo.Outage
import BrokeredCalls.Proofs.Text.Lenient
import BrokeredCalls.Proofs.Solo.Pausing
import BrokeredCalls.Proofs.Appointments
import BrokeredCalls.Proofs.Lifetime.Building
import BrokeredCalls.Proofs.Redis.Keeping
import BrokeredCalls.Proofs.Pending.OrderedSet
