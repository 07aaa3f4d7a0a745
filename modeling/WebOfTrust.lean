import WebOfTrust.Boundary.Call
import WebOfTrust.Config.Reader
import WebOfTrust.Context.Run
import WebOfTrust.Proofs.Belief.Convergence
import WebOfTrust.Proofs.Belief.Damping
import WebOfTrust.Proofs.Betrayal.Canonical
import WebOfTrust.Proofs.Betrayal.Coverage
import WebOfTrust.Proofs.Betrayal.Encoding
import WebOfTrust.Proofs.Betrayal.Horizon
import WebOfTrust.Proofs.Betrayal.Residuals
import WebOfTrust.Proofs.Betrayal.Tracing
import WebOfTrust.Proofs.Boundary.Buffers
import WebOfTrust.Proofs.Boundary.Isolation
import WebOfTrust.Proofs.Context.Deliveries
import WebOfTrust.Proofs.Context.Divisors
import WebOfTrust.Proofs.Context.Enduring
import WebOfTrust.Proofs.Context.History
import WebOfTrust.Proofs.Context.Paths
import WebOfTrust.Proofs.Context.Signals
import WebOfTrust.Proofs.Registry.Exhaustion
import WebOfTrust.Proofs.Registry.Occupancy
import WebOfTrust.Proofs.Reputation.Monotone
import WebOfTrust.Proofs.Reputation.Pull
