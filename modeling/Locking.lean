import Locking.Hierarchy
import Locking.Json.Forms
import Locking.Proofs.Atomicity
import Locking.Proofs.Bookkeeping
import Locking.Proofs.Commutation
import Locking.Proofs.Completion
import Locking.Proofs.Counting
import Locking.Proofs.Detour
import Locking.Proofs.Draining
import Locking.Proofs.Exclusion
import Locking.Proofs.Forms
import Locking.Proofs.Handoff
import Locking.Proofs.Isolation
import Locking.Proofs.Ledger
import Locking.Proofs.Nesting
import Locking.Proofs.Paths
import Locking.Proofs.Pruning
import Locking.Proofs.Refusals
import Locking.Proofs.ReleaseSets
import Locking.Proofs.Replay
import Locking.Proofs.Waiters
import Locking.Session.Drill
import Locking.Session.Run
import Locking.Table.Lemmas
