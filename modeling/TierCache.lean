import TierCache.Dispatcher
import TierCache.Main
import TierCache.Payload
import TierCache.Proofs.Cache.Coherence
import TierCache.Proofs.Cache.Layout
import TierCache.Proofs.Disk.Consistency
import TierCache.Proofs.Disk.Restart
import TierCache.Proofs.Disk.Upkeep
import TierCache.Proofs.Dispatcher.Clearing
import TierCache.Proofs.Dispatcher.Serving
import TierCache.Proofs.Dispatcher.Superseding
import TierCache.Proofs.Resident.Refinement
import TierCache.Proofs.Dispatcher.Report
import TierCache.Proofs.Dispatcher.Ticketing
import TierCache.Proofs.Dispatcher.Silencing
import TierCache.Proofs.Disk.Interruption
import TierCache.Proofs.Dispatcher.Resetting
import TierCache.Proofs.Resident.Handover
import TierCache.Proofs.Lingering.Forgetting
import TierCache.Proofs.Disk.Retaining
import TierCache.Proofs.Disk.Recovery
import TierCache.Disk.Editing
import TierCache.Proofs.Disk.Trimming
import TierCache.Proofs.Disk.Failing
import TierCache.Proofs.Cache.Culling
import TierCache.Proofs.Key.Bodies
import TierCache.Proofs.Cache.Repeating
import TierCache.Proofs.Dispatcher.Unkept
import TierCache.Proofs.Cache.Accounting
import TierCache.Proofs.Lifetime
import TierCache.Proofs.Resident.Accepting
import TierCache.Proofs.Key.Grammar
import TierCache.Proofs.Recency.Listing
import TierCache.Proofs.Budget
