import Dhole.LeaseAcceptance
import Dhole.FairShare
import Dhole.Budget
import Dhole.Completion
import Dhole.LinearEdits
import Dhole.Holders
import Dhole.TierPermissions
import Dhole.UntrustedTier
import Dhole.RunQuota
import Dhole.HeldSlots
import Dhole.Generators
import Dhole.LoopHistories
import Dhole.BlobStore
import Dhole.Mirror
import Dhole.CollectCrash
import Dhole.Metering
import Dhole.Relay
import Dhole.ApprovalVerdicts
import Dhole.Timers
import Dhole.CronLease
import Dhole.Activation
import Dhole.PartitionOwners
import Dhole.Catalog
import Dhole.Pinning
import Dhole.CacheEntries
import Dhole.CacheRecords
import Dhole.Canvas
import Dhole.RunView
import Dhole.Backoff
import Dhole.Explain
import Dhole.Streams
import Dhole.TriggerInputs
import Dhole.Capacity
import Dhole.Codecs
import Dhole.Cycles
import Dhole.Frames
import Dhole.Propagation
