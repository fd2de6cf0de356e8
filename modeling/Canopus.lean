import Canopus.Lib.Pool
import Canopus.Theorems.HandlerSteps
import Canopus.Theorems.Fold
import Canopus.Theorems.Adoption
import Canopus.Theorems.ForwardAmount
import Canopus.Theorems.Interleaving
import Canopus.Theorems.Conservation
import Canopus.Theorems.CrossSigned
import Canopus.Theorems.Limits
import Canopus.Theorems.Counters
import Canopus.Theorems.Redemption
import Canopus.Theorems.Superseded
import Canopus.Theorems.PendingUpdates
import Canopus.Theorems.Deadlines
import Canopus.Theorems.Dispatch
import Canopus.Theorems.OfferIds
import Canopus.Theorems.Restoration
import Canopus.Theorems.Acknowledged
import Canopus.Theorems.HonestCommit
import Canopus.Theorems.RemoteResolutions
import Canopus.Theorems.Foldable
import Canopus.Theorems.Accounting
import Canopus.Theorems.Replay
import Canopus.Theorems.IncomingIds
import Canopus.Theorems.Ownership
import Canopus.Theorems.RoundTrip
import Canopus.Theorems.SigMaterial
import Canopus.Theorems.OnionRoundTrip
import Canopus.Theorems.FailureOnion
import Canopus.Theorems.SecretGrants
import Canopus.Theorems.ForwardFee
import Canopus.Theorems.WireEncodings
import Canopus.Theorems.RoutingMaximum
import Canopus.Theorems.PreimageStore
import Canopus.Theorems.LedgerEvents
import Canopus.Theorems.Batches
import Canopus.Theorems.Overflow
import Canopus.Theorems.OfferLimits
import Canopus.Theorems.OpeningTerms
import Canopus.Theorems.Reencoding
import Canopus.Theorems.CompareAndSwap
import Canopus.Theorems.LedgerNumbers
import Canopus.Theorems.LedgerBalance
import Canopus.Theorems.LedgerMarkers
import Canopus.Theorems.ChannelParameters
import Canopus.Theorems.TlvStreams
import Canopus.Theorems.Repair
import Canopus.Theorems.ShortChannelIds
import Canopus.Theorems.Scanning
import Canopus.Theorems.PaymentStatuses
import Canopus.Theorems.Subtrees
import Canopus.Theorems.Crashes
import Canopus.Theorems.Isolation
import Canopus.Theorems.Orphans
import Canopus.Theorems.ConcurrentStates
import Canopus.Theorems.BlockScans
import Canopus.Theorems.MemoryRecords
import Canopus.Theorems.ClnRecords
import Canopus.Theorems.Uninstall
