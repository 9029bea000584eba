import Spire.Lib.Quorum
import Spire.Lib.Network
import Spire.Lib.Chain
import Spire.Lib.Reader
import Spire.Lib.Runs
import Spire.Lib.Ends
import Spire.Lib.KeyedList
import Spire.Def
import Spire.Packets
import Spire.PreOrder
import Spire.Order
import Spire.OrderSafety
import Spire.Bitmap
import Spire.Replay
import Spire.ViewChange
import Spire.ViewChangeEdits
import Spire.ReplaySafety
import Spire.ReplayList
import Spire.CollectedState
import Spire.Wire
import Spire.Merkle
import Spire.Validate
import Spire.Accepted
import Spire.OrderingCertificates
import Spire.RecoveryCertificates
import Spire.SuspectLeader
import Spire.Eligibility
import Spire.ReliableBroadcast
import Spire.BroadcastSlots
import Spire.BroadcastSafety
import Spire.SystemReset
import Spire.SystemResetEdits
import Spire.SystemResetNewView
import Spire.SystemResetRecords
import Spire.SystemResetCertificates
import Spire.SystemResetSafety
import Spire.Recovery
import Spire.RecoverySafety
import Spire.Execution
import Spire.ExactlyOnce
import Spire.TcQueue
import Spire.TcDelivery
import Spire.ScadaMaster
import Spire.StateTransfer
import Spire.OrdQueue
import Spire.PoSlots
import Spire.Incarnations
import Spire.StartupCount
import Spire.AckIncarnations
import Spire.HeldRequests
import Spire.ClientUpdates
import Spire.Lib.Advance
import Spire.Ordinals
import Spire.OrdinalEdits
import Spire.Jumps
import Spire.ReplayReturn
import Spire.Lib.LinkedQueue
import Spire.TcList
import Spire.ItrcMaster
import Spire.TransferReplay
import Spire.Numbering
import Spire.TransferSoundness
import Spire.ClientProgress
import Spire.ClientContents
import Spire.Flood
import Spire.FloodNode
import Spire.EndToEnd
import Spire.FlowWindow
import Spire.FlowSafety
import Spire.PowerFlow
import Spire.ProofMatrix
import Spire.PoRequests
import Spire.Lib.HashTree
import Spire.MerkleBatch
import Spire.MerkleVerify
import Spire.PoBatching
import Spire.ItLink
import Spire.ItLinkSafety
import Spire.AruRows
import Spire.NewLeaderVotes
import Spire.WindowAdvance
import Spire.E2ECounters
import Spire.AckBatches
import Spire.OwnRequests
import Spire.WhiteLines
import Spire.PartialCertificates
import Spire.InFlight
import Spire.FairQueueSafety
import Spire.Penalties
import Spire.CatchupRequests
import Spire.Reconciliation
import Spire.ReassemblySafety
import Spire.LinkSender
import Spire.LinkStatusSafety
import Spire.MadeEligibleSafety
import Spire.RoutedDelivery
import Spire.ThresholdDelivery
import Spire.MaskCache
import Spire.DisseminationDelivery
