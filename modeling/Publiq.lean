import Publiq.Independence
import Publiq.ForkChoice
import Publiq.Published
import Publiq.LogReconstruction
import Publiq.HeaderLaws
import Publiq.Retarget
import Publiq.Atomicity
import Publiq.AuthorityRun
import Publiq.EventQueue
import Publiq.Broadcast
import Publiq.NodeidService
import Publiq.CoinExactness
import Publiq.BlockMiner
import Publiq.CommanderChannels
import Publiq.CommanderLogs
import Publiq.RejectedTransactions
import Publiq.Predictions
import Publiq.SponsorshipMarks
import Publiq.SponsorshipSteps
import Publiq.BlockPayments
import Publiq.BlockTotals
import Publiq.CancelledSponsorships
import Publiq.Cancellations
import Publiq.ReturnedOnce
import Publiq.DeltaWords
import Publiq.RequestServers
import Publiq.LastCommon
import Publiq.SessionBounds
import Publiq.Foundation.Highest
import Publiq.Votes
import Publiq.SponsorshipHistory
import Publiq.SponsorshipIntervals
import Publiq.SponsorshipTables
import Publiq.MergedCopies
import Publiq.MinePartition
import Publiq.Foundation.UnorderedMap
import Publiq.ServiceCounter
import Publiq.ServiceRun
import Publiq.StorageSessions
import Publiq.StorageOrders
import Publiq.AccountHistory
import Publiq.NodeidAddresses
import Publiq.StorageController
import Publiq.FileFetching
import Publiq.ChannelRun
import Publiq.AccountLogs
import Publiq.RevertCursor
import Publiq.CacheCopies
import Publiq.PeerSelection
import Publiq.HeaderDecision
import Publiq.Foundation.Frontier
import Publiq.FeeAveraging
import Publiq.StorageManager
import Publiq.AccountEffects
import Publiq.ExplorerRun
import Publiq.HistoryItems
import Publiq.WaitingEntries
import Publiq.ConfirmedBalance
import Publiq.SponsorshipPayouts
import Publiq.BlockPayouts
import Publiq.CoinSupply
import Publiq.ForkReplay
import Publiq.StorageReports
import Publiq.Maintenance
import Publiq.Letters
import Publiq.HeaderRun
import Publiq.RuledRun
import Publiq.HonestPeer
import Publiq.NodeAuthorities
import Publiq.BlockDues
import Publiq.FeeComponents
