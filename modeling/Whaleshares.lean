import Whaleshares.AccountHistory
import Whaleshares.AccountNames
import Whaleshares.AssetParsing
import Whaleshares.AssetProduct
import Whaleshares.AssetText
import Whaleshares.AuthorityCheck
import Whaleshares.BlockFetch
import Whaleshares.BlockFit
import Whaleshares.BlockLogRecovery
import Whaleshares.ChainStatistics
import Whaleshares.CommentParents
import Whaleshares.CommentPolls
import Whaleshares.CommentTree
import Whaleshares.CommonAncestor
import Whaleshares.Conservation
import Whaleshares.CustomBinary
import Whaleshares.CustomOperations
import Whaleshares.FeedBounds
import Whaleshares.Feeds
import Whaleshares.FixedStrings
import Whaleshares.FollowCounts
import Whaleshares.Follows
import Whaleshares.ForkHead
import Whaleshares.IndexRefinement
import Whaleshares.InflationSchedule
import Whaleshares.KeyIndexRun
import Whaleshares.MerkleRoot
import Whaleshares.MessageFraming
import Whaleshares.MinimalSignatures
import Whaleshares.NumberedEntries
import Whaleshares.Participation
import Whaleshares.PathIndependence
import Whaleshares.Records
import Whaleshares.Reindex
import Whaleshares.ReplayProtection
import Whaleshares.Reputation
import Whaleshares.ReputationRun
import Whaleshares.ReserveRatio
import Whaleshares.RoundPay
import Whaleshares.HardforkVotes
import Whaleshares.RoutePayout
import Whaleshares.ScheduleContent
import Whaleshares.ScheduleParameters
import Whaleshares.ScheduleSafety
import Whaleshares.SlotClock
import Whaleshares.SyncHandshake
import Whaleshares.TagRuns
import Whaleshares.TrackedRanges
import Whaleshares.TrialReplay
import Whaleshares.VirtualClock
import Whaleshares.VirtualTime
import Whaleshares.VoteEntries
import Whaleshares.VotingPower
import Whaleshares.WitnessTallies
import Whaleshares.Restart
import Whaleshares.IdExchange
import Whaleshares.InactivePeers
import Whaleshares.Inventories
import Whaleshares.SyncRequests
