import Mathlib

/-!
# Protocol constants

The constants of `protocol/config.hpp` that the modelled code reads, with the
values of the live network. Durations are in seconds.
-/

namespace Whaleshares.Config

/-- `WLS_GENESIS_TIME` -/
def wlsGenesisTime : ℕ := 1534070000

/-- `WLS_CASHOUT_WINDOW_SECONDS` -/
def wlsCashoutWindowSeconds : ℕ := 60 * 60 * 24 * 7

/-- `WLS_UPVOTE_LOCKOUT` -/
def wlsUpvoteLockout : ℕ := 60 * 60 * 12

/-- `WLS_MIN_ACCOUNT_CREATION_FEE` -/
def wlsMinAccountCreationFee : ℤ := 10

/-- `WLS_OWNER_UPDATE_LIMIT` -/
def wlsOwnerUpdateLimit : ℕ := 60 * 60

/-- `WLS_BLOCK_INTERVAL` -/
def wlsBlockInterval : ℕ := 3

/-- `WLS_BLOCKS_PER_YEAR` -/
def wlsBlocksPerYear : ℕ := 365 * 24 * 60 * 60 / wlsBlockInterval

/-- `WLS_BLOCKS_PER_DAY` -/
def wlsBlocksPerDay : ℕ := 24 * 60 * 60 / wlsBlockInterval

/-- `WLS_START_MINER_VOTING_BLOCK` -/
def wlsStartMinerVotingBlock : ℕ := 30

/-- `WLS_MAX_WITNESSES` -/
def wlsMaxWitnesses : ℕ := 21

/-- `WLS_MAX_VOTED_WITNESSES` -/
def wlsMaxVotedWitnesses : ℕ := 20

/-- `WLS_MAX_RUNNER_WITNESSES` -/
def wlsMaxRunnerWitnesses : ℕ := 1

/-- `WLS_HARDFORK_REQUIRED_WITNESSES` -/
def wlsHardforkRequiredWitnesses : ℕ := 17

/-- `WLS_MAX_TIME_UNTIL_EXPIRATION` -/
def wlsMaxTimeUntilExpiration : ℕ := 60 * 60

/-- `WLS_MAX_MEMO_SIZE` -/
def wlsMaxMemoSize : ℕ := 2048

/-- `WLS_MAX_PROXY_RECURSION_DEPTH` -/
def wlsMaxProxyRecursionDepth : ℕ := 4

/-- `WLS_VESTING_WITHDRAW_INTERVALS` -/
def wlsVestingWithdrawIntervals : ℕ := 13

/-- `WLS_VESTING_WITHDRAW_INTERVAL_SECONDS` -/
def wlsVestingWithdrawIntervalSeconds : ℕ := 60 * 60 * 24 * 7

/-- `WLS_MAX_WITHDRAW_ROUTES` -/
def wlsMaxWithdrawRoutes : ℕ := 10

/-- `WLS_VOTE_REGENERATION_SECONDS` -/
def wlsVoteRegenerationSeconds : ℕ := 5 * 60 * 60 * 24

/-- `WLS_MAX_VOTE_CHANGES` -/
def wlsMaxVoteChanges : ℤ := 5

/-- `WLS_REVERSE_AUCTION_WINDOW_SECONDS` -/
def wlsReverseAuctionWindowSeconds : ℕ := 60 * 30

/-- `WLS_MIN_VOTE_INTERVAL_SEC` -/
def wlsMinVoteIntervalSec : ℕ := 3

/-- `WLS_VOTE_DUST_THRESHOLD` -/
def wlsVoteDustThreshold : ℤ := 50

/-- `WLS_MIN_ROOT_COMMENT_INTERVAL` -/
def wlsMinRootCommentInterval : ℕ := 60 * 5

/-- `WLS_MIN_REPLY_INTERVAL` -/
def wlsMinReplyInterval : ℕ := 20

/-- `WLS_MAX_ACCOUNT_WITNESS_VOTES` -/
def wlsMaxAccountWitnessVotes : ℕ := 30

/-- `WLS_100_PERCENT` -/
def wls100Percent : ℕ := 10000

/-- `WLS_INFLATION_RATE_START_PERCENT` -/
def wlsInflationRateStartPercent : ℕ := 10000

/-- `WLS_INFLATION_RATE_STOP_PERCENT` -/
def wlsInflationRateStopPercent : ℕ := 488

/-- `WLS_CONTENT_REWARD_PERCENT` -/
def wlsContentRewardPercent : ℕ := 85 * (wls100Percent / 100)

/-- `WLS_CONTENT_CURATE_REWARD_PERCENT` -/
def wlsContentCurateRewardPercent : ℕ := 25 * (wls100Percent / 100)

/-- `WLS_DEV_FUND_PERCENT` -/
def wlsDevFundPercent : ℕ := 5 * (wls100Percent / 100)

/-- `WLS_MAX_COMMENT_DEPTH` -/
def wlsMaxCommentDepth : ℕ := 0xffff

/-- `WLS_RECENT_RSHARES_DECAY_RATE` -/
def wlsRecentRsharesDecayRate : ℕ := 15 * 24 * 60 * 60

/-- `WLS_CONTENT_CONSTANT` -/
def wlsContentConstant : ℕ := 2000000000000

/-- `WLS_MIN_PAYOUT_STEEM` -/
def wlsMinPayoutSteem : ℕ := 20

/-- `WLS_MIN_ACCOUNT_NAME_LENGTH` -/
def wlsMinAccountNameLength : ℕ := 3

/-- `WLS_MAX_ACCOUNT_NAME_LENGTH` -/
def wlsMaxAccountNameLength : ℕ := 16

/-- `WLS_MIN_PERMLINK_LENGTH` -/
def wlsMinPermlinkLength : ℕ := 0

/-- `WLS_MAX_PERMLINK_LENGTH` -/
def wlsMaxPermlinkLength : ℕ := 256

/-- `WLS_MAX_WITNESS_URL_LENGTH` -/
def wlsMaxWitnessUrlLength : ℕ := 2048

/-- `WLS_MAX_SIG_CHECK_DEPTH` -/
def wlsMaxSigCheckDepth : ℕ := 2

/-- `WLS_MIN_BLOCK_SIZE_LIMIT` -/
def wlsMinBlockSizeLimit : ℕ := 1024 * 64

/-- `WLS_MAX_BLOCK_SIZE` -/
def wlsMaxBlockSize : ℕ := 1024 * 64 * wlsBlockInterval * 2000

/-- `WLS_SOFT_MAX_BLOCK_SIZE` -/
def wlsSoftMaxBlockSize : ℕ := 2 * 1024 * 1024

/-- `WLS_IRREVERSIBLE_THRESHOLD` -/
def wlsIrreversibleThreshold : ℕ := 75 * (wls100Percent / 100)

/-- `WLS_NUM_HARDFORKS`, from the generated hardfork table. -/
def wlsNumHardforks : ℕ := 0

/-- `VIRTUAL_SCHEDULE_LAP_LENGTH` -/
def virtualScheduleLapLength : ℕ := 2 ^ 64 - 1

/-- `VIRTUAL_SCHEDULE_LAP_LENGTH2`, the greatest 128-bit value. -/
def virtualScheduleLapLength2 : ℕ := 2 ^ 128 - 1

end Whaleshares.Config
