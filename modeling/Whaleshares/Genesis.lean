import Whaleshares.ApplyBlock

/-!
# The first state

`init_genesis` of `chain/database.cpp`: the system accounts, the first witnesses, the
global objects and the reward fund. The retallies of votes and children change
nothing in a state without votes and comments.
-/

namespace Whaleshares.Genesis

open Config Fc Assets Protocol Objects Database WitnessSchedule Vesting Rewards Evaluators

variable (env : Env)

/-- `WLS_MINER_ACCOUNT` -/
def minerAccount : AccountName := nameOf "miners"

/-- `WLS_INIT_MINER_NAME`, with the number of the miner from the second one on. -/
def initMinerName (i : ℕ) : AccountName :=
  .ofBytes (bytesOf "initminer" ++ if i = 0 then [] else decimalBytes i)

/-- An authority of one key. -/
def keyAuthority (key : PublicKey) : Authority := ⟨1, [], [(key, 1)]⟩

/-- An authority that nobody can meet, or that needs nothing. -/
def thresholdAuthority (threshold : ℕ) : Authority := ⟨threshold, [], []⟩

/-- The accounts with ids from zero on. -/
def genesisAccounts (initSupply : ℕ) : List AccountObject :=
  [{ id := 0, name := minerAccount },
    { id := 1, name := nullAccount },
    { id := 2, name := nameOf "temp" },
    { id := 3, name := whaleshareAccount, memoKey := env.initPublicKey
      balance := (initSupply : ℤ) - 1000 },
    { id := 4, name := devFundAccount, memoKey := env.initPublicKey }] ++
  (List.range wlsMaxWitnesses).map fun i =>
    { id := 5 + i, name := initMinerName i, memoKey := env.initPublicKey
      balance := if i = 0 then 1000 else 0 }

/-- The authorities of an account with the first key. -/
def keyAuthorities (id : ℕ) (account : AccountName) : AccountAuthorityObject :=
  { id := id, account := account
    owner := keyAuthority env.initPublicKey
    active := keyAuthority env.initPublicKey
    posting := keyAuthority env.initPublicKey }

/-- The authorities of a system account. -/
def systemAuthorities (id : ℕ) (account : AccountName) (threshold : ℕ) : AccountAuthorityObject :=
  { id := id, account := account
    owner := thresholdAuthority threshold
    active := thresholdAuthority threshold
    posting := thresholdAuthority 1 }

/-- The authorities with ids from zero on. -/
def genesisAuthorities : List AccountAuthorityObject :=
  [systemAuthorities 0 minerAccount 1,
    systemAuthorities 1 nullAccount 1,
    systemAuthorities 2 (nameOf "temp") 0,
    keyAuthorities env 3 whaleshareAccount,
    keyAuthorities env 4 devFundAccount] ++
  (List.range wlsMaxWitnesses).map fun i => keyAuthorities env (5 + i) (initMinerName i)

/-- The first witnesses, after `reset_virtual_schedule_time`. -/
def genesisWitnesses : List WitnessObject :=
  (List.range wlsMaxWitnesses).map fun i =>
    { id := i, owner := initMinerName i, signingKey := env.initPublicKey, schedule := .miner
      virtualScheduledTime := virtualScheduleLapLength2 }

/-- The first global properties. -/
def genesisProperties (initSupply : ℕ) : DynamicGlobalPropertyObject :=
  { currentWitness := initMinerName 0
    time := wlsGenesisTime
    recentSlotsFilled := 2 ^ 128 - 1
    participationCount := 128
    currentSupply := initSupply
    maximumBlockSize := wlsMaxBlockSize }

/-- The first schedule: one witness. -/
def genesisSchedule : WitnessScheduleObject :=
  { currentShuffledWitnesses :=
      initMinerName 0 :: List.replicate (wlsMaxWitnesses - 1) .empty }

/-- The fund of the rewards for comments. -/
def genesisRewardFund : RewardFundObject :=
  { id := 0
    name := postRewardFundName
    lastUpdate := wlsGenesisTime
    contentConstant := wlsContentConstant
    percentCurationRewards := wlsContentCurateRewardPercent
    percentContentRewards := wls100Percent
    recentClaims := 140797515942543623
    authorRewardCurve := .linear
    curationRewardCurve := .squareRoot }

/-- `init_genesis` -/
def initGenesis (initSupply : ℕ) : ChainState :=
  { accounts := ⟨genesisAccounts env initSupply, 5 + wlsMaxWitnesses⟩
    accountAuthorities := ⟨genesisAuthorities env, 5 + wlsMaxWitnesses⟩
    comments := .empty
    commentVotes := .empty
    witnesses := ⟨genesisWitnesses env, wlsMaxWitnesses⟩
    witnessVotes := .empty
    withdrawVestingRoutes := .empty
    rewardFunds := ⟨[genesisRewardFund], 1⟩
    transactions := .empty
    dgp := genesisProperties initSupply
    wso := genesisSchedule
    hardforks := { processedHardforks := [wlsGenesisTime] }
    blockSummaries := fun _ => .null }

end Whaleshares.Genesis
