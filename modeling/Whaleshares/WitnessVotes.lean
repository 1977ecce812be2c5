import Whaleshares.Database

/-!
# Witness votes

The part of `chain/database.cpp` that keeps the votes of witnesses in step with the
vesting shares behind them: the change of one witness with its virtual time, the
change for every vote of an account, and the propagation of a change along a chain
of proxies.
-/

namespace Whaleshares.WitnessVotes

open Config Fc Assets Protocol Objects Program Database

variable (fc : FcLib)

/-- The change that `adjust_witness_vote` makes to a witness, at a virtual time and
with the total of the vesting shares. -/
def changeWitnessVote (currentVirtualTime : ℕ) (totalVestingShares delta : ℤ)
    (w : WitnessObject) : Except Exc WitnessObject := do
  let deltaPos := uint128Mul (uint128 w.votes) (uint128Sub currentVirtualTime w.virtualLastUpdate)
  let position := uint128Add w.virtualPosition deltaPos
  let votes ← fc.add w.votes delta
  fcAssert (votes ≤ totalVestingShares) ""
  let lap ← uint128Div (uint128Sub virtualScheduleLapLength2 position) (uint128 (votes + 1))
  let scheduled := uint128Add currentVirtualTime lap
  pure { w with
    virtualPosition := position
    virtualLastUpdate := currentVirtualTime
    votes := votes
    virtualScheduledTime :=
      if scheduled < currentVirtualTime then virtualScheduleLapLength2 else scheduled }

/-- `adjust_witness_vote` -/
def adjustWitnessVote (witness : ℕ) (delta : ℤ) : Chain Unit := do
  let time ← gets (·.wso.currentVirtualTime)
  let shares ← gets (·.dgp.totalVestingShares)
  modifyWitness (fun w => w.id = witness) (changeWitnessVote fc time shares delta)

/-- The witness votes of an account, in the order of `by_account_witness`. -/
def witnessVotesOf (account : ℕ) : Chain (List WitnessVoteObject) :=
  gets fun s => s.witnessVotes.select (fun v => v.account = account) WitnessVoteObject.byWitness

/-- `adjust_witness_votes` -/
def adjustWitnessVotes (account : ℕ) (delta : ℤ) : Chain Unit := do
  let votes ← witnessVotesOf account
  forEach (fun v => adjustWitnessVote fc v.witness delta) votes

/-- Adds values to a list from a position on, as far as the list goes. -/
def addFrom : ℕ → List ℤ → List ℤ → Except Exc (List ℤ)
  | 0, vote :: votes, delta :: deltas => do
    let vote ← fc.add vote delta
    let votes ← addFrom 0 votes deltas
    pure (vote :: votes)
  | 0, votes, _ => .ok votes
  | position + 1, vote :: votes, deltas => do
    let votes ← addFrom position votes deltas
    pure (vote :: votes)
  | _ + 1, [], _ => .ok []

/-- The change of the proxied votes of a proxy that stands `depth` steps above. -/
def addProxied (depth : ℕ) (deltas : List ℤ) (a : AccountObject) : Except Exc AccountObject := do
  let votes ← addFrom fc depth a.proxiedVsfVotes deltas
  pure { a with proxiedVsfVotes := votes }

/-- `adjust_proxied_witness_votes` of one change, with the levels that are left. -/
def adjustProxiedLevels (delta : ℤ) : ℕ → AccountName → Chain Unit
  | 0, name => do
    let a ← getAccount name
    whenever (a.proxy = .empty) (adjustWitnessVotes fc a.id delta)
  | levels + 1, name => do
    let a ← getAccount name
    if a.proxy = .empty then adjustWitnessVotes fc a.id delta
    else do
      modifyAccount (named a.proxy)
        (addProxied fc (wlsMaxProxyRecursionDepth - (levels + 1)) [delta])
      adjustProxiedLevels delta levels a.proxy

/-- `adjust_proxied_witness_votes` of one change. -/
def adjustProxiedWitnessVotes (name : AccountName) (delta : ℤ) : Chain Unit :=
  adjustProxiedLevels fc delta wlsMaxProxyRecursionDepth name

/-- The end of `adjust_proxied_witness_votes` of an array of changes, at an account
without a proxy: the changes that reach it are added up, the last one first. -/
def adjustByTotal (deltas : List ℤ) (levels account : ℕ) : Chain Unit := do
  let total ← lift ((deltas.take (levels + 1)).reverse.foldlM fc.add 0)
  adjustWitnessVotes fc account total

/-- `adjust_proxied_witness_votes` of an array of changes, with the levels that are left. -/
def adjustProxiedArrayLevels (deltas : List ℤ) : ℕ → AccountName → Chain Unit
  | 0, name => do
    let a ← getAccount name
    whenever (a.proxy = .empty) (adjustByTotal fc deltas 0 a.id)
  | levels + 1, name => do
    let a ← getAccount name
    if a.proxy = .empty then adjustByTotal fc deltas (levels + 1) a.id
    else do
      modifyAccount (named a.proxy)
        (addProxied fc (wlsMaxProxyRecursionDepth - (levels + 1)) deltas)
      adjustProxiedArrayLevels deltas levels a.proxy

/-- `adjust_proxied_witness_votes` of an array of changes. -/
def adjustProxiedWitnessVotesArray (name : AccountName) (deltas : List ℤ) : Chain Unit :=
  adjustProxiedArrayLevels fc deltas wlsMaxProxyRecursionDepth name

/-- `clear_witness_votes` -/
def clearWitnessVotes (name : AccountName) : Chain Unit := do
  let a ← getAccount name
  removeWitnessVotes fun v => v.account = a.id
  modifyAccount (named name) fun a => .ok { a with witnessesVotedFor := 0 }

/-- The last part of `retally_witness_votes`, for one account. -/
def recountVotes (a : AccountObject) : Chain Unit :=
  whenever (a.proxy = .empty) do
    let votes ← witnessVotesOf a.id
    forEach (fun v => do
      let weight ← lift (a.witnessVoteWeight fc)
      adjustWitnessVote fc v.witness weight) votes

/-- `retally_witness_votes` -/
def retallyWitnessVotes : Chain Unit := do
  let witnesses ← gets (·.witnesses.rows)
  forEach (fun itr => modifyWitness (fun w => w.id = itr.id) fun w => .ok
    { w with votes := 0, virtualPosition := 0 }) witnesses
  let accounts ← gets (·.accounts.rows)
  forEach (recountVotes fc) accounts

/-- `retally_witness_vote_counts` -/
def retallyWitnessVoteCounts (force : Bool) : Chain Unit := do
  let accounts ← gets (·.accounts.rows)
  forEach (fun a => do
    let votes ← witnessVotesOf a.id
    let witnessesVotedFor := if force || a.proxy ≠ .empty then votes.length % 2 ^ 16 else 0
    whenever (a.witnessesVotedFor ≠ witnessesVotedFor)
      (modifyAccount (fun account => account.id = a.id) fun account => .ok
        { account with witnessesVotedFor := witnessesVotedFor })) accounts

end Whaleshares.WitnessVotes
