import Whaleshares.CommentEvaluators
import Whaleshares.SignState
import Whaleshares.WitnessSchedule

/-!
# Application of a block

`_apply_block` of `chain/database.cpp` and the routines that it calls, as far as they
change the object database. Between the update of the last irreversible block and
the block summary the source also commits the undo history and appends to the block
log; this part belongs to the node, and `applyBlockFront` and `applyBlockBack` are the
routine before and after it.

There are no hardforks beyond the first one and no exceptions to the merkle check,
as in the tables of the source. Checkpoints are not modelled: a node without them
uses the skip flags that it is given.
-/

namespace Whaleshares.ApplyBlock

open Config Fc Assets Protocol Objects Program Database SignState WitnessSchedule Vesting
  Rewards CommentEvaluators

section Transactions

variable (ctx : Context)

/-- `transaction::validate` -/
def validateTransaction (fc : FcLib) (trx : SignedTransaction) : Except Exc Unit := do
  fcAssert (0 < trx.operations.length) "A transaction must have at least one operation"
  trx.operations.forM (Operation.validate fc)

/-- The authority of an account that a getter returns. -/
def authorityOf (s : ChainState) (f : AccountAuthorityObject → Authority) (name : AccountName) :
    Except Exc Authority := do
  let auth ← orUnknown (s.accountAuthorities.find fun auth => auth.account = name)
  pure (f auth)

/-- The authority check of `_apply_transaction`. -/
def checkAuthorities (trx : SignedTransaction) (s : ChainState) : Except Exc Unit :=
  verifyTransactionAuthority (authorityOf s (·.active)) (authorityOf s (·.owner))
    (authorityOf s (·.posting)) ctx.env trx

/-- The check of the reference block and the expiration, from the second block on. -/
def checkExpiration (trx : SignedTransaction) (s : ChainState) : Except Exc Unit :=
  if 0 < s.dgp.headBlockNumber then do
    wlsAssert (ctx.skip.taposCheck || trx.refBlockPrefix = (s.blockSummaries trx.refBlockNum).secondWord)
      .transactionTapos ""
    wlsAssert (trx.expiration ≤ s.dgp.time + wlsMaxTimeUntilExpiration) .transactionExpiration ""
    wlsAssert (s.dgp.time < trx.expiration) .transactionExpiration ""
    wlsAssert (s.dgp.time ≤ trx.expiration) .transactionExpiration ""
  else .ok ()

/-- `_apply_transaction` -/
def applyTransaction (trx : SignedTransaction) : Chain Unit := do
  let trxId := ctx.env.transactionId trx
  lift (if ctx.skip.validate then .ok () else validateTransaction ctx.env.toFcLib trx)
  let s ← gets fun s => s
  lift (fcAssert (ctx.skip.transactionDupeCheck ||
    (s.transactions.find fun t => t.trxId = trxId).isNone) "Duplicate transaction check failed")
  lift (if ctx.skip.transactionSignatures || ctx.skip.authorityCheck then .ok ()
    else checkAuthorities ctx trx s)
  lift (checkExpiration ctx trx s)
  whenever (ctx.skip.transactionDupeCheck = false)
    (createTransaction fun id => .ok ⟨id, trxId, trx.expiration⟩)
  forEach (applyOperation ctx) trx.operations

end Transactions

section Header

variable (ctx : Context)

/-- `validate_block_header`; returns the witness that signed. -/
def validateBlockHeader (b : SignedBlock) : Chain WitnessObject := do
  let dgp ← gets (·.dgp)
  lift (fcAssert (dgp.headBlockId = b.header.previous) "head_block_id() == next_block.previous")
  lift (fcAssert (dgp.time < b.header.timestamp) "head_block_time() < next_block.timestamp")
  let witness ← getWitness b.witness
  lift (fcAssert (ctx.skip.witnessSignature || ctx.env.signee b.header = some witness.signingKey)
    "next_block.validate_signee( witness.signing_key )")
  let slotNum := slotAtTime dgp b.header.timestamp
  let scheduled ← getScheduledWitness slotNum
  lift (fcAssert (ctx.skip.witnessScheduleCheck || 0 < slotNum) "slot_num > 0")
  lift (fcAssert (ctx.skip.witnessScheduleCheck || witness.owner = scheduled)
    "Witness produced block at wrong time")
  pure witness

/-- The effect of one header extension on the witness of the block. -/
def reportedBy (extension : HeaderExtension) (wo : WitnessObject) : WitnessObject :=
  match extension with
  | .voidT => wo
  | .version v => { wo with runningVersion := v }
  | .hardforkVersionVote hfVersion hfTime =>
    { wo with hardforkVersionVote := hfVersion, hardforkTimeVote := hfTime }

/-- `process_header_extensions` -/
def processHeaderExtensions (b : SignedBlock) : Chain Unit :=
  forEach (fun extension =>
    modifyWitness (ownedBy b.witness) fun wo => .ok (reportedBy extension wo))
    (b.header.extensions.filter (· ≠ .voidT))

end Header

section GlobalData

variable (ctx : Context)

/-- The change of a witness that missed its slot. -/
def missBlock (headBlockNum : ℕ) (w : WitnessObject) : WitnessObject :=
  { w with
    totalMissed := (w.totalMissed + 1) % 2 ^ 32
    signingKey :=
      if wlsBlocksPerDay < (headBlockNum + (2 ^ 64 - w.lastConfirmedBlockNum)) % 2 ^ 64 then .null
      else w.signingKey }

/-- The loop over the missed slots, from slot `slot` on. -/
def missSlots (b : SignedBlock) : ℕ → ℕ → Chain Unit
  | 0, _ => pure ()
  | left + 1, slot => do
    let name ← getScheduledWitness slot
    let missed ← getWitness name
    let headNum ← headBlockNum
    whenever (missed.owner ≠ b.witness)
      (modifyWitness (ownedBy name) fun w => .ok (missBlock headNum w))
    missSlots b left (slot + 1)

/-- One round of the participation counter, for a filled or a missed slot. -/
def shiftSlot (filled : Bool) (dgp : DynamicGlobalPropertyObject) : DynamicGlobalPropertyObject :=
  let leaving := dgp.recentSlotsFilled / 2 ^ 127 % 2
  let entering := if filled then 1 else 0
  { dgp with
    recentSlotsFilled := (dgp.recentSlotsFilled * 2 + entering) % 2 ^ 128
    participationCount := (dgp.participationCount + (2 ^ 8 - leaving) + entering) % 2 ^ 8 }

/-- The missed slots of the participation counter. -/
def shiftMissed : ℕ → DynamicGlobalPropertyObject → DynamicGlobalPropertyObject
  | 0, dgp => dgp
  | missed + 1, dgp => shiftMissed missed (shiftSlot false dgp)

/-- The participation counter after a block that follows `missed` missed slots; the
loop of the source counts to `missed + 1` in 32 bits. -/
def shiftSlots (missed : ℕ) (dgp : DynamicGlobalPropertyObject) : DynamicGlobalPropertyObject :=
  if (missed + 1) % 2 ^ 32 = 0 then dgp else shiftMissed missed (shiftSlot true dgp)

/-- The number of missed slots before a block, in 32 bits. -/
def missedBlocks (dgp : DynamicGlobalPropertyObject) (b : SignedBlock) : ℕ :=
  if dgp.time = 0 then 0
  else (slotAtTime dgp b.header.timestamp + (2 ^ 32 - 1)) % 2 ^ 32

/-- The global properties with a new head. -/
def advanceHead (b : SignedBlock) (missed : ℕ) (dgp : DynamicGlobalPropertyObject) :
    DynamicGlobalPropertyObject :=
  { shiftSlots missed dgp with
    headBlockNumber := b.blockNum
    headBlockId := b.id ctx.env
    time := b.header.timestamp
    currentAslot := (dgp.currentAslot + (missed + 1) % 2 ^ 32) % 2 ^ 64 }

/-- `update_global_dynamic_data` -/
def updateGlobalDynamicData (b : SignedBlock) : Chain Unit := do
  let dgp ← gets (·.dgp)
  let missed := missedBlocks dgp b
  missSlots b missed 1
  modifyDgp fun dgp => .ok (advanceHead ctx b missed dgp)
  let dgp ← gets (·.dgp)
  lift (wlsAssert (ctx.skip.undoHistoryCheck ||
      (dgp.headBlockNumber + (2 ^ 32 - dgp.lastIrreversibleBlockNum)) % 2 ^ 32 < ctx.maxUndo)
    .undoDatabase
    "The database does not have enough undo history to support a blockchain with so many missed blocks. Please add a checkpoint if you would like to continue applying blocks beyond this point.")

/-- `update_signing_witness` -/
def updateSigningWitness (signingWitness : AccountName) (b : SignedBlock) : Chain Unit := do
  let dgp ← gets (·.dgp)
  let aslot := (dgp.currentAslot + slotAtTime dgp b.header.timestamp) % 2 ^ 64
  modifyWitness (ownedBy signingWitness) fun w => .ok
    { w with lastAslot := aslot, lastConfirmedBlockNum := b.blockNum }

/-- The block number that enough of the scheduled witnesses have confirmed. -/
def confirmedBlockNum (witnesses : List WitnessObject) : Except Exc ℕ :=
  let offset := (wls100Percent - wlsIrreversibleThreshold) * witnesses.length / wls100Percent
  match ((witnesses.map (·.lastConfirmedBlockNum)).insertionSort (· ≤ ·))[offset]? with
  | some num => .ok (num % 2 ^ 32)
  | none => .error ⟨.undefinedBehaviour, "wit_objs[offset]"⟩

/-- The part of `update_last_irreversible_block` that changes the object database. -/
def updateLastIrreversibleBlock : Chain Unit := do
  let headNum ← headBlockNum
  if headNum < wlsStartMinerVotingBlock then
    modifyDgp fun dpo => .ok
      { dpo with lastIrreversibleBlockNum :=
          if wlsMaxWitnesses < headNum then headNum - wlsMaxWitnesses
          else dpo.lastIrreversibleBlockNum }
  else do
    let witnesses ← scheduledWitnesses
    let num ← lift (confirmedBlockNum witnesses)
    modifyDgp fun dpo => .ok
      { dpo with lastIrreversibleBlockNum := max num dpo.lastIrreversibleBlockNum }

end GlobalData

section Block

variable (ctx : Context)

/-- The summaries with the one of a block replaced. -/
def summarize (b : SignedBlock) (summaries : ℕ → BlockId) (id : ℕ) : BlockId :=
  if id = b.blockNum % 2 ^ 16 then b.id ctx.env else summaries id

/-- `create_block_summary` -/
def createBlockSummary (b : SignedBlock) : Chain Unit :=
  update fun s => .ok { s with blockSummaries := summarize ctx b s.blockSummaries }

/-- `clear_expired_transactions` -/
def clearExpiredTransactions : Chain Unit :=
  update fun s => .ok
    { s with transactions := s.transactions.remove fun t => t.expiration < s.dgp.time }

/-- `process_hardforks`: there is no hardfork that could be applied. -/
def processHardforks : Chain Unit := do
  let hardforks ← gets (·.hardforks)
  let now ← headBlockTime
  lift (if 0 < hardforks.nextHardfork.vNum && hardforks.nextHardforkTime ≤ now then
    .error ⟨.unknownHardfork, ""⟩ else .ok ())

/-- `_apply_block` up to the update of the last irreversible block. -/
def applyBlockFront (b : SignedBlock) : Chain Unit := do
  lift (fcAssert (ctx.skip.merkleCheck ||
    b.header.transactionMerkleRoot = b.calculateMerkleRoot ctx.env) "Merkle check failed")
  let signingWitness ← validateBlockHeader ctx b
  let gprops ← gets (·.dgp)
  lift (fcAssert (ctx.env.packSize b ≤ gprops.maximumBlockSize) "Block Size is too Big")
  modifyDgp fun dgp => .ok { dgp with currentWitness := b.witness }
  processHeaderExtensions b
  let witness ← getWitness b.witness
  let hardforkState ← gets (·.hardforks)
  lift (fcAssert (hardforkState.currentHardforkVersion.vNum ≤ witness.runningVersion.vNum)
    "Block produced by witness that is not running current hardfork")
  forEach (applyTransaction ctx) b.transactions
  updateGlobalDynamicData ctx b
  updateSigningWitness signingWitness.owner b
  updateLastIrreversibleBlock

/-- `_apply_block` after the update of the last irreversible block. -/
def applyBlockBack (b : SignedBlock) : Chain Unit := do
  createBlockSummary ctx b
  clearExpiredTransactions
  updateWitnessSchedule
  clearNullAccountBalance ctx.env.toFcLib
  processFunds ctx.env.toFcLib
  processCommentCashout ctx.env.toFcLib
  processVestingWithdrawals ctx.env.toFcLib
  processHardforks

/-- `_apply_block` on the object database. -/
def applyBlock (b : SignedBlock) : Chain Unit := do
  applyBlockFront ctx b
  applyBlockBack ctx b

end Block

end Whaleshares.ApplyBlock
