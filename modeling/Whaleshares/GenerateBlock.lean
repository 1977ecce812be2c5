import Whaleshares.PendingState

/-!
# The generation of blocks

`_generate_block` of `chain/database.cpp`. The producer applies the pending transactions anew,
each one in a session of its own on top of those before it, and puts those that apply into the
block as long as an estimate of the size stays below the maximum. The session of all of them is
discarded, and the block is pushed like any other.

The packed size of a transaction is a parameter; headers and blocks are packed as `fc::raw`
does it: a string or a vector is its length as a `varint` followed by its elements.
-/

namespace Whaleshares.GenerateBlock

open Config Fc Protocol Objects Program Database ApplyBlock Genesis ChainRun ChainTip Footprint
  Process NodeRoutines PendingSession Node

section Sizes

/-- The bytes of an `unsigned_int` of 32 bits, seven bits each. -/
def varintSize (n : ℕ) : ℕ :=
  if n < 2 ^ 7 then 1
  else if n < 2 ^ 14 then 2
  else if n < 2 ^ 21 then 3
  else if n < 2 ^ 28 then 4
  else 5

/-- The packed size of a string. -/
def stringSize (s : Bytes) : ℕ := varintSize s.length + s.length

/-- The packed size of a `block_header_extensions`: the tag and the value. -/
def extensionSize : HeaderExtension → ℕ
  | .voidT => 1
  | .version _ => 1 + 4
  | .hardforkVersionVote _ _ => 1 + 4 + 4

/-- The packed size of a vector. -/
def vectorSize {α : Type} (size : α → ℕ) (l : List α) : ℕ := varintSize l.length + (l.map size).sum

/-- `fc::raw::pack_size` of a `signed_block_header`. -/
def headerSize (header : SignedBlockHeader) : ℕ :=
  20 + 4 + stringSize header.witness + 20 + vectorSize extensionSize header.extensions + 65

/-- `fc::raw::pack_size` of a `signed_block`. -/
def blockSize (trxSize : SignedTransaction → ℕ) (b : SignedBlock) : ℕ :=
  headerSize b.header + vectorSize trxSize b.transactions

/-- The library packs blocks so. -/
def Packs (env : Env) (trxSize : SignedTransaction → ℕ) : Prop :=
  ∀ b, env.packSize b = blockSize trxSize b

/-- `signed_block_header()` -/
def emptyHeader : SignedBlockHeader := ⟨.null, 0, [], 0, [], ⟨0⟩⟩

/-- `max_block_header_size` -/
def maxBlockHeaderSize : ℕ := headerSize emptyHeader + 4

/-- The greatest header has 115 bytes. -/
theorem maxBlockHeaderSize_eq : maxBlockHeaderSize = 115 := by decide

end Sizes

section Header

/-- `block_signing_private_key` -/
structure SigningKey where
  /-- `get_public_key()` -/
  publicKey : PublicKey
  /-- The signature of a header. -/
  sign : SignedBlockHeader → Signature

/-- `_hardfork_versions` and `_hardfork_times`: there is no hardfork after the first one. -/
def hardforkAt (hardfork : ℕ) : Except Exc (Version × TimePointSec) :=
  if hardfork = 0 then .ok (⟨0⟩, wlsGenesisTime)
  else .error ⟨.undefinedBehaviour, "_hardfork_versions[ hfp.last_hardfork + 1 ]"⟩

/-- `WLS_BLOCKCHAIN_VERSION` -/
def wlsBlockchainVersion : Version := ⟨0⟩

/-- `WLS_BLOCKCHAIN_HARDFORK_VERSION` -/
def wlsBlockchainHardforkVersion : Version := wlsBlockchainVersion.hardfork

/-- The report of a version that is not the known one. -/
def versionExtension (witness : WitnessObject) : List HeaderExtension :=
  if witness.runningVersion ≠ wlsBlockchainVersion then [.version wlsBlockchainVersion] else []

/-- The vote for the hardfork that this binary knows, where the known one differs. -/
def voteExtension (witness : WitnessObject) (hfp : HardforkPropertyObject) :
    Except Exc (List HeaderExtension) :=
  if hfp.currentHardforkVersion.vNum < wlsBlockchainHardforkVersion.vNum then do
    let next ← hardforkAt (hfp.lastHardfork + 1)
    if witness.hardforkVersionVote ≠ next.1 ∨ witness.hardforkTimeVote ≠ next.2 then
      pure [.hardforkVersionVote next.1 next.2]
    else pure []
  else if hfp.currentHardforkVersion = wlsBlockchainHardforkVersion ∧
      wlsBlockchainHardforkVersion.vNum < witness.hardforkVersionVote.vNum then do
    let last ← hardforkAt hfp.lastHardfork
    pure [.hardforkVersionVote last.1 last.2]
  else pure []

end Header

section Generation

variable (ctx : Context) (trxSize : SignedTransaction → ℕ)

/-- The checks of `_generate_block` before it starts. -/
def checkProducer (when : TimePointSec) (witnessOwner : AccountName) (key : SigningKey) :
    Chain Unit := do
  let dgp ← gets (·.dgp)
  let slotNum := slotAtTime dgp when
  lift (fcAssert (0 < slotNum) "slot_num > 0")
  let scheduledWitness ← getScheduledWitness slotNum
  lift (fcAssert (scheduledWitness = witnessOwner) "scheduled_witness == witness_owner")
  let witnessObj ← getWitness witnessOwner
  lift (fcAssert (ctx.skip.witnessSignature || witnessObj.signingKey = key.publicKey)
    "witness_obj.signing_key == block_signing_private_key.get_public_key()")

/-- The transactions of the block so far, and `total_block_size`. -/
structure Draft where
  totalBlockSize : ℕ := maxBlockHeaderSize
  transactions : List SignedTransaction := []

/-- The draft with one more transaction. -/
def Draft.add (draft : Draft) (tx : SignedTransaction) : Draft :=
  ⟨draft.totalBlockSize + trxSize tx, draft.transactions ++ [tx]⟩

/-- A round of the loop over the pending transactions. -/
def tryTransaction (when : TimePointSec) (maximumBlockSize : ℕ) (tx : SignedTransaction)
    (draft : Draft) : NodeM Draft :=
  if tx.expiration < when then pure draft
  else if maximumBlockSize ≤ draft.totalBlockSize + trxSize tx then pure draft
  else do
    let outcome ← (inSession (onState (applyTransaction ctx tx))).attempt
    match outcome with
    | .ok _ => do
      .change fun n => { n with db := n.db.squash }
      pure (draft.add trxSize tx)
    | .error _ => pure draft

/-- The loop over the pending transactions. -/
def fillDraft (when : TimePointSec) (maximumBlockSize : ℕ) :
    List SignedTransaction → Draft → NodeM Draft
  | [], draft => pure draft
  | tx :: rest, draft => do
    let draft ← tryTransaction ctx trxSize when maximumBlockSize tx draft
    fillDraft when maximumBlockSize rest draft

/-- The part of `_generate_block` under the write lock. -/
def rebuildPending (when : TimePointSec) (maximumBlockSize : ℕ) : NodeM Draft := do
  resetPendingSession
  .change fun n => { n with db := n.db.start, pendingSession := true }
  let pending ← .read (·.pendingTx)
  let draft ← fillDraft ctx trxSize when maximumBlockSize pending {}
  resetPendingSession
  pure draft

/-- The block with the given transactions on top of the head. -/
def unsignedBlock (previous : BlockId) (when : TimePointSec) (witnessOwner : AccountName)
    (extensions : List HeaderExtension) (transactions : List SignedTransaction) : SignedBlock :=
  let draft : SignedBlock := ⟨⟨previous, when, witnessOwner.toBytes, 0, extensions, ⟨0⟩⟩, transactions⟩
  ⟨{ draft.header with transactionMerkleRoot := draft.calculateMerkleRoot ctx.env }, transactions⟩

/-- `sign` -/
def signBlock (key : SigningKey) (b : SignedBlock) : SignedBlock :=
  ⟨{ b.header with witnessSignature := key.sign b.header }, b.transactions⟩

/-- `_generate_block` up to the signature of the block. -/
def assembleBlock (when : TimePointSec) (witnessOwner : AccountName) (key : SigningKey) :
    NodeM SignedBlock := do
  onState (checkProducer ctx when witnessOwner key)
  let maximumBlockSize ← .read (·.state.dgp.maximumBlockSize)
  let draft ← rebuildPending ctx trxSize when maximumBlockSize
  let previous ← .read headBlockId
  let witness ← onState (getWitness witnessOwner)
  let hfp ← .read (·.state.hardforks)
  let vote ← .ofExcept (voteExtension witness hfp)
  let b := unsignedBlock ctx previous when witnessOwner (versionExtension witness ++ vote)
    draft.transactions
  pure (if ctx.skip.witnessSignature then b else signBlock key b)

/-- `_generate_block` -/
def generateBlock (when : TimePointSec) (witnessOwner : AccountName) (key : SigningKey) :
    NodeM SignedBlock := do
  let b ← assembleBlock ctx trxSize when witnessOwner key
  .ofExcept (fcAssert (ctx.skip.blockSizeCheck || ctx.env.packSize b ≤ wlsMaxBlockSize)
    "fc::raw::pack_size(pending_block) <= WLS_MAX_BLOCK_SIZE")
  let _ ← pushBlock ctx b
  pure b

end Generation

section Trial

variable {ctx : Context} {trxSize : SignedTransaction → ℕ} {when : TimePointSec} {limit : ℕ}
  {n m : Node} {draft : Draft} {s : ChainState}

/-- The trial of the pending transactions without its sessions: what a transaction that fails
or does not fit changes is gone. -/
def trial (ctx : Context) (trxSize : SignedTransaction → ℕ) (when : TimePointSec) (limit : ℕ) :
    List SignedTransaction → Draft → ChainState → Draft × ChainState
  | [], draft, s => (draft, s)
  | tx :: rest, draft, s =>
    if tx.expiration < when ∨ limit ≤ draft.totalBlockSize + trxSize tx then
      trial ctx trxSize when limit rest draft s
    else match applyTransaction ctx tx s with
      | .ok (_, t) => trial ctx trxSize when limit rest (draft.add trxSize tx) t
      | .error _ => trial ctx trxSize when limit rest draft s

/-- The stack of the blocks, without the session of the pending transactions. -/
def headStack (n : Node) : SnapshotStack ChainState := if n.pendingSession then n.db.undo else n.db

/-- The node during the trial. -/
def trying (n : Node) (s : ChainState) : Node :=
  { n with db := (headStack n).start.write s, pendingSession := true }

/-- The node without the session of the pending transactions. -/
def settled (n : Node) : Node := { n with db := headStack n, pendingSession := false }

/-- Resetting the pending session settles the node. -/
theorem resetPendingSession_eq (n : Node) : resetPendingSession n = (.ok (), settled n) := by
  unfold resetPendingSession settled headStack
  cases hsession : n.pendingSession with
  | true => simp [Process.change, hsession]
  | false =>
    simp only [Process.change, hsession, Bool.false_eq_true, if_false]
    rw [← hsession]

/-- A transaction in its session, on top of those before it. -/
theorem tryTransaction_eq (tx : SignedTransaction) (draft : Draft) (n : Node) (s : ChainState) :
    tryTransaction ctx trxSize when limit tx draft (trying n s) =
      (.ok (trial ctx trxSize when limit [tx] draft s).1,
        trying n (trial ctx trxSize when limit [tx] draft s).2) := by
  unfold tryTransaction trial
  by_cases hexpired : tx.expiration < when
  · rw [if_pos hexpired, if_pos (.inl hexpired)]
    rfl
  by_cases hlarge : limit ≤ draft.totalBlockSize + trxSize tx
  · rw [if_neg hexpired, if_pos hlarge, if_pos (.inr hlarge)]
    rfl
  rw [if_neg hexpired, if_neg hlarge, if_neg (not_or.mpr ⟨hexpired, hlarge⟩)]
  have hcurrent : (trying n s).db.current = s := rfl
  cases hrun : applyTransaction ctx tx s with
  | error e =>
    have hsession : inSession (onState (applyTransaction ctx tx)) (trying n s) =
        (.error e, trying n s) := by
      have hundo : (trying n s).db.start.undo = (trying n s).db :=
        SnapshotStack.undo_write_start _ (trying n s).db.current
      rw [inSession_eq]
      simp [onState, hcurrent, hrun, hundo]
    rw [bind_of_ok (attempt_of hsession)]
    rfl
  | ok pair =>
    have hsession : inSession (onState (applyTransaction ctx tx)) (trying n s) =
        (.ok (), { trying n s with db := (trying n s).db.start.write pair.2 }) := by
      rw [inSession_eq]
      simp [onState, hcurrent, hrun]
    have hsquash : ((trying n s).db.start.write pair.2).squash = (headStack n).start.write pair.2 :=
      (headStack n).squash_write_start _ _
    rw [bind_of_ok (attempt_of hsession)]
    have hnode : { trying n s with db := ((trying n s).db.start.write pair.2).squash } =
        trying n pair.2 := by
      rw [hsquash]
      rfl
    exact congrArg (Prod.mk _) hnode

/-- The trial of a transaction comes before that of the others. -/
theorem trial_cons (tx : SignedTransaction) (rest : List SignedTransaction) (draft : Draft)
    (s : ChainState) :
    trial ctx trxSize when limit (tx :: rest) draft s =
      trial ctx trxSize when limit rest (trial ctx trxSize when limit [tx] draft s).1
        (trial ctx trxSize when limit [tx] draft s).2 := by
  simp only [trial]
  split
  · rfl
  · cases applyTransaction ctx tx s <;> rfl

/-- Filling the draft is the trial on the objects. -/
theorem fillDraft_eq (pending : List SignedTransaction) (draft : Draft) (n : Node)
    (s : ChainState) :
    fillDraft ctx trxSize when limit pending draft (trying n s) =
      (.ok (trial ctx trxSize when limit pending draft s).1,
        trying n (trial ctx trxSize when limit pending draft s).2) := by
  induction pending generalizing draft s with
  | nil => rfl
  | cons tx rest ih =>
    unfold fillDraft
    rw [bind_of_ok (tryTransaction_eq tx draft n s), ih, ← trial_cons]

/-- The trial on the objects of the head block. -/
def headTrial (ctx : Context) (trxSize : SignedTransaction → ℕ) (when : TimePointSec) (limit : ℕ)
    (n : Node) : Draft × ChainState :=
  trial ctx trxSize when limit n.pendingTx {} (headStack n).current

/-- The session of the trial is discarded. -/
theorem rebuildPending_eq (n : Node) :
    rebuildPending ctx trxSize when limit n =
      (.ok (headTrial ctx trxSize when limit n).1, settled n) := by
  have hopen : (Process.change fun n : Node => { n with db := n.db.start, pendingSession := true } :
      NodeM Unit) (settled n) = (.ok (), trying n (headStack n).current) := rfl
  have hread : (Process.read (·.pendingTx) : NodeM _) (trying n (headStack n).current) =
      (.ok n.pendingTx, trying n (headStack n).current) := rfl
  have hclose : ∀ s, settled (trying n s) = settled n := by
    intro s
    have hundo : ((headStack n).start.write s).undo = headStack n :=
      SnapshotStack.undo_write_start _ _
    unfold settled trying headStack at *
    simp only [if_true]
    rw [hundo]
  unfold rebuildPending
  rw [bind_of_ok (resetPendingSession_eq n), bind_of_ok hopen, bind_of_ok hread,
    bind_of_ok (fillDraft_eq _ _ _ _), bind_of_ok (resetPendingSession_eq _), hclose]
  rfl

end Trial

section Assembly

variable {ctx : Context} {trxSize : SignedTransaction → ℕ} {when : TimePointSec}
  {witnessOwner : AccountName} {key : SigningKey} {n m : Node} {b : SignedBlock} {s t : ChainState}

/-- A producer that passes the check is scheduled in the slot. -/
theorem checkProducer_ok {u : Unit}
    (h : Returns (checkProducer ctx when witnessOwner key) s u t) :
    t = s ∧ 0 < slotAtTime s.dgp when ∧
      Returns (getScheduledWitness (slotAtTime s.dgp when)) s witnessOwner s := by
  obtain ⟨_, hslot, h⟩ := h.gets_bind.lift_bind
  obtain ⟨name, v, hname, h⟩ := h.bind
  have hv : v = s := (Returns.pure hname.gets_bind.gets_bind).2
  rw [hv] at hname h
  obtain ⟨_, hscheduled, h⟩ := h.lift_bind
  obtain ⟨w, -, h⟩ := lookup_bind h
  have howner : name = witnessOwner := of_decide_eq_true (fcAssert_eq_ok hscheduled)
  rw [howner] at hname
  exact ⟨h.lift.2, of_decide_eq_true (fcAssert_eq_ok hslot), hname⟩

/-- The witness with a name is found by it. -/
theorem getWitness_ok {name : AccountName} {w : WitnessObject}
    (h : Returns (getWitness name) s w t) : s.witnesses.find (ownedBy name) = some w ∧ t = s := by
  have hbind : Returns (getWitness name >>= pure) s w t := by
    rw [bind_pure]
    exact h
  obtain ⟨v, hv, hpure⟩ := lookup_bind hbind
  obtain ⟨rfl, rfl⟩ := Returns.pure hpure
  exact ⟨hv, rfl⟩

/-- What `_generate_block` puts together from the objects of the head block. -/
structure Assembled (ctx : Context) (trxSize : SignedTransaction → ℕ) (when : TimePointSec)
    (witnessOwner : AccountName) (n : Node) (b : SignedBlock) : Prop where
  previous : b.header.previous = (headStack n).current.dgp.headBlockId
  timestamp : b.header.timestamp = when
  witness : b.header.witness = witnessOwner.toBytes
  merkleRoot : b.header.transactionMerkleRoot = b.calculateMerkleRoot ctx.env
  extensions : ∃ w vote, (headStack n).current.witnesses.find (ownedBy witnessOwner) = some w ∧
    voteExtension w (headStack n).current.hardforks = .ok vote ∧
    b.header.extensions = versionExtension w ++ vote
  transactions : b.transactions =
    (headTrial ctx trxSize when n.state.dgp.maximumBlockSize n).1.transactions

/-- Putting a block together settles the node, and the block is that of the objects of the head. -/
theorem assembleBlock_ok
    (h : assembleBlock ctx trxSize when witnessOwner key n = (.ok b, m)) :
    m = settled n ∧ Assembled ctx trxSize when witnessOwner n b := by
  obtain ⟨_, n₁, hcheck, h⟩ := ok_of_bind h
  obtain ⟨v, hv, hn₁⟩ := onState_ok hcheck
  rw [(checkProducer_ok hv).1] at hn₁
  have hsame : n₁ = n := hn₁
  rw [hsame] at h
  rw [read_bind, bind_of_ok (rebuildPending_eq n)] at h
  change (onState (getWitness witnessOwner) >>= _) (settled n) = _ at h
  obtain ⟨w, n₃, hwitness, h⟩ := ok_of_bind h
  obtain ⟨u, hu, hn₃⟩ := onState_ok hwitness
  obtain ⟨hfound, hu⟩ := getWitness_ok hu
  have hn₃ : n₃ = settled n := by
    rw [hn₃, hu]
    rfl
  rw [hn₃] at h
  change (Process.ofExcept (voteExtension w (headStack n).current.hardforks) >>= _) (settled n) = _ at h
  obtain ⟨vote, n₄, hvote, h⟩ := ok_of_bind h
  obtain ⟨hvote, hn₄⟩ := ok_of_ofExcept hvote
  have hm : n₄ = m := congrArg Prod.snd h
  have hb := Except.ok.inj (congrArg Prod.fst h)
  refine ⟨hm.symm.trans hn₄, ?_⟩
  rw [← hb]
  split
  · exact ⟨rfl, rfl, rfl, rfl, ⟨w, vote, hfound, hvote, rfl⟩, rfl⟩
  · exact ⟨rfl, rfl, rfl, rfl, ⟨w, vote, hfound, hvote, rfl⟩, rfl⟩

end Assembly

section Estimate

variable {ctx : Context} {trxSize : SignedTransaction → ℕ} {when : TimePointSec} {limit : ℕ}

/-- The total size of the draft is that of its transactions and the header. -/
def Draft.Counted (trxSize : SignedTransaction → ℕ) (draft : Draft) : Prop :=
  draft.totalBlockSize = maxBlockHeaderSize + (draft.transactions.map trxSize).sum

/-- A further transaction is counted in the draft. -/
theorem Draft.Counted.add {draft : Draft} (h : draft.Counted trxSize) (tx : SignedTransaction) :
    (draft.add trxSize tx).Counted trxSize := by
  change draft.totalBlockSize + trxSize tx = _
  rw [h, Draft.add, List.map_append, List.sum_append]
  simp [Nat.add_assoc]

/-- The trial counts the sizes of its transactions. -/
theorem trial_counted (pending : List SignedTransaction) {draft : Draft} (s : ChainState)
    (h : draft.Counted trxSize) :
    (trial ctx trxSize when limit pending draft s).1.Counted trxSize := by
  induction pending generalizing draft s with
  | nil => exact h
  | cons tx rest ih =>
    unfold trial
    split
    · exact ih s h
    · split
      · exact ih _ (h.add tx)
      · exact ih s h

end Estimate

end Whaleshares.GenerateBlock
