import Whaleshares.GenerateBlock

/-!
# The size of generated blocks

The producer estimates the size of a block from an empty header and four bytes more; the
packed block has the name of the witness, the extensions of the header and the number of the
transactions besides. It fits where these bytes fit into the four bytes and what the
transactions leave below the limit.
-/

namespace Whaleshares.BlockFit

open Config Fc Assets Protocol Objects Program Database ApplyBlock Genesis ChainRun Footprint
  PendingSession PendingState GenerateBlock Node

section Size

variable {ctx : Context} {trxSize : SignedTransaction → ℕ} {when : TimePointSec}
  {witnessOwner : AccountName} {n : Node} {b : SignedBlock}

/-- The bytes of a block that the estimate leaves out. -/
def uncounted (witness : Bytes) (extensions : List HeaderExtension) (count : ℕ) : ℕ :=
  witness.length + (extensions.map extensionSize).sum + varintSize count

/-- What the size of a generated block must not exceed: the maximum of the chain and, unless
the check is skipped, the constant of the source. -/
def sizeLimit (skip : SkipFlags) (maximumBlockSize : ℕ) : ℕ :=
  if skip.blockSizeCheck then maximumBlockSize else min maximumBlockSize wlsMaxBlockSize

/-- A count takes at least a byte. -/
theorem varintSize_pos (count : ℕ) : 1 ≤ varintSize count := by
  unfold varintSize
  split_ifs <;> omega

/-- A small count takes one byte. -/
theorem varintSize_small {count : ℕ} (h : count < 2 ^ 7) : varintSize count = 1 := if_pos h

/-- An unpacked number has as many bytes as its width. -/
theorem unpackBytes_length (packed width : ℕ) : (unpackBytes packed width).length = width := by
  induction width generalizing packed with
  | zero => rfl
  | succ width ih => rw [unpackBytes, List.length_cons, ih]

/-- A name has at most sixteen bytes. -/
theorem toBytes_length_le (name : AccountName) : name.toBytes.length ≤ 16 := by
  have hlength := unpackBytes_length name.packed 16
  unfold AccountName.toBytes
  split
  · exact hlength.le
  · exact (List.takeWhile_sublist _).length_le.trans hlength.le

/-- At most one version is announced. -/
theorem versionExtension_length (w : WitnessObject) : (versionExtension w).length ≤ 1 := by
  unfold versionExtension
  split <;> simp

/-- At most one vote for a hardfork is announced. -/
theorem voteExtension_length {w : WitnessObject} {hfp : HardforkPropertyObject}
    {vote : List HeaderExtension} (h : voteExtension w hfp = .ok vote) : vote.length ≤ 1 := by
  unfold voteExtension at h
  split at h
  · obtain ⟨next, -, h⟩ := bind_eq_ok h
    split at h
    · rw [← Except.ok.inj h]
      rfl
    · rw [← Except.ok.inj h]
      exact Nat.zero_le 1
  · split at h
    · obtain ⟨last, -, h⟩ := bind_eq_ok h
      rw [← Except.ok.inj h]
      rfl
    · rw [← Except.ok.inj h]
      exact Nat.zero_le 1

/-- The size of a header with a short name and few extensions. -/
theorem headerSize_eq (header : SignedBlockHeader) (hwitness : header.witness.length < 2 ^ 7)
    (hextensions : header.extensions.length < 2 ^ 7) :
    headerSize header =
      111 + header.witness.length + (header.extensions.map extensionSize).sum := by
  unfold headerSize stringSize vectorSize
  rw [varintSize_small hwitness, varintSize_small hextensions]
  omega

/-- The estimate and the bytes that it leaves out make the size of the block and four bytes. -/
theorem blockSize_assembled (h : Assembled ctx trxSize when witnessOwner n b) :
    blockSize trxSize b + 4 =
      (headTrial ctx trxSize when n.state.dgp.maximumBlockSize n).1.totalBlockSize +
        uncounted witnessOwner.toBytes b.header.extensions b.transactions.length := by
  obtain ⟨w, vote, -, hvote, hextensions⟩ := h.extensions
  have hname := toBytes_length_le witnessOwner
  have hversion := versionExtension_length w
  have hvote := voteExtension_length hvote
  have hcount : b.header.extensions.length ≤ 2 := by
    rw [hextensions, List.length_append]
    omega
  have hheader := headerSize_eq b.header (by rw [h.witness]; omega) (by omega)
  have hcounted : (headTrial ctx trxSize when n.state.dgp.maximumBlockSize n).1.totalBlockSize =
      maxBlockHeaderSize + (b.transactions.map trxSize).sum := by
    rw [h.transactions]
    have hempty : Draft.Counted trxSize {} := rfl
    exact trial_counted n.pendingTx _ hempty
  rw [hcounted, maxBlockHeaderSize_eq]
  unfold blockSize vectorSize uncounted
  rw [hheader, h.witness]
  omega

/-- A size within both limits. -/
theorem le_sizeLimit_iff (skip : SkipFlags) (size maximumBlockSize : ℕ) :
    size ≤ sizeLimit skip maximumBlockSize ↔
      size ≤ maximumBlockSize ∧ (skip.blockSizeCheck = true ∨ size ≤ wlsMaxBlockSize) := by
  unfold sizeLimit
  cases skip.blockSizeCheck with
  | true => simp
  | false => simp

end Size

section Runs

variable {env : Env} {initSupply : ℕ} {s t : ChainState}

/-- The states have the same maximal block size. -/
def SameMaximum (s t : ChainState) : Prop := t.dgp.maximumBlockSize = s.dgp.maximumBlockSize

instance : IsPreorder ChainState SameMaximum where
  refl _ := rfl
  trans _ _ _ hst htu := Eq.trans htu hst

/-- The routines of money keep the maximum size. -/
theorem sameMaximum_moneyFrame : MoneyFrame SameMaximum where
  accounts _ _ _ := rfl
  accountAuthorities _ _ := rfl
  comments _ _ := rfl
  commentVotes _ _ := rfl
  witnessVotes _ _ := rfl
  withdrawVestingRoutes _ _ := rfl
  transactions _ _ := rfl
  witnesses _ _ _ _ := rfl
  newWitness _ _ _ _ _ _ _ := rfl
  anyAccounts _ _ := rfl
  rewardFunds _ _ := rfl
  totals s d hhead := by
    have hsame : (head d).maximumBlockSize = (head s.dgp).maximumBlockSize :=
      congrArg (·.maximumBlockSize) hhead
    exact hsame

/-- Applied transactions keep the maximum size. -/
theorem applied_sameMaximum {allowed : Context → Prop} {trxs : List SignedTransaction}
    (h : Applied allowed s trxs t) : SameMaximum s t := by
  induction h with
  | nil => exact Std.Refl.refl s
  | snoc _ _ happly ih =>
    have hstep := (applyTransaction_keeps _ (sameMaximum_moneyFrame.toOperationFrame _) _).rel _ _ _ happly
    exact Trans.trans ih hstep

/-- Without the pending session the stack of the head is its base. -/
theorem headStack_onTop {base : SnapshotStack ChainState} {forkDb : ForkDatabase} {n : Node}
    (h : OnTop base forkDb n) : headStack n = base := by
  have hdb := h.db
  unfold headStack
  split
  next hsession =>
    rw [if_pos hsession] at hdb
    rw [hdb, SnapshotStack.undo_write_start]
  next hsession =>
    rw [if_neg hsession] at hdb
    exact hdb

/-- The limit that the producer reads is the one of the head block. -/
theorem maximum_settled (trxSize : SignedTransaction → ℕ) (calls : List NodeCall) :
    (settled (nodeAfter trxSize env initSupply calls)).state.dgp.maximumBlockSize =
      (nodeAfter trxSize env initSupply calls).state.dgp.maximumBlockSize := by
  obtain ⟨-, chain, floor, base, htop, -, happlied⟩ :=
    nodeAfter_consistent trxSize env initSupply calls
  have hsame := applied_sameMaximum happlied
  change (headStack _).current.dgp.maximumBlockSize = _
  rw [headStack_onTop htop]
  exact hsame.symm

/-- In every node that calls lead to, the assembled block meets its size limits if and only if
the bytes that the estimate leaves out fit into the four reserved bytes and what the
transactions of the block leave below the limit. -/
theorem generated_block_fits_iff {env : Env} {initSupply : ℕ} {trxSize : SignedTransaction → ℕ}
    (hpacks : Packs env trxSize) (calls : List NodeCall) (skip : SkipFlags) (producing : Bool)
    (maxUndo : ℕ) (when : TimePointSec) (witnessOwner : AccountName) (key : SigningKey)
    {b : SignedBlock} {m : Node}
    (h : assembleBlock ⟨env, skip, producing, maxUndo⟩ trxSize when witnessOwner key
      (nodeAfter trxSize env initSupply calls) = (.ok b, m)) :
    ∃ w vote, m.state.witnesses.find (ownedBy witnessOwner) = some w ∧
      voteExtension w m.state.hardforks = .ok vote ∧
      ((env.packSize b ≤ m.state.dgp.maximumBlockSize ∧
          (skip.blockSizeCheck = true ∨ env.packSize b ≤ wlsMaxBlockSize)) ↔
        uncounted witnessOwner.toBytes (versionExtension w ++ vote)
          (headTrial ⟨env, skip, producing, maxUndo⟩ trxSize when m.state.dgp.maximumBlockSize
            (nodeAfter trxSize env initSupply calls)).1.transactions.length ≤
        sizeLimit skip m.state.dgp.maximumBlockSize + 4 -
          (headTrial ⟨env, skip, producing, maxUndo⟩ trxSize when m.state.dgp.maximumBlockSize
            (nodeAfter trxSize env initSupply calls)).1.totalBlockSize) := by
  obtain ⟨hm, hassembled⟩ := assembleBlock_ok h
  have hmaximum : m.state.dgp.maximumBlockSize =
      (nodeAfter trxSize env initSupply calls).state.dgp.maximumBlockSize := by
    rw [hm]
    exact maximum_settled trxSize calls
  obtain ⟨w, vote, hfound, hvote, hextensions⟩ := hassembled.extensions
  refine ⟨w, vote, by rw [hm]; exact hfound, by rw [hm]; exact hvote, ?_⟩
  have hsize := blockSize_assembled hassembled
  have hpositive := varintSize_pos b.transactions.length
  rw [hextensions, ← hmaximum] at hsize
  have htransactions := hassembled.transactions
  rw [← hmaximum] at htransactions
  rw [← le_sizeLimit_iff, hpacks b, ← htransactions]
  have huncounted : 1 ≤ uncounted witnessOwner.toBytes (versionExtension w ++ vote)
      b.transactions.length := hpositive.trans (Nat.le_add_left _ _)
  omega

end Runs

section Samples

/-- The packed size of a transfer: the tag, two names, an asset and a memo. Other operations do
not occur. -/
def transferSize : Operation → ℕ
  | .transfer o =>
    1 + stringSize o.source.toBytes + stringSize o.target.toBytes + 16 + stringSize o.memo
  | _ => 0

/-- The packed size of a transaction of transfers. -/
def sampleTrxSize (trx : SignedTransaction) : ℕ :=
  2 + 4 + 4 + vectorSize transferSize trx.operations + 1 + vectorSize (fun _ => 65) trx.signatures

/-- The small instance with packed sizes, and with the expiration as the id of a transaction. -/
def packingEnv : Env :=
  { sampleEnv with
    packSize := blockSize sampleTrxSize
    transactionId := fun trx => trx.expiration }

/-- The small environment packs a block as its header and its transactions. -/
theorem packingEnv_packs : Packs packingEnv sampleTrxSize := fun _ => rfl

/-- A transaction of transfers with memos of a given length. -/
def memoTransfers (expiration : TimePointSec) (count length : ℕ) : SignedTransaction :=
  ⟨1, 0, expiration, List.replicate count
    (.transfer ⟨initMinerName 0, initMinerName 1, wls 1, List.replicate length 120⟩), [⟨0⟩]⟩

/-- The first round of blocks, and transactions after it. -/
def roundAnd (trxs : List SignedTransaction) : List NodeCall :=
  ((List.range 21).map fun i => .block (sampleCall (sampleChain [] i))) ++
    trxs.map fun trx => .transaction ⟨{}, 10000, trx⟩

/-- The key of all witnesses of the small instance. -/
def sampleSigningKey : SigningKey := ⟨sampleKey, fun _ => ⟨0⟩⟩

/-- The slot after the first round, and its witness. -/
def nextSlot : TimePointSec := wlsGenesisTime + 22 * wlsBlockInterval

def nextWitness : AccountName := initMinerName 8

/-- Two transactions that fill a block of 131072 bytes up to the last byte, by the estimate. -/
def fullPending : List SignedTransaction :=
  [memoTransfers (wlsGenesisTime + 100) 62 2040, memoTransfers (wlsGenesisTime + 101) 1 1800]

/-- The block that the small instance assembles after the first round. -/
def assembledAfter (trxs : List SignedTransaction) : Except Exc SignedBlock × Node :=
  assembleBlock ⟨packingEnv, {}, false, 10000⟩ sampleTrxSize nextSlot nextWitness sampleSigningKey
    (nodeAfter sampleTrxSize packingEnv 1000000 (roundAnd trxs))

/-- The sizes of an assembled block are read off its run. -/
theorem assembledAfter_size {trxs : List SignedTransaction} {size maximum : ℕ}
    (h : ((assembledAfter trxs).1.toOption.map packingEnv.packSize,
      (assembledAfter trxs).2.state.dgp.maximumBlockSize) = (some size, maximum)) :
    ∃ b m, assembledAfter trxs = (.ok b, m) ∧ packingEnv.packSize b = size ∧
      m.state.dgp.maximumBlockSize = maximum := by
  obtain ⟨hsize, hmaximum⟩ := Prod.mk.inj h
  cases hrun : assembledAfter trxs with
  | mk r m =>
    rw [hrun] at hsize hmaximum
    cases r with
    | error e => cases hsize
    | ok b => exact ⟨b, m, rfl, Option.some.inj hsize, hmaximum⟩

/-- A small transaction leaves enough room. -/
theorem generated_block_fits_iff_oneTransfer :
    ∃ b m w vote, assembledAfter [memoTransfers (wlsGenesisTime + 100) 1 10] = (.ok b, m) ∧
      packingEnv.packSize b = 249 ∧ m.state.witnesses.find (ownedBy nextWitness) = some w ∧
      uncounted nextWitness.toBytes (versionExtension w ++ vote)
        (headTrial ⟨packingEnv, {}, false, 10000⟩ sampleTrxSize nextSlot
          m.state.dgp.maximumBlockSize (nodeAfter sampleTrxSize packingEnv 1000000
            (roundAnd [memoTransfers (wlsGenesisTime + 100) 1 10]))).1.transactions.length ≤
      sizeLimit {} m.state.dgp.maximumBlockSize + 4 -
        (headTrial ⟨packingEnv, {}, false, 10000⟩ sampleTrxSize nextSlot
          m.state.dgp.maximumBlockSize (nodeAfter sampleTrxSize packingEnv 1000000
            (roundAnd [memoTransfers (wlsGenesisTime + 100) 1 10]))).1.totalBlockSize := by
  have hcomputed : ((assembledAfter [memoTransfers (wlsGenesisTime + 100) 1 10]).1.toOption.map
      packingEnv.packSize,
      (assembledAfter [memoTransfers (wlsGenesisTime + 100) 1 10]).2.state.dgp.maximumBlockSize) =
      (some 249, 131072) := by decide +kernel
  obtain ⟨b, m, hb, hsize, hmaximum⟩ := assembledAfter_size hcomputed
  obtain ⟨w, vote, hfound, -, hiff⟩ := generated_block_fits_iff packingEnv_packs _ {} false 10000
    nextSlot nextWitness sampleSigningKey hb
  refine ⟨b, m, w, vote, hb, hsize, hfound, hiff.mp ⟨?_, .inr ?_⟩⟩
  · rw [hsize, hmaximum]
    decide
  · rw [hsize]
    decide

/-- The block of two transactions that fill the estimate is six bytes too large. -/
theorem generated_block_too_large_fullPending :
    ¬ ∀ (env : Env) (initSupply : ℕ) (trxSize : SignedTransaction → ℕ), Packs env trxSize →
      ∀ (calls : List NodeCall) (ctx : Context) (when : TimePointSec) (witnessOwner : AccountName)
        (key : SigningKey) (b : SignedBlock) (m : Node), ctx.env = env →
        assembleBlock ctx trxSize when witnessOwner key (nodeAfter trxSize env initSupply calls) =
          (.ok b, m) → env.packSize b ≤ m.state.dgp.maximumBlockSize := by
  intro hall
  have hcomputed : ((assembledAfter fullPending).1.toOption.map packingEnv.packSize,
      (assembledAfter fullPending).2.state.dgp.maximumBlockSize) = (some 131078, 131072) := by
    decide +kernel
  obtain ⟨b, m, hb, hsize, hmaximum⟩ := assembledAfter_size hcomputed
  have hfits := hall packingEnv 1000000 sampleTrxSize packingEnv_packs _ _ _ _ _ b m rfl hb
  rw [hmaximum, hsize] at hfits
  omega

end Samples

end Whaleshares.BlockFit
