import Whaleshares.Genesis

/-!
# Runs of the chain

A run applies blocks one after the other to the state of `init_genesis`. Each call of
`_apply_block` has its own skip flags and node settings; the libraries are the same
throughout. The last section sets up the small instance that the concrete runs of
the development use: amounts are checked against 64 bits, every block carries a valid
signature, and the id of a block is made from the parts of its header.
-/

namespace Whaleshares.ChainRun

open Config Fc Assets Protocol Objects Program Database ApplyBlock Genesis

section Runs

/-- A call of `_apply_block`. -/
structure BlockCall where
  /-- The skip flags of the call. -/
  skip : SkipFlags
  /-- `is_producing()` -/
  producing : Bool
  /-- `get_max_undo()` -/
  maxUndo : ℕ
  /-- The block. -/
  block : SignedBlock

/-- What the code reads during a call. -/
def BlockCall.context (env : Env) (call : BlockCall) : Context :=
  ⟨env, call.skip, call.producing, call.maxUndo⟩

/-- One call of `_apply_block`. -/
def BlockCall.run (env : Env) (call : BlockCall) : Chain Unit :=
  applyBlock (call.context env) call.block

/-- The calls of a run, in order. -/
def runBlocks (env : Env) (calls : List BlockCall) : Chain Unit := forEach (BlockCall.run env) calls

/-- The state that a run from `init_genesis` reaches; every block is accepted. -/
def Reaches (env : Env) (initSupply : ℕ) (calls : List BlockCall) (s : ChainState) : Prop :=
  Returns (runBlocks env calls) (initGenesis env initSupply) () s

/-- A property of the first state that every accepted block keeps holds in every state
that a run reaches. -/
theorem Reaches.induction {P : ChainState → Prop} {env : Env} {initSupply : ℕ}
    {calls : List BlockCall} {s : ChainState} (h : Reaches env initSupply calls s)
    (hinit : P (initGenesis env initSupply))
    (hstep : ∀ call ∈ calls, ∀ u v, P u → Returns (call.run env) u () v → P v) : P s :=
  Returns.forEach h hinit hstep

end Runs

section Sample

/-- The key that signs in the small instance. -/
def sampleKey : PublicKey := ⟨1⟩

/-- The libraries of the small instance. -/
def sampleEnv : Env where
  safe z := if -2 ^ 63 ≤ z ∧ z < 2 ^ 63 then some z else none
  ofUInt64 n := if n < 2 ^ 63 then some n else none
  isUtf8 _ := true
  jsonIsValid _ := true
  transactionId trx := trx.refBlockPrefix
  merkleDigest trx := trx.refBlockPrefix + 1
  hashPair a b := 2 ^ a * (2 * b + 1)
  checksum digest := digest
  headerHash header :=
    (header.previous.hash * 2 ^ 32 + header.timestamp) * 2 ^ 32 + header.transactionMerkleRoot
  signee _ := some sampleKey
  recoverKey _ _ := some sampleKey
  packSize b := 115 + 100 * b.transactions.length
  patchBody _ body := body
  initPublicKey := sampleKey

/-- The arithmetic of the sample environment is exact. -/
theorem sampleEnv_safeExact : sampleEnv.SafeExact := by
  constructor
  · intro z w h
    simp only [sampleEnv] at h
    split at h
    next hrange =>
      have hw : z = w := Option.some.inj h
      exact ⟨hw.symm, hrange⟩
    next => cases h
  · intro n w hn h
    simp only [sampleEnv, if_pos hn] at h
    exact (Option.some.inj h).symm
  · intro n w h
    simp only [sampleEnv] at h
    split at h
    next hrange => exact hrange
    next => cases h

/-- The arithmetic of the sample environment is total. -/
theorem sampleEnv_safeTotal : sampleEnv.SafeTotal := by
  intro z hlow hhigh
  simp only [sampleEnv]
  exact if_pos ⟨hlow, hhigh⟩

/-- A block of the small instance, after the block with a given id. -/
def sampleBlock (previous : BlockId) (timestamp : TimePointSec) (witness : AccountName)
    (transactions : List SignedTransaction) : SignedBlock :=
  let draft : SignedBlock :=
    ⟨⟨previous, timestamp, witness.toBytes, 0, [], ⟨0⟩⟩, transactions⟩
  ⟨{ draft.header with transactionMerkleRoot := draft.calculateMerkleRoot sampleEnv }, transactions⟩

/-- A transaction of the small instance that refers to a block. -/
def referring (num word : ℕ) (operations : List Operation) : SignedTransaction where
  refBlockNum := num
  refBlockPrefix := word
  expiration := wlsGenesisTime + 60
  operations := operations
  signatures := [⟨0⟩]

/-- A chain of the first round of witnesses, in which the block of number one carries the
given transactions and no slot is missed. -/
def sampleChain (transactions : List SignedTransaction) : ℕ → SignedBlock
  | 0 => sampleBlock .null (wlsGenesisTime + wlsBlockInterval) (initMinerName 0) transactions
  | n + 1 =>
    sampleBlock ((sampleChain transactions n).id sampleEnv)
      (wlsGenesisTime + (n + 2) * wlsBlockInterval) (initMinerName 0) []

/-- A chain of the first round of witnesses that misses the first slot. -/
def sampleFork : ℕ → SignedBlock
  | 0 => sampleBlock .null (wlsGenesisTime + 2 * wlsBlockInterval) (initMinerName 0) []
  | n + 1 =>
    sampleBlock ((sampleFork n).id sampleEnv)
      (wlsGenesisTime + (n + 3) * wlsBlockInterval) (initMinerName 0) []

/-- The call for a block of the small instance, with every check. -/
def sampleCall (b : SignedBlock) : BlockCall := ⟨{}, false, 10000, b⟩

end Sample

end Whaleshares.ChainRun
