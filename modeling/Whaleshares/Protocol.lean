import Whaleshares.Assets

/-!
# Operations, transactions and blocks

The protocol types and the checks that need no state: `validate` of every
operation and the authorities it requires (`wls_operations.hpp`,
`wls_operations.cpp`, `authority.cpp`), transactions (`transaction.cpp`) and block
headers with their id and merkle root (`block.cpp`).

Hashes, packed sizes, signature recovery and the text patches of comment edits are
fields of `Env`. Virtual operations are notifications that no evaluator accepts;
their `validate` always fails, and they are left out of `Operation`. Block numbers
are natural numbers: a chain that wraps a 32-bit number is out of reach.
-/

namespace Whaleshares.Protocol

open Config Fc Assets

section Authorities

/-- `authority`; the maps are in ascending order of their keys. -/
structure Authority where
  /-- Weight that the approvals must reach. -/
  weightThreshold : ℕ
  /-- Accounts with their weights. -/
  accountAuths : List (AccountName × ℕ)
  /-- Keys with their weights. -/
  keyAuths : List (PublicKey × ℕ)
  deriving DecidableEq

/-- A lowercase letter. -/
def isLetter (b : UInt8) : Bool := 97 ≤ b.toNat && b.toNat ≤ 122

/-- A digit. -/
def isDigit (b : UInt8) : Bool := 48 ≤ b.toNat && b.toNat ≤ 57

/-- One label of an account name: three bytes or more, a letter first, a letter or
digit last, letters, digits and hyphens between. -/
def isValidLabel (label : Bytes) : Bool :=
  3 ≤ label.length &&
    (label.head?.map isLetter).getD false &&
    (label.getLast?.map fun b => isLetter b || isDigit b).getD false &&
    (label.tail.dropLast.all fun b => isLetter b || isDigit b || b = 45)

/-- `is_valid_account_name`: labels between dots. -/
def isValidAccountName (name : Bytes) : Bool :=
  wlsMinAccountNameLength ≤ name.length && name.length ≤ wlsMaxAccountNameLength &&
    (name.splitOn 46).all isValidLabel

/-- `authority::validate` -/
def Authority.validate (auth : Authority) : Except Exc Unit :=
  auth.accountAuths.forM fun item =>
    fcAssert (isValidAccountName item.1.toBytes) "is_valid_account_name( item.first )"

/-- `validate_account_name` -/
def validateAccountName (name : AccountName) : Except Exc Unit :=
  fcAssert (isValidAccountName name.toBytes) "Account name ${n} is invalid"

end Authorities

section Operations

structure VoteOperation where
  voter : AccountName
  author : AccountName
  permlink : Bytes
  weight : ℤ
  deriving DecidableEq

structure CommentOperation where
  parentAuthor : AccountName
  parentPermlink : Bytes
  author : AccountName
  permlink : Bytes
  title : Bytes
  body : Bytes
  jsonMetadata : Bytes
  deriving DecidableEq

structure TransferOperation where
  source : AccountName
  target : AccountName
  amount : Asset
  memo : Bytes
  deriving DecidableEq

structure TransferToVestingOperation where
  source : AccountName
  /-- Where empty, the same as `source`. -/
  target : AccountName
  amount : Asset
  deriving DecidableEq

structure WithdrawVestingOperation where
  account : AccountName
  vestingShares : Asset
  deriving DecidableEq

structure AccountCreateOperation where
  fee : Asset
  creator : AccountName
  newAccountName : AccountName
  owner : Authority
  active : Authority
  posting : Authority
  memoKey : PublicKey
  jsonMetadata : Bytes
  deriving DecidableEq

structure AccountUpdateOperation where
  account : AccountName
  owner : Option Authority
  active : Option Authority
  posting : Option Authority
  memoKey : PublicKey
  jsonMetadata : Bytes
  deriving DecidableEq

structure AccountForsaleOperation where
  account : AccountName
  forSale : Bool
  target : AccountName
  price : Asset
  deriving DecidableEq

structure AccountBuyingOperation where
  account : AccountName
  accountBuy : AccountName
  price : Asset
  deriving DecidableEq

/-- `chain_properties`, which witnesses vote on. -/
structure ChainProperties where
  accountCreationFee : Asset := wls wlsMinAccountCreationFee
  maximumBlockSize : ℕ := wlsMinBlockSizeLimit * 2
  deriving DecidableEq

structure WitnessUpdateOperation where
  owner : AccountName
  url : Bytes
  blockSigningKey : PublicKey
  props : ChainProperties
  fee : Asset
  deriving DecidableEq

structure AccountWitnessVoteOperation where
  account : AccountName
  witness : AccountName
  approve : Bool
  deriving DecidableEq

structure AccountWitnessProxyOperation where
  account : AccountName
  proxy : AccountName
  deriving DecidableEq

structure CustomOperation where
  requiredAuths : List AccountName
  id : ℕ
  data : Bytes
  deriving DecidableEq

structure DeleteCommentOperation where
  author : AccountName
  permlink : Bytes
  deriving DecidableEq

structure CustomJsonOperation where
  requiredAuths : List AccountName
  requiredPostingAuths : List AccountName
  id : Bytes
  json : Bytes
  deriving DecidableEq

structure BeneficiaryRoute where
  account : AccountName
  weight : ℕ
  deriving DecidableEq

/-- `comment_options_extension`, whose only case is a list of beneficiaries. -/
structure CommentPayoutBeneficiaries where
  beneficiaries : List BeneficiaryRoute
  deriving DecidableEq

structure CommentOptionsOperation where
  author : AccountName
  permlink : Bytes
  maxAcceptedPayout : Asset
  allowVotes : Bool
  allowCurationRewards : Bool
  extensions : List CommentPayoutBeneficiaries
  deriving DecidableEq

structure SetWithdrawVestingRouteOperation where
  fromAccount : AccountName
  toAccount : AccountName
  percent : ℕ
  autoVest : Bool
  deriving DecidableEq

structure CustomBinaryOperation where
  requiredOwnerAuths : List AccountName
  requiredActiveAuths : List AccountName
  requiredPostingAuths : List AccountName
  requiredAuths : List Authority
  id : Bytes
  data : Bytes
  deriving DecidableEq

structure ClaimRewardBalanceOperation where
  account : AccountName
  rewardSteem : Asset
  rewardVests : Asset
  deriving DecidableEq

/-- `operation`, the variant of the operations that transactions carry. -/
inductive Operation where
  | vote (o : VoteOperation)
  | comment (o : CommentOperation)
  | transfer (o : TransferOperation)
  | transferToVesting (o : TransferToVestingOperation)
  | withdrawVesting (o : WithdrawVestingOperation)
  | accountCreate (o : AccountCreateOperation)
  | accountUpdate (o : AccountUpdateOperation)
  | accountForsale (o : AccountForsaleOperation)
  | accountBuying (o : AccountBuyingOperation)
  | witnessUpdate (o : WitnessUpdateOperation)
  | accountWitnessVote (o : AccountWitnessVoteOperation)
  | accountWitnessProxy (o : AccountWitnessProxyOperation)
  | custom (o : CustomOperation)
  | deleteComment (o : DeleteCommentOperation)
  | customJson (o : CustomJsonOperation)
  | commentOptions (o : CommentOptionsOperation)
  | setWithdrawVestingRoute (o : SetWithdrawVestingRouteOperation)
  | customBinary (o : CustomBinaryOperation)
  | claimRewardBalance (o : ClaimRewardBalanceOperation)
  deriving DecidableEq

end Operations

section Validation

variable (fc : FcLib)

/-- `validate_permlink` -/
def validatePermlink (permlink : Bytes) : Except Exc Unit := do
  fcAssert (permlink.length < wlsMaxPermlinkLength) "permlink is too long"
  fcAssert (fc.isUtf8 permlink) "permlink not formatted in UTF8"

/-- The check of a non-empty JSON text that several operations make. -/
def validateJsonMetadata (json : Bytes) : Except Exc Unit := do
  if 0 < json.length then
    fcAssert (fc.isUtf8 json) "JSON Metadata not formatted in UTF8"
    fcAssert (fc.jsonIsValid json) "JSON Metadata not valid JSON"

def AccountCreateOperation.validate (o : AccountCreateOperation) : Except Exc Unit := do
  validateAccountName o.newAccountName
  fcAssert (o.fee.symbol = wlsSymbol) "Account creation fee must be WLS"
  o.owner.validate
  o.active.validate
  validateJsonMetadata fc o.jsonMetadata
  let ge ← o.fee.ge (wls 0)
  fcAssert ge "Account creation fee cannot be negative"

def AccountUpdateOperation.validate (o : AccountUpdateOperation) : Except Exc Unit := do
  validateAccountName o.account
  validateJsonMetadata fc o.jsonMetadata

def AccountForsaleOperation.validate (o : AccountForsaleOperation) : Except Exc Unit := do
  validateAccountName o.account
  validateAccountName o.target
  fcAssert (o.price.symbol = wlsSymbol) "price must be WLS"
  let ge ← o.price.ge (wls 0)
  fcAssert ge "price cannot be negative"

def AccountBuyingOperation.validate (o : AccountBuyingOperation) : Except Exc Unit := do
  validateAccountName o.account
  validateAccountName o.accountBuy
  fcAssert (o.price.symbol = wlsSymbol) "price must be WLS"
  let ge ← o.price.ge (wls 0)
  fcAssert ge "price cannot be negative"

def CommentOperation.validate (o : CommentOperation) : Except Exc Unit := do
  fcAssert (o.title.length < 256) "Title larger than size limit"
  fcAssert (fc.isUtf8 o.title) "Title not formatted in UTF8"
  fcAssert (0 < o.body.length) "Body is empty"
  fcAssert (fc.isUtf8 o.body) "Body not formatted in UTF8"
  if o.parentAuthor.size ≠ 0 then validateAccountName o.parentAuthor
  validateAccountName o.author
  validatePermlink fc o.parentPermlink
  validatePermlink fc o.permlink
  if 0 < o.jsonMetadata.length then
    fcAssert (fc.jsonIsValid o.jsonMetadata) "JSON Metadata not valid JSON"

/-- The loop of `comment_payout_beneficiaries::validate` after the first route. -/
def validateRoutes (sum : ℕ) (previous : BeneficiaryRoute) :
    List BeneficiaryRoute → Except Exc Unit
  | [] => .ok ()
  | route :: rest => do
    validateAccountName route.account
    fcAssert (route.weight ≤ wls100Percent) "Cannot allocate more than 100% of rewards to one account"
    let sum := sum + route.weight
    fcAssert (sum ≤ wls100Percent) "Cannot allocate more than 100% of rewards to a comment"
    fcAssert (previous.account.packed < route.account.packed)
      "Benficiaries must be specified in sorted order (account ascending)"
    validateRoutes sum route rest

def CommentPayoutBeneficiaries.validate (o : CommentPayoutBeneficiaries) : Except Exc Unit :=
  match o.beneficiaries with
  | [] => .error (failed "Must specify at least one beneficiary")
  | first :: rest => do
    fcAssert (o.beneficiaries.length < 128) "Cannot specify more than 127 beneficiaries."
    validateAccountName first.account
    fcAssert (first.weight ≤ wls100Percent) "Cannot allocate more than 100% of rewards to one account"
    fcAssert (first.weight ≤ wls100Percent) "Cannot allocate more than 100% of rewards to a comment"
    validateRoutes first.weight first rest

def CommentOptionsOperation.validate (o : CommentOptionsOperation) : Except Exc Unit := do
  validateAccountName o.author
  fcAssert (o.maxAcceptedPayout.symbol = wlsSymbol) "Max accepted payout must be in WLS"
  fcAssert (0 ≤ o.maxAcceptedPayout.amount) "Cannot accept less than 0 payout"
  validatePermlink fc o.permlink
  o.extensions.forM CommentPayoutBeneficiaries.validate

def DeleteCommentOperation.validate (o : DeleteCommentOperation) : Except Exc Unit := do
  validatePermlink fc o.permlink
  validateAccountName o.author

def VoteOperation.validate (o : VoteOperation) : Except Exc Unit := do
  validateAccountName o.voter
  validateAccountName o.author
  fcAssert (o.weight.natAbs ≤ wls100Percent) "Weight is not valid percentage"
  validatePermlink fc o.permlink

def TransferOperation.validate (o : TransferOperation) : Except Exc Unit := do
  validateAccountName o.source
  validateAccountName o.target
  fcAssert (o.amount.symbol ≠ vestsSymbol) "transferring of WHALESTAKE is not allowed."
  fcAssert (0 < o.amount.amount) "Cannot transfer a negative amount (aka: stealing)"
  fcAssert (o.memo.length < wlsMaxMemoSize) "Memo is too large"
  fcAssert (fc.isUtf8 o.memo) "Memo is not UTF8"

def TransferToVestingOperation.validate (o : TransferToVestingOperation) : Except Exc Unit := do
  validateAccountName o.source
  fcAssert (o.amount.symbol = wlsSymbol) "Amount must be WLS"
  if o.target ≠ .empty then validateAccountName o.target
  let gt ← o.amount.gt (wls 0)
  fcAssert gt "Must transfer a nonzero amount"

def WithdrawVestingOperation.validate (o : WithdrawVestingOperation) : Except Exc Unit := do
  validateAccountName o.account
  fcAssert (o.vestingShares.symbol = vestsSymbol) "Amount must be VESTS"

def SetWithdrawVestingRouteOperation.validate (o : SetWithdrawVestingRouteOperation) :
    Except Exc Unit := do
  validateAccountName o.fromAccount
  validateAccountName o.toAccount
  fcAssert (o.percent ≤ wls100Percent) "Percent must be valid wls percent"

def ChainProperties.validate (props : ChainProperties) : Except Exc Unit := do
  fcAssert (wlsMinAccountCreationFee ≤ props.accountCreationFee.amount)
    "account_creation_fee.amount >= WLS_MIN_ACCOUNT_CREATION_FEE"
  fcAssert (wlsMinBlockSizeLimit ≤ props.maximumBlockSize)
    "maximum_block_size >= WLS_MIN_BLOCK_SIZE_LIMIT"

def WitnessUpdateOperation.validate (o : WitnessUpdateOperation) : Except Exc Unit := do
  validateAccountName o.owner
  fcAssert (0 < o.url.length) "URL size must be greater than 0"
  fcAssert (fc.isUtf8 o.url) "URL is not valid UTF8"
  let ge ← o.fee.ge (wls 0)
  fcAssert ge "Fee cannot be negative"
  o.props.validate

def AccountWitnessVoteOperation.validate (o : AccountWitnessVoteOperation) :
    Except Exc Unit := do
  validateAccountName o.account
  validateAccountName o.witness

def AccountWitnessProxyOperation.validate (o : AccountWitnessProxyOperation) :
    Except Exc Unit := do
  validateAccountName o.account
  if o.proxy.size ≠ 0 then validateAccountName o.proxy
  fcAssert (o.proxy ≠ o.account) "Cannot proxy to self"

def CustomOperation.validate (o : CustomOperation) : Except Exc Unit :=
  fcAssert (0 < o.requiredAuths.length) "at least on account must be specified"

def CustomJsonOperation.validate (o : CustomJsonOperation) : Except Exc Unit := do
  fcAssert (0 < o.requiredAuths.length + o.requiredPostingAuths.length)
    "at least on account must be specified"
  fcAssert (o.id.length ≤ 32) "id is too long"
  fcAssert (fc.isUtf8 o.json) "JSON Metadata not formatted in UTF8"
  fcAssert (fc.jsonIsValid o.json) "JSON Metadata not valid JSON"

def CustomBinaryOperation.validate (o : CustomBinaryOperation) : Except Exc Unit := do
  fcAssert (0 < o.requiredOwnerAuths.length + o.requiredActiveAuths.length +
    o.requiredPostingAuths.length) "at least on account must be specified"
  fcAssert (o.id.length ≤ 32) "id is too long"
  o.requiredAuths.forM Authority.validate

def ClaimRewardBalanceOperation.validate (o : ClaimRewardBalanceOperation) :
    Except Exc Unit := do
  validateAccountName o.account
  fcAssert (o.rewardSteem.symbol = wlsSymbol) "Reward WLS must be WLS"
  fcAssert (o.rewardVests.symbol = vestsSymbol) "Reward VESTS must be VESTS"
  fcAssert (0 ≤ o.rewardSteem.amount) "Cannot claim a negative amount"
  fcAssert (0 ≤ o.rewardVests.amount) "Cannot claim a negative amount"
  fcAssert (0 < o.rewardSteem.amount || 0 < o.rewardVests.amount) "Must claim something."

/-- `operation_validate` -/
def Operation.validate : Operation → Except Exc Unit
  | .vote o => o.validate fc
  | .comment o => o.validate fc
  | .transfer o => o.validate fc
  | .transferToVesting o => o.validate
  | .withdrawVesting o => o.validate
  | .accountCreate o => o.validate fc
  | .accountUpdate o => o.validate fc
  | .accountForsale o => o.validate
  | .accountBuying o => o.validate
  | .witnessUpdate o => o.validate fc
  | .accountWitnessVote o => o.validate
  | .accountWitnessProxy o => o.validate
  | .custom o => o.validate
  | .deleteComment o => o.validate fc
  | .customJson o => o.validate fc
  | .commentOptions o => o.validate fc
  | .setWithdrawVestingRoute o => o.validate
  | .customBinary o => o.validate
  | .claimRewardBalance o => o.validate

end Validation

section RequiredAuthorities

/-- The accounts whose authorities an operation requires. -/
structure RequiredAuthorities where
  active : List AccountName := []
  owner : List AccountName := []
  posting : List AccountName := []
  other : List Authority := []

/-- `operation_get_required_authorities` -/
def Operation.requiredAuthorities : Operation → RequiredAuthorities
  | .vote o => { posting := [o.voter] }
  | .comment o => { posting := [o.author] }
  | .transfer o =>
    if o.amount.symbol ≠ vestsSymbol then { active := [o.source] } else { owner := [o.source] }
  | .transferToVesting o => { active := [o.source] }
  | .withdrawVesting o => { active := [o.account] }
  | .accountCreate o => { active := [o.creator] }
  | .accountUpdate o =>
    if o.owner.isSome then { owner := [o.account] } else { active := [o.account] }
  | .accountForsale o => { owner := [o.account] }
  | .accountBuying o => { active := [o.account] }
  | .witnessUpdate o => { active := [o.owner] }
  | .accountWitnessVote o => { active := [o.account] }
  | .accountWitnessProxy o => { active := [o.account] }
  | .custom o => { active := o.requiredAuths }
  | .deleteComment o => { posting := [o.author] }
  | .customJson o => { active := o.requiredAuths, posting := o.requiredPostingAuths }
  | .commentOptions o => { posting := [o.author] }
  | .setWithdrawVestingRoute o => { active := [o.fromAccount] }
  | .customBinary o =>
    { owner := o.requiredOwnerAuths, active := o.requiredActiveAuths
      posting := o.requiredPostingAuths, other := o.requiredAuths }
  | .claimRewardBalance o => { posting := [o.account] }

end RequiredAuthorities

section Blocks

/-- A signature. -/
structure Signature where
  /-- The signature data as a number. -/
  data : ℕ
  deriving DecidableEq

/-- `signed_transaction`; its `extensions` hold nothing. -/
structure SignedTransaction where
  refBlockNum : ℕ
  refBlockPrefix : ℕ
  expiration : TimePointSec
  operations : List Operation
  signatures : List Signature
  deriving DecidableEq

/-- `block_id_type`: the block number in the first word, then the hash. -/
structure BlockId where
  /-- `num_from_id` -/
  num : ℕ
  /-- The other four words, the second word of the id being the lowest. -/
  hash : ℕ
  deriving DecidableEq

/-- `block_id_type()` -/
def BlockId.null : BlockId := ⟨0, 0⟩

/-- `id._hash[1]` -/
def BlockId.secondWord (id : BlockId) : ℕ := id.hash % 2 ^ 32

/-- `version` -/
structure Version where
  vNum : ℕ
  deriving DecidableEq

/-- `hardfork_version( v )`, which drops the release number. -/
def Version.hardfork (v : Version) : Version := ⟨v.vNum / 2 ^ 16 * 2 ^ 16⟩

/-- `block_header_extensions` -/
inductive HeaderExtension where
  | voidT
  | version (v : Version)
  | hardforkVersionVote (hfVersion : Version) (hfTime : TimePointSec)
  deriving DecidableEq

/-- `signed_block_header` -/
structure SignedBlockHeader where
  previous : BlockId
  timestamp : TimePointSec
  /-- The name of the witness, a string that is cut to a name where it is used. -/
  witness : Bytes
  transactionMerkleRoot : ℕ
  extensions : List HeaderExtension
  witnessSignature : Signature
  deriving DecidableEq

/-- `signed_block` -/
structure SignedBlock where
  header : SignedBlockHeader
  transactions : List SignedTransaction
  deriving DecidableEq

/-- `block_num` -/
def SignedBlock.blockNum (b : SignedBlock) : ℕ := b.header.previous.num + 1

/-- The witness of a block as an account name. -/
def SignedBlock.witness (b : SignedBlock) : AccountName := .ofBytes b.header.witness

/-- The functions outside the repository that the modelled code calls. -/
structure Env extends FcLib where
  /-- `transaction::id` -/
  transactionId : SignedTransaction → ℕ
  /-- `signed_transaction::merkle_digest` -/
  merkleDigest : SignedTransaction → ℕ
  /-- `digest_type::hash( std::make_pair( a, b ) )` -/
  hashPair : ℕ → ℕ → ℕ
  /-- `checksum_type::hash` -/
  checksum : ℕ → ℕ
  /-- `fc::sha224::hash` of a header, without its first word. -/
  headerHash : SignedBlockHeader → ℕ
  /-- `signee`, which throws on a malformed signature. -/
  signee : SignedBlockHeader → Option PublicKey
  /-- The key recovered from one signature of a transaction. -/
  recoverKey : SignedTransaction → Signature → Option PublicKey
  /-- `fc::raw::pack_size` of a block. -/
  packSize : SignedBlock → ℕ
  /-- The new body of a comment that is edited: the patched text, or the given
  text where it is no patch. -/
  patchBody : Bytes → Bytes → Bytes
  /-- `WLS_INIT_PUBLIC_KEY` -/
  initPublicKey : PublicKey

variable (env : Env)

/-- `signed_block_header::id` -/
def SignedBlock.id (b : SignedBlock) : BlockId := ⟨b.blockNum, env.headerHash b.header⟩

/-- One round of hashing in pairs; an odd last digest is kept. -/
def merkleRound : List ℕ → List ℕ
  | a :: b :: rest => env.hashPair a b :: merkleRound rest
  | rest => rest

/-- The rounds of `calculate_merkle_root` until one digest is left. -/
def merkleRounds : ℕ → List ℕ → ℕ
  | _, [] => 0
  | _, [digest] => digest
  | 0, digest :: _ => digest
  | rounds + 1, digests => merkleRounds rounds (merkleRound env digests)

/-- `calculate_merkle_root`; every round at least halves the digests, rounded up. -/
def SignedBlock.calculateMerkleRoot (b : SignedBlock) : ℕ :=
  match b.transactions with
  | [] => 0
  | transactions =>
    env.checksum (merkleRounds env transactions.length (transactions.map env.merkleDigest))

end Blocks

end Whaleshares.Protocol
